/-!
# Sources of random values

What the generated problems draw from.
-/

namespace Splitting.Random

/-- Three kinds of draws, each turning the state of the source into the next one. -/
structure Source (γ F : Type) where
  normal : γ → F × γ
  uniform : γ → F × γ
  chance : F → γ → Bool × γ

namespace Source

variable {γ F : Type}

/-- Draws `n` times, after the values in `done`. -/
@[specialize] def collect (draw : γ → F × γ) : Nat → Array F → γ → Array F × γ
  | 0, done, g => (done, g)
  | n + 1, done, g =>
    let (x, g) := draw g
    collect draw n (done.push x) g

@[inline] def many (draw : γ → F × γ) (n : Nat) (g : γ) : Array F × γ := collect draw n #[] g

/-- One value for each cell in turn, after the values in `done`. -/
@[specialize] def fill (draw : Nat → Nat → γ → F × γ) :
    List (Nat × Nat) → Array F → γ → Array F × γ
  | [], done, g => (done, g)
  | (r, c) :: cells, done, g =>
    let (x, g) := draw r c g
    fill draw cells (done.push x) g

end Source

end Splitting.Random
