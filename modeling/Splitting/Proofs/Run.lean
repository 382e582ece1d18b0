import Splitting.Run

/-!
# How runs end

A run made of steps ends with a value if each step does, and with a halt if one of them does.
-/

namespace Splitting

namespace World

variable {σ F : Type}

@[simp] theorem state_note (e : Event F) (w : World σ F) : (w.note e).state = w.state := by
  unfold note
  split <;> rfl

@[simp] theorem watch_note (e : Event F) (w : World σ F) : (w.note e).watch = w.watch := by
  unfold note
  split <;> rfl

end World

namespace Run

variable {σ F ε α β : Type}

theorem bind_apply (m : Run σ F ε α) (f : α → Run σ F ε β) (w : World σ F) :
    (m >>= f) w =
      match m w with
      | .ok a w => f a w
      | .error h w => .error h w := by
  show EStateM.bind m f w = _
  unfold EStateM.bind
  cases m w <;> rfl

/-! ## Values -/

theorem bind_eq_ok {m : Run σ F ε α} {f : α → Run σ F ε β} {w w' : World σ F} {b : β} :
    (m >>= f) w = .ok b w' ↔ ∃ a v, m w = .ok a v ∧ f a v = .ok b w' := by
  rw [bind_apply]
  cases m w <;> simp [and_assoc]

theorem pure_eq_ok {a b : α} {w w' : World σ F} :
    (pure a : Run σ F ε α) w = .ok b w' ↔ a = b ∧ w = w' := by
  show EStateM.Result.ok a w = .ok b w' ↔ _
  simp

theorem get_eq_ok {u w w' : World σ F} :
    (get : Run σ F ε (World σ F)) w = .ok u w' ↔ w = u ∧ w = w' := by
  show EStateM.Result.ok w w = .ok u w' ↔ _
  simp

theorem modify_eq_ok {f : World σ F → World σ F} {a : Unit} {w w' : World σ F} :
    (modify f : Run σ F ε Unit) w = .ok a w' ↔ f w = w' := by
  show EStateM.Result.ok () (f w) = .ok a w' ↔ _
  simp

@[simp] theorem note_apply (e : Event F) (w : World σ F) :
    (note e : Run σ F ε Unit) w = .ok () (w.note e) := rfl

theorem demand_eq_ok {o : Option α} {a : α} {w w' : World σ F} :
    (demand o : Run σ F ε α) w = .ok a w' ↔ o = some a ∧ w = w' := by
  cases o <;> simp [demand, misuse]

theorem require_eq_ok {p : Prop} [Decidable p] {a : Unit} {w w' : World σ F} :
    (require p : Run σ F ε Unit) w = .ok a w' ↔ p ∧ w = w' := by
  unfold require
  split <;> simp [*]

theorem check_eq_ok {d : Option Defect} {a : Unit} {w w' : World σ F} :
    (check d : Run σ F SolverError Unit) w = .ok a w' ↔ d = none ∧ w = w' := by
  cases d <;> simp [check, refuse]

def value? : EStateM.Result (Halt ε) (World σ F) α → Option α
  | .ok a _ => some a
  | .error _ _ => none

theorem value?_eq_some {r : EStateM.Result (Halt ε) (World σ F) α} {a : α} :
    value? r = some a ↔ ∃ w, r = .ok a w := by
  cases r <;> simp [value?]

/-! ## Halts -/

def halt? : EStateM.Result (Halt ε) (World σ F) α → Option (Halt ε)
  | .ok _ _ => none
  | .error h _ => some h

theorem halt?_eq_some {r : EStateM.Result (Halt ε) (World σ F) α} {h : Halt ε} :
    halt? r = some h ↔ ∃ w, r = .error h w := by
  cases r <;> simp [halt?]

theorem bind_eq_error {m : Run σ F ε α} {f : α → Run σ F ε β} {w w' : World σ F} {h : Halt ε} :
    (m >>= f) w = .error h w' ↔
      m w = .error h w' ∨ ∃ a v, m w = .ok a v ∧ f a v = .error h w' := by
  rw [bind_apply]
  cases m w <;> simp [and_assoc]

theorem pure_ne_error {a : α} {w w' : World σ F} {h : Halt ε} :
    (pure a : Run σ F ε α) w ≠ .error h w' := by
  intro e
  cases e

theorem demand_eq_error {o : Option α} {w w' : World σ F} {h : Halt ε} :
    (demand o : Run σ F ε α) w = .error h w' ↔ o = none ∧ h = .misuse ∧ w = w' := by
  cases o <;> simp [demand, misuse, eq_comm]

theorem require_eq_error {p : Prop} [Decidable p] {w w' : World σ F} {h : Halt ε} :
    (require p : Run σ F ε Unit) w = .error h w' ↔ ¬ p ∧ h = .misuse ∧ w = w' := by
  unfold require
  split <;> simp [*, eq_comm]

end Run

end Splitting
