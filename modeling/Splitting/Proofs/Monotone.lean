import Splitting.Scalar

/-!
# Monotone arithmetic

The laws of order that survive rounding. Values that are not negative have sums and products that
grow with them, and a value that is not a number is below no value, not even itself.
-/

namespace Splitting

class Scalar.Monotone (F : Type) [Scalar F] : Prop where
  zero_le_zero : (0 : F) ≤ 0
  left_of_le : ∀ {a b : F}, a ≤ b → a ≤ a
  right_of_le : ∀ {a b : F}, a ≤ b → b ≤ b
  le_trans : ∀ {a b c : F}, 0 ≤ a → a ≤ b → b ≤ c → a ≤ c
  right_of_add : ∀ {a b : F}, a + b ≤ a + b → b ≤ b
  right_of_mul : ∀ {a b : F}, a * b ≤ a * b → b ≤ b
  sqrt_nonneg : ∀ {a : F}, sqrt a ≤ sqrt a → 0 ≤ sqrt a
  mul_nonneg : ∀ {a b : F}, 0 ≤ a → 0 ≤ b → a * b ≤ a * b → 0 ≤ a * b
  add_le_add : ∀ {a b c d : F}, 0 ≤ a → a ≤ b → 0 ≤ c → c ≤ d → a + c ≤ b + d
  /-- An infinite factor in place of a finite one must not meet a zero. -/
  mul_le_mul : ∀ {a b c : F}, 0 ≤ a → a ≤ b → 0 ≤ c → a * c ≤ a * c →
    (isFinite b = true ∨ 0 < c) → a * c ≤ b * c

namespace Scalar

variable {F : Type} [Scalar F] [Monotone F]

open Scalar.Monotone

/-- A residual within a tolerance is within a looser one. A tolerance is the sum of an absolute part
and of a part relative to the first residual, which may be made infinite only if that residual is
not zero. -/
theorem le_looser {r first abs abs' rel rel' : F} (hr : r ≤ r → 0 ≤ r)
    (hfirst : first ≤ first → 0 ≤ first) (habs : 0 ≤ abs) (habs' : abs ≤ abs') (hrel : 0 ≤ rel)
    (hrel' : rel ≤ rel') (hlimit : rel' = rel ∨ isFinite rel' = true ∨ 0 < first)
    (h : r ≤ abs + rel * first) : r ≤ abs' + rel' * first := by
  have hprod : rel * first ≤ rel * first := right_of_add (right_of_le h)
  have hpos : 0 ≤ first := hfirst (right_of_mul hprod)
  have hmul : rel * first ≤ rel' * first := by
    rcases hlimit with rfl | hlimit
    · exact hprod
    · exact mul_le_mul hrel hrel' hpos hprod hlimit
  have hsum := add_le_add habs habs' (mul_nonneg hrel hpos hprod) hmul
  exact le_trans (hr (left_of_le h)) h hsum

end Scalar

end Splitting
