/-!
# Scalars

The arithmetic that the library computes in. Every algorithm is written once over `Scalar F`; it
runs at `Float` and is studied at other carriers.
-/

namespace Splitting

/-- The operations an algorithm may use, with no law attached. -/
class Scalar (F : Type) extends
    Zero F, One F, Add F, Sub F, Mul F, Div F, Neg F, LE F, LT F, BEq F, OfScientific F where
  decLe : ∀ a b : F, Decidable (a ≤ b)
  decLt : ∀ a b : F, Decidable (a < b)
  ofNat : Nat → F
  sqrt : F → F
  abs : F → F
  pow : F → F → F
  /-- The larger of two values; a value that is not a number gives way to the other. -/
  maxNum : F → F → F
  isFinite : F → Bool

attribute [reducible, instance] Scalar.decLe Scalar.decLt

namespace Scalar

variable {F : Type} [Scalar F]

@[inline] def two : F := 1 + 1

@[inline] def recip (x : F) : F := 1 / x

end Scalar

@[inline] def maxNumber (x y : Float) : Float :=
  if x < y || x.isNaN then y else x

instance : Scalar Float where
  zero := 0.0
  one := 1.0
  add := Float.add
  sub := Float.sub
  mul := Float.mul
  div := Float.div
  neg := Float.neg
  le a b := a ≤ b
  lt a b := a < b
  beq := Float.beq
  ofScientific := Float.ofScientific
  decLe a b := inferInstanceAs (Decidable (a ≤ b))
  decLt a b := inferInstanceAs (Decidable (a < b))
  ofNat := Float.ofNat
  sqrt := Float.sqrt
  abs := Float.abs
  pow := Float.pow
  maxNum := maxNumber
  isFinite := Float.isFinite

end Splitting
