import Splitting.Decimal.Binary
import Splitting.Matrix.Basic

/-!
# Square matrices and flat vectors

A square matrix and the vector of its columns hold the same data. The side is found from the length
through the square root of a double.
-/

namespace Splitting

inductive ShapeError where
  | notSquare (len : Nat)
  | lenMismatch (expected found : Nat)
deriving DecidableEq

def ShapeError.message : ShapeError → String
  | notSquare len => s!"NotSquare: length {len} is not q * q for any q"
  | lenMismatch expected found => s!"LenMismatch: length {found}, expected {expected}"

/-- Lengths are counted in 64 bits; to count further is a misuse. -/
def ShapeError.countLimit : Nat := Nat.pow 2 64

/-- The lengths that the error names can be counted. -/
def ShapeError.Counted : ShapeError → Prop
  | notSquare len => len < countLimit
  | lenMismatch expected found => expected < countLimit ∧ found < countLimit

instance : (e : ShapeError) → Decidable e.Counted
  | .notSquare len => inferInstanceAs (Decidable (len < _))
  | .lenMismatch _ _ => inferInstanceAs (Decidable (_ ∧ _))

/-- The nearest integer to the square root of `len`, both taken as doubles. -/
def sideEstimate (len : Nat) : Nat :=
  ((Decimal.nearestInt? len.toUInt64.toFloat.sqrt).getD 0).toNat

/-- The `q` with `q * q = len`. -/
def squareSide (len : Nat) : Except ShapeError Nat :=
  let q := sideEstimate len
  if q * q = len then .ok q else .error (.notSquare len)

namespace Matrix

variable {F : Type} [Scalar F]

/-- The square matrix whose columns, one after the other, are `v`. -/
def ofColvec (v : Array F) : Except ShapeError (Matrix F) := do
  let q ← squareSide v.size
  return ofStored (.general q q) v

/-- All columns one after the other, both triangles included. -/
def toColvec (m : Matrix F) : Except ShapeError (Array F) :=
  if m.rows = m.cols then
    .ok ((Shape.general m.rows m.cols).cells.map fun p => m.entry p.1 p.2).toArray
  else .error (.notSquare (m.rows * m.cols))

end Matrix

end Splitting
