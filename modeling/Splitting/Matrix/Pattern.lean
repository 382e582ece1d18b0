import Splitting.Matrix.Basic

/-!
# Zero patterns

Which entries of a matrix are zero, and what is small enough to be taken for zero.
-/

namespace Splitting.Matrix

variable {F : Type} [Scalar F]

/-- Entries of this magnitude or below count as zero in an estimate. -/
def zeroTolerance : F := 1e-4

/-- Replaces every entry of magnitude at most `tol` by zero. -/
@[specialize] def snapZeros (tol : F) (m : Matrix F) : Matrix F :=
  m.mapEntries fun e => if Scalar.abs e ≤ tol then 0 else e

/-- Every cell of the whole matrix, column by column. -/
def allCells (m : Matrix F) : List (Nat × Nat) := (Shape.general m.rows m.cols).cells

def nonzeroAt (m : Matrix F) (p : Nat × Nat) : Bool := m.entry p.1 p.2 != 0

def countNonzeros (m : Matrix F) : Nat := m.allCells.countP m.nonzeroAt

/-- Square, and equal to its transpose up to `tol` in every entry. -/
def isSymmetric (tol : F) (m : Matrix F) : Bool :=
  m.isSquare && (m.shape.isPacked ||
    (List.range m.cols).all fun c => (List.range c).all fun r =>
      !decide (tol < Scalar.abs (m.entry r c - m.entry c r)))

/-- A unit square of a drawing, by its lower and its upper corner. -/
structure Cell where
  left : Nat
  bottom : Nat
  right : Nat
  top : Nat
deriving DecidableEq

/-- The drawn square of an entry; row zero is the top row. -/
def Cell.ofEntry (rows : Nat) (p : Nat × Nat) : Cell :=
  ⟨p.2, rows - p.1 - 1, p.2 + 1, rows - p.1⟩

/-- One square for each nonzero entry, column by column. -/
def nonzeroCells (m : Matrix F) : List Cell :=
  (m.allCells.filter m.nonzeroAt).map (Cell.ofEntry m.rows)

end Splitting.Matrix
