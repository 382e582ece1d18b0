import Splitting.Matrix.Basic

/-!
# Linear operators

What couples the blocks of a problem: a linear map with its transpose. Both are applied as
`alpha A x + beta y`, and both answer `none` for vectors they cannot take.
-/

namespace Splitting

structure Operator (F : Type) where
  rows : Nat
  cols : Nat
  /-- `alpha A x + beta y`, from `alpha`, `x`, `beta` and `y`. -/
  apply : F → Array F → F → Array F → Option (Array F)
  /-- `alpha Aᵀ x + beta y`. -/
  applyTransposed : F → Array F → F → Array F → Option (Array F)
  /-- Adds to each entry the sum of the magnitudes of its column. -/
  addAbsCols : Array F → Array F
  /-- Adds to each entry the sum of the magnitudes of its row. -/
  addAbsRows : Array F → Array F

namespace Operator

variable {F : Type} [Scalar F]

/-- The identity on `n` entries times `factor`, without a stored matrix. -/
@[specialize] def scaledIdentity (n : Nat) (factor : F) : Operator F :=
  let apply := fun (alpha : F) (x : Array F) (beta : F) (y : Array F) =>
    Vec.addScaled? (alpha * factor) x (Vec.scale beta y)
  { rows := n
    cols := n
    apply := apply
    applyTransposed := apply
    addAbsCols := Vec.shift (Scalar.abs factor)
    addAbsRows := Vec.shift (Scalar.abs factor) }

@[specialize] def ofMatrix (m : Matrix F) : Operator F where
  rows := m.rows
  cols := m.cols
  apply := m.mulAdd?
  applyTransposed := m.mulAddTransposed?
  addAbsCols y := y.mapIdx fun c e => e + Vec.sumBelow m.rows fun r => Scalar.abs (m.entry r c)
  addAbsRows y := y.mapIdx fun r e => e + Vec.sumBelow m.cols fun c => Scalar.abs (m.entry r c)

end Operator

end Splitting
