import Splitting.Prox
import Splitting.Scalar

/-!
# The weighted sum of magnitudes

The proximal operator of `alpha (|x₁| + … + |xₙ|)`: every entry moves towards zero by `t alpha`.
-/

namespace Splitting.AbsSum

variable {σ F : Type} [Scalar F]

/-- Moves `v` towards zero by `thr`, and no further than zero. The sign stays. -/
@[inline] def shrink (thr v : F) : F :=
  let a := Scalar.maxNum (Scalar.abs v - thr) 0
  if v < 0 then -a else a

@[specialize] def prox (n : Nat) (alpha : F) : Prox σ F where
  dim := n
  eval t v := fun w =>
    let thr := t * alpha
    .ok (v.map (shrink thr)) w

@[specialize] def prox? (n : Nat) (alpha : F) : Option (Prox σ F) :=
  if 0 ≤ alpha then some (prox n alpha) else none

end Splitting.AbsSum
