import Splitting.Qp.Data
import Splitting.Qp.Scaling

/-!
# Points and their progress

An interior-point method for `min xᵀ P x / 2 + qᵀ x` subject to `G x ≤ h` works on the homogeneous
form: besides `x`, the slacks `s` and the multipliers `z` there is a scale `tau` and its partner
`kappa`. If the scale stays away from zero the point over the scale solves the program; otherwise
it shows that the program is infeasible or unbounded.
-/

namespace Splitting.Qp.InteriorPoint

open Unboxed

structure Point where
  x : FloatArray
  z : FloatArray
  s : FloatArray
  tau : Float
  kappa : Float

/-! ## Residuals -/

structure Residuals where
  px : FloatArray
  /-- `-Gᵀ z`; zero for a certificate that the program is infeasible. -/
  dualRay : FloatArray
  /-- `G x + s`; zero for a certificate that the program is unbounded. -/
  primalRay : FloatArray
  dual : FloatArray
  primal : FloatArray
  gap : Float
  qx : Float
  hz : Float
  sz : Float
  xpx : Float

def residuals (d : Data) (v : Point) : Residuals :=
  let px := d.mulP v.x
  let dualRay := neg (d.mulGt v.z)
  let primalRay := addMul d.cons d.vars d.g v.x v.s
  let qx := dot d.q v.x
  let hz := dot d.h v.z
  let xpx := dot v.x px
  { px, dualRay, primalRay, qx, hz, xpx
    dual := ofFn d.vars fun i => get dualRay i - (get px i + v.tau * get d.q i)
    primal := ofFn d.cons fun i => get primalRay i - v.tau * get d.h i
    gap := qx + hz + v.kappa + xpx / v.tau
    sz := dot v.s v.z }

/-! ## When to stop -/

/-- How far a point is from optimal in the program before its scaling. -/
structure Progress where
  primal : Float
  dual : Float
  gap : Float
  relativeGap : Float
  /-- `kappa / tau`. -/
  ratio : Float
  /-- A negative value may certify that the program is infeasible, up to the ray's error. -/
  hz : Float
  dualRay : Float
  /-- A negative value may certify that the program is unbounded, up to the ray's error. -/
  qx : Float
  primalRay : Float

/-- A program, its scaling, and the size of its linear parts before that. -/
structure Task where
  data : Data
  scaling : Scaling
  normQ : Float
  normH : Float

def norm (x : FloatArray) : Float := (dot x x).sqrt

def progress (t : Task) (v : Point) (r : Residuals) : Progress :=
  let f := t.scaling
  let cost := 1.0 / f.cost
  let scale := 1.0 / v.tau
  let nx := norm (mulEach v.x f.cols)
  let nz := norm (mulEach v.z f.rows) * cost
  let ns := norm (divEach v.s f.rows)
  let half := r.xpx * scale * scale * 0.5
  let upper := (r.qx * scale + half) / f.cost
  let lower := (-r.hz * scale - half) / f.cost
  let gap := (upper - lower).abs
  { primal := norm (divEach r.primal f.rows) * scale / max 1.0 (t.normH + (nx + ns) * scale)
    dual := norm (divEach r.dual f.cols) * scale * cost / max 1.0 (t.normQ + (nx + nz) * scale)
    gap
    relativeGap := gap / max 1.0 (min upper.abs lower.abs)
    ratio := v.kappa / v.tau
    hz := r.hz
    dualRay := norm (divEach r.dualRay f.cols) * cost / max 1.0 nz
    qx := r.qx
    primalRay := max (norm (divEach r.px f.cols) / max 1.0 nx)
      (norm (divEach r.primalRay f.rows) / max 1.0 (nx + ns)) }

structure Tolerances where
  gap : Float
  residual : Float
  /-- The least value of a certificate. -/
  certificate : Float
  /-- The error of a certificate relative to its value. -/
  ray : Float
  /-- A certificate counts if `kappa / tau` is larger than one over this. -/
  ratio : Float

def Tolerances.full (tol : Float) : Tolerances := ⟨tol, tol, 1e-8, 1e-8, 1e-9⟩

/-- What is good enough for a method that cannot go on. -/
def Tolerances.reduced : Tolerances := ⟨5e-5, 1e-4, 5e-12, 5e-5, 1e-7⟩

def outcome? (t : Task) (v : Point) (g : Progress) (tol : Tolerances) : Option Outcome :=
  if g.ratio < 1.0 && (g.gap < tol.gap || g.relativeGap < tol.gap) &&
      g.primal < tol.residual && g.dual < tol.residual then
    some (.solved (map (1.0 / v.tau * ·) (mulEach v.x t.scaling.cols)))
  else if 1.0 / tol.ratio < g.ratio then
    if g.hz < -tol.certificate && g.dualRay < -tol.ray * g.hz then some .infeasible
    else if g.qx < -tol.certificate && g.primalRay < -tol.ray * g.qx then some .unbounded
    else none
  else none

/-- The outcome of a method that stops at this point. -/
def finish (t : Task) (v : Point) (g : Progress) : Outcome :=
  (outcome? t v g .reduced).getD .failed

def Progress.withErrors (g before : Progress) : Progress :=
  { g with
    primal := before.primal, dual := before.dual
    gap := before.gap, relativeGap := before.relativeGap }

/-- The residuals grow although the gap is closed. -/
def Progress.isWorse (g before : Progress) (tol : Tolerances) : Bool :=
  (before.dual < g.dual || before.primal < g.primal) &&
    g.ratio < 2.220446049250313e-14 && (before.gap < tol.gap || before.relativeGap < tol.gap)

end Splitting.Qp.InteriorPoint
