import Splitting.Qp.InteriorPoint.Progress
import Splitting.Qp.Newton

/-!
# Steps

A step follows the Newton direction of the homogeneous form, towards the central path and along it.
-/

namespace Splitting.Qp.InteriorPoint

open Unboxed

/-- A Newton system with its solution for `-q` and `h`. Slacks over `root` and multipliers times it
are the same. -/
structure Frame where
  root : FloatArray
  newton : Newton
  ux : FloatArray
  uz : FloatArray

def frame? (d : Data) (v : Point) : Option Frame := do
  let root := zipWith (fun s z => (s / z).sqrt) v.s v.z
  let newton := Newton.make d (mulEach root root)
  let (ux, uz) ← newton.solve? (neg d.q) d.h
  return ⟨root, newton, ux, uz⟩

/-- The direction that takes away a share of the residuals. `loss` and `rk` over `tau` are what the
slacks and `kappa` are to lose for unchanged multipliers. -/
def direction? (d : Data) (v : Point) (r : Residuals) (f : Frame) (share : Float)
    (loss : FloatArray) (rk : Float) : Option Point := do
  let (x1, z1) ← f.newton.solve? (map (share * ·) r.dual)
    (ofFn d.cons fun i => get loss i - share * get r.primal i)
  let xi := map (1.0 / v.tau * ·) v.x
  let off := axpy (-1.0) f.ux xi
  let top := share * r.gap - rk / v.tau + dot d.q x1 + dot d.h z1 + 2.0 * d.form xi x1
  let bottom := v.kappa / v.tau - dot d.q f.ux - dot d.h f.uz +
    (d.form off off - d.form f.ux f.ux)
  let tau := top / bottom
  let z := axpy tau f.uz z1
  return {
    x := axpy tau f.ux x1
    z
    s := ofFn d.cons fun i => -(get f.root i * (get f.root i * get z i)) - get loss i
    tau
    kappa := -(rk + v.kappa * tau) / v.tau }

/-- The longest step up to `limit` that keeps every entry of `a + step da` positive. -/
def stepTo (a da : FloatArray) (limit : Float) : Float :=
  a.size.fold (fun i _ m =>
    let e := get da i
    if e < 0.0 then min m (-(get a i) / e) else m) limit

def stepLength (v dv : Point) : Float :=
  let a := stepTo v.s dv.s (stepTo v.z dv.z 1.0)
  let a := if dv.tau < 0.0 then min a (-v.tau / dv.tau) else a
  if dv.kappa < 0.0 then min a (-v.kappa / dv.kappa) else a

def move (a : Float) (v dv : Point) : Point :=
  ⟨axpy a dv.x v.x, axpy a dv.z v.z, axpy a dv.s v.s, v.tau + a * dv.tau, v.kappa + a * dv.kappa⟩

/-- No shorter step is worth taking. -/
def leastStep : Float := 1e-4

/-- A step that aims at the boundary shows how far to go; the corrected step is taken. The very
first correction is reduced. -/
def advance? (d : Data) (v : Point) (r : Residuals) (first : Bool) : Option Point := do
  let f ← frame? d v
  let pair := v.tau * v.kappa
  let mu := (r.sz + pair) / (d.cons.toFloat + 1.0)
  let aim ← direction? d v r f 1.0 v.s pair
  let a := stepLength v aim
  let rest := 1.0 - a
  let sigma := rest * rest * rest
  let part := if first then a else 1.0
  let loss := ofFn d.cons fun i =>
    let side := (get v.s i * get v.z i).sqrt
    let bend := get aim.s i / get f.root i * (get f.root i * (part * get aim.z i))
    (side * side + (bend - sigma * mu)) / get v.z i
  let rk := part * aim.tau * aim.kappa - sigma * mu + pair
  let dv ← direction? d v r f (1.0 - sigma) loss rk
  let a := 0.99 * stepLength v dv
  if a ≤ leastStep then none else some (move a v dv)

end Splitting.Qp.InteriorPoint
