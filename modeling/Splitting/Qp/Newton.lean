import Splitting.Qp.Cholesky
import Splitting.Qp.Data

/-!
# Newton systems

Solves `P u + Gᵀ w = a`, `G u - spread w = b`. The factor is of a slightly larger matrix, so that
there always is one; repeated corrections make up for that.
-/

namespace Splitting.Qp

open Unboxed

structure Newton where
  data : Data
  spread : FloatArray
  /-- One over the enlarged spread. -/
  weight : FloatArray
  /-- Every row of `G` times its weight. -/
  weighted : FloatArray
  /-- Of `P + Gᵀ weight G`, with `P` enlarged. -/
  factor : Cholesky

namespace Newton

/-- The lower triangle of `P + extra + weightedᵀ G`. -/
def normalMatrix (d : Data) (weighted : FloatArray) (extra : Float) : FloatArray :=
  ofEntries d.vars d.vars fun r c =>
    if r < c then 0.0
    else
      let p := get d.p (r * d.vars + c)
      d.cons.fold (fun i _ s => s + get weighted (i * d.vars + c) * get d.g (i * d.vars + r))
        (if r = c then p + extra else p)

/-- What is added to the diagonal; the rest is relative to the largest diagonal entry. -/
def enlargement : Float := 1e-8

def relativeEnlargement : Float := 4.930380657631324e-32

def make (data : Data) (spread : FloatArray) : Newton :=
  let top := data.vars.fold (fun i _ m => max m (get data.p (i * data.vars + i)).abs)
    (maxAbs spread)
  let extra := enlargement + relativeEnlargement * top
  let weight := map (fun e => 1.0 / (e + extra)) spread
  let weighted := ofEntries data.cons data.vars fun r c =>
    get data.g (r * data.vars + c) * get weight r
  ⟨data, spread, weight, weighted, .factor data.vars (normalMatrix data weighted extra)⟩

def rough (y : Newton) (a b : FloatArray) : FloatArray × FloatArray :=
  let d := y.data
  let u := y.factor.solve (addMulTransposed d.cons d.vars y.weighted b a)
  (u, axpy (-1.0) (mulEach y.weight b) (mul d.cons d.vars y.weighted u))

def missing (y : Newton) (a b u w : FloatArray) : FloatArray × FloatArray :=
  let d := y.data
  let u := neg u
  let w := neg w
  (addMulTransposed d.cons d.vars d.g w (addMul d.vars d.vars d.p u a),
    axpy (-1.0) (mulEach y.spread w) (addMul d.cons d.vars d.g u b))

def size (e : FloatArray × FloatArray) : Float :=
  let (a, b) := (maxAbs e.1, maxAbs e.2)
  if a.isNaN || b < a then a else b

/-- The corrections go on while each shrinks the error to less than a fifth. -/
def refine (y : Newton) (a b : FloatArray) (enough : Float) :
    Nat → FloatArray × FloatArray → FloatArray × FloatArray →
      Option (FloatArray × FloatArray)
  | 0, x, _ => some x
  | rounds + 1, x, e =>
    let error := size e
    if !error.isFinite then none
    else if error ≤ enough then some x
    else
      let dx := y.rough e.1 e.2
      let x' := (axpy 1.0 dx.1 x.1, axpy 1.0 dx.2 x.2)
      let e' := y.missing a b x'.1 x'.2
      let error' := size e'
      if !error'.isFinite then none
      else if error < 5.0 * error' then some (if error' < error then x' else x)
      else refine y a b enough rounds x' e'

def solve? (y : Newton) (a b : FloatArray) : Option (FloatArray × FloatArray) :=
  let x := y.rough a b
  refine y a b (1e-12 + 1e-13 * size (a, b)) 10 x (y.missing a b x.1 x.2)

end Newton

end Splitting.Qp
