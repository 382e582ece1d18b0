import Splitting.Qp.Conic.Form

/-!
# The embedding of a conic form

A solution of the conic form and of its dual, or a proof that there is none, is a nonzero point that
a skew linear map `K` sends to zero but for its last entry, which must not be negative. `K` is
`(Aᵀ y + c tau, b tau - A x - s, -cᵀ x - bᵀ y)`.
-/

namespace Splitting.Qp.Conic

open Unboxed

/-- What `K` takes. A solution is this over `tau`. -/
structure Point where
  x : FloatArray
  y : FloatArray
  s : FloatArray
  tau : Float

/-- What `K` gives, and the multipliers of its rows. -/
structure Image where
  u : FloatArray
  v : FloatArray
  w : Float

namespace Form

def start (f : Form) : Point × Image :=
  (⟨zeros f.vars, zeros f.rows, zeros f.rows, 1.0⟩, ⟨zeros f.vars, zeros f.rows, 0.0⟩)

def embed (f : Form) (p : Point) : Image where
  u := axpy p.tau f.c (f.mulAt p.y)
  v := axpy p.tau f.b (axpy (-1.0) p.s (neg (f.mulA p.x)))
  w := -dot f.c p.x - dot f.b p.y

def coembed (f : Form) (m : Image) : Point where
  x := axpy (-m.w) f.c (neg (f.mulAt m.v))
  y := axpy (-m.w) f.b (f.mulA m.u)
  s := neg m.v
  tau := dot f.c m.u + dot f.b m.v

/-! ## Step lengths -/

/-- Nothing smaller counts as positive. -/
def epsZero : Float := 1e-12

def inverse (e : Float) : Float := 1.0 / max e epsZero

/-- The same step length, the least, for all slacks of the curved cone. -/
def even (f : Form) (a : FloatArray) : FloatArray :=
  let least := f.curved.fold (fun i _ m => min m (get a i)) (get a 0)
  ofFn f.rows fun i => if i < f.curved then least else get a i

/-- Step lengths for both sides: one over the sums of the sizes in the columns and rows of `K`. -/
def steps (f : Form) : Point × Image :=
  let columns := ofFn f.vars fun k =>
    sum f.rows (fun r => (get f.a (r * f.vars + k)).abs) + (get f.c k).abs
  let rows := ofFn f.rows fun r =>
    sum f.vars (fun k => (get f.a (r * f.vars + k)).abs) + (get f.b r).abs
  let last := inverse (sum f.vars (fun k => (get f.c k).abs) + sum f.rows fun r => (get f.b r).abs)
  (⟨map inverse columns, f.even (map inverse rows), ones f.rows, last⟩,
    ⟨map inverse columns, map (fun e => inverse (e + 1.0)) rows, last⟩)

end Form

end Splitting.Qp.Conic
