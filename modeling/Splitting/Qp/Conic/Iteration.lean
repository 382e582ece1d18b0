import Splitting.Qp.Conic.Embedding

/-!
# First-order steps

Alternates between a step of the point, back into the cone, and a step of the multipliers, until the
point over its `tau` is a solution, or the point with `tau` zero shows that there is none.
-/

namespace Splitting.Qp.Conic

open Unboxed

/-- A conic form with its step lengths, the norms of `b` and `c`, and the accuracies asked for. -/
structure Task where
  form : Form
  pointSteps : Point
  imageSteps : Image
  normB : Float
  normC : Float
  tol : Float
  rayTol : Float

def norm (x : FloatArray) : Float := (dot x x).sqrt

def Task.make (form : Form) (tol rayTol : Float) : Task :=
  let (p, m) := form.steps
  ⟨form, p, m, norm form.b, norm form.c, tol, rayTol⟩

/-! ## A step -/

def descend (a t d : FloatArray) : FloatArray := zipWith (· - ·) a (mulEach t d)

def reflect (a b : FloatArray) : FloatArray := zipWith (fun e d => 2.0 * e - d) a b

/-- The multipliers follow the point reflected in its old place. -/
def Task.step (t : Task) (p : Point) (m : Image) : Point × Image :=
  let f := t.form
  let d := f.coembed m
  let next : Point :=
    { x := descend p.x t.pointSteps.x d.x
      y := f.project (descend p.y t.pointSteps.y d.y)
      s := f.project (descend p.s t.pointSteps.s d.s)
      tau := max 0.0 (p.tau - t.pointSteps.tau * d.tau) }
  let k := f.embed ⟨reflect next.x p.x, reflect next.y p.y, reflect next.s p.s,
    2.0 * next.tau - p.tau⟩
  (next,
    { u := descend m.u (neg t.imageSteps.u) k.u
      v := descend m.v (neg t.imageSteps.v) k.v
      w := min 0.0 (m.w + t.imageSteps.w * k.w) })

/-! ## When to stop -/

/-- The point over its `tau` is optimal up to the tolerance. -/
def Task.isSolved (t : Task) (p : Point) : Bool :=
  let f := t.form
  let scale := 1.0 / p.tau
  let primal := zipWith (· - ·) (map (scale * ·) (axpy 1.0 p.s (f.mulA p.x))) f.b
  let dual := axpy scale (f.mulAt p.y) f.c
  let gx := scale * dot f.c p.x
  let gy := scale * dot f.b p.y
  norm primal / (1.0 + t.normB) ≤ t.tol && norm dual / (1.0 + t.normC) ≤ t.tol &&
    (gx + gy).abs / (1.0 + gx.abs + gy.abs) ≤ t.tol

/-- The point is a ray along which the objective falls for ever. -/
def Task.isUnbounded (t : Task) (p : Point) : Bool :=
  let fall := -dot t.form.c p.x
  Form.epsZero < fall &&
    t.normC * norm (axpy 1.0 p.s (t.form.mulA p.x)) / fall ≤ t.rayTol

/-- The point is a combination of the constraints that nothing satisfies. -/
def Task.isInfeasible (t : Task) (p : Point) : Bool :=
  let lack := -dot t.form.b p.y
  Form.epsZero < lack && t.normB * norm (t.form.mulAt p.y) / lack ≤ t.rayTol

/-- The outcome that a point shows; of a solution without its last entry, the objective. -/
def Task.outcome? (t : Task) (p : Point) : Option Outcome :=
  if Form.epsZero < p.tau then
    if t.isSolved p then
      some (.solved (ofFn (t.form.vars - 1) fun i => 1.0 / p.tau * get p.x i))
    else none
  else if t.isUnbounded p then some .unbounded
  else if t.isInfeasible p then some .infeasible
  else none

/-- Takes one step and at most `fuel` more. -/
def Task.follow (t : Task) (fuel : Nat) (p : Point) (m : Image) : Outcome :=
  let (p, m) := t.step p m
  match t.outcome? p with
  | some o => o
  | none =>
    match fuel with
    | 0 => .failed
    | fuel + 1 => t.follow fuel p m

/-- Solves a conic form in at most `limit` steps, but never without one. -/
def solve (f : Form) (limit : Nat) (tol rayTol : Float) : Outcome :=
  let (p, m) := f.start
  (Task.make f tol rayTol).follow (limit - 1) p m

end Splitting.Qp.Conic
