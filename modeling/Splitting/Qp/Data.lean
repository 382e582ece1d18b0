import Splitting.Qp.Unboxed

/-!
# Program data

A quadratic program as the methods that solve it take it: full matrices, row after row.
-/

namespace Splitting.Qp

open Unboxed

structure Data where
  vars : Nat
  cons : Nat
  p : FloatArray
  q : FloatArray
  g : FloatArray
  h : FloatArray

inductive Outcome where
  | solved (x : FloatArray)
  | infeasible
  | unbounded
  | failed

namespace Data

def mulP (d : Data) (x : FloatArray) : FloatArray := mul d.vars d.vars d.p x

/-- `xᵀ P y`, column after column of the upper triangle. -/
def form (d : Data) (x y : FloatArray) : Float :=
  d.vars.fold (fun c _ t =>
    let k := c * d.vars
    let a := sum c fun r => get d.p (k + r) * get y r
    let b := sum c fun r => get d.p (k + r) * get x r
    t + get d.p (k + c) * get y c * get x c + (a * get x c + b * get y c)) 0.0

def mulGt (d : Data) (z : FloatArray) : FloatArray := mulTransposed d.cons d.vars d.g z

def isFinite (d : Data) : Bool :=
  allFinite d.p && allFinite d.q && allFinite d.g && allFinite d.h

def isLinear (d : Data) : Bool := maxAbs d.p == 0.0

def keep (d : Data) (kept : Nat → Bool) : Data :=
  let rows := (List.range d.cons).filter kept
  let g := rows.foldl (fun a r => let k := r * d.vars
    d.vars.fold (fun c _ a => a.push (get d.g (k + c))) a) FloatArray.empty
  { d with cons := rows.length, g, h := rows.foldl (fun a r => a.push (get d.h r)) .empty }

end Data

end Splitting.Qp
