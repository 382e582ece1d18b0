import Splitting.Qp.Data

/-!
# Conic form

Minimise `cᵀ x` subject to `A x + s = b`, where the slacks `s` lie in a cone. A quadratic program
takes this form with one more variable, an upper bound `e` of its objective: with `R R = P`,
the slacks `1`, `e - qᵀ x` and `R x` lie in the rotated cone `2 v w ≥ ‖u‖²`.
-/

namespace Splitting.Qp.Conic

open Unboxed

structure Form where
  vars : Nat
  rows : Nat
  /-- So many slacks from the first on lie in a rotated second-order cone; none of the others is
  negative. -/
  curved : Nat
  a : FloatArray
  b : FloatArray
  c : FloatArray

namespace Form

/-- The form of a program, given the square root of its `P`. -/
def ofData (d : Data) (root : FloatArray) : Form :=
  let n := d.vars
  let flat := n + 2
  { vars := n + 1
    rows := flat + d.cons
    curved := flat
    a := ofEntries (flat + d.cons) (n + 1) fun r k =>
      if r = 0 then 0.0
      else if r = 1 then if k < n then get d.q k else -1.0
      else if k = n then 0.0
      else if r < flat then -get root ((r - 2) * n + k)
      else get d.g ((r - flat) * n + k)
    b := ofFn (flat + d.cons) fun r =>
      if r = 0 then 1.0 else if r < flat then 0.0 else get d.h (r - flat)
    c := ofFn (n + 1) fun k => if k = n then 1.0 else 0.0 }

def mulA (f : Form) (x : FloatArray) : FloatArray := mul f.rows f.vars f.a x

def mulAt (f : Form) (y : FloatArray) : FloatArray := mulTransposed f.rows f.vars f.a y

/-! ## The cone -/

/-- Turns a rotated second-order cone into one around its first axis, and back. -/
def turn (s : FloatArray) : FloatArray :=
  let half := (0.5 : Float).sqrt
  set (set s 0 ((get s 0 + get s 1) * half)) 1 ((get s 0 - get s 1) * half)

/-- The nearest point of the cone. -/
def project (f : Form) (s : FloatArray) : FloatArray :=
  let s := turn s
  let axis := get s 0
  let away := (sum (f.curved - 1) fun i => get s (i + 1) * get s (i + 1)).sqrt
  let share := (1.0 + axis / away) / 2.0
  turn (ofFn f.rows fun i =>
    let e := get s i
    if f.curved ≤ i then if 0.0 < e then e else 0.0
    else if away ≤ -axis then 0.0
    else if away ≤ axis then e
    else if i = 0 then away * share else share * e)

end Form

end Splitting.Qp.Conic
