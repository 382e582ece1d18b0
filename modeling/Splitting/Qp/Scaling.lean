import Splitting.Qp.Data

/-!
# Scaling

Multiplies the variables, the constraints and the objective of a program by positive factors that
bring the rows and columns of its optimality system to about the same size.
-/

namespace Splitting.Qp

open Unboxed

structure Scaling where
  cols : FloatArray
  rows : FloatArray
  cost : Float

namespace Scaling

def identity (d : Data) : Scaling := ⟨ones d.vars, ones d.cons, 1.0⟩

def comp (f g : Scaling) : Scaling :=
  ⟨mulEach f.cols g.cols, mulEach f.rows g.rows, f.cost * g.cost⟩

/-- The program in the variables `x / cols`. -/
def apply (f : Scaling) (d : Data) : Data where
  vars := d.vars
  cons := d.cons
  p := ofEntries d.vars d.vars fun r c =>
    f.cost * (get d.p (r * d.vars + c) * (get f.cols r * get f.cols c))
  q := ofFn d.vars fun j => f.cost * (get d.q j * get f.cols j)
  g := ofEntries d.cons d.vars fun r c =>
    get d.g (r * d.vars + c) * (get f.rows r * get f.cols c)
  h := ofFn d.cons fun i => get d.h i * get f.rows i

/-- No factor gets smaller than this or larger than its inverse. -/
def least : Float := 1e-4

def most : Float := 1e4

@[inline] def clip (lo hi x : Float) : Float := if x < lo then lo else if hi < x then hi else x

/-- The factor for a line with largest entry `size`, scaled by `total` already. -/
def factor (size total : Float) : Float :=
  clip (least / total) (most / total) (1.0 / (if size == 0.0 then 1.0 else size).sqrt)

/-- The largest entry of column `j` in the first `n` rows of a matrix with `cols` columns. -/
@[inline] def columnSize (cols n : Nat) (a : FloatArray) (j : Nat) (m : Float) : Float :=
  n.fold (fun i _ m => max m (get a (i * cols + j)).abs) m

@[inline] def rowSize (cols : Nat) (a : FloatArray) (i : Nat) : Float :=
  let k := i * cols
  cols.fold (fun j _ m => max m (get a (k + j)).abs) 0.0

/-- A step towards rows and columns whose largest entry is one. -/
def lines (d : Data) (total : Scaling) : Scaling where
  cols := ofFn d.vars fun j => factor
    (columnSize d.vars d.cons d.g j (columnSize d.vars d.vars d.p j 0.0)) (get total.cols j)
  rows := ofFn d.cons fun i => factor (rowSize d.vars d.g i) (get total.rows i)
  cost := 1.0

def objective (d : Data) (total : Scaling) : Scaling :=
  let mean := sum d.vars (fun j => columnSize d.vars (j + 1) d.p j 0.0) / d.vars.toFloat
  let size := maxAbs d.q
  let cost := if mean == 0.0 || size == 0.0 then 1.0
    else clip (least / total.cost) (most / total.cost) (1.0 / max size mean)
  { identity d with cost }

/-- One round: the lines, then the objective. -/
def round : Data × Scaling → Data × Scaling
  | (d, total) =>
    let f := lines d total
    let d := f.apply d
    let total := total.comp f
    let f := objective d total
    (f.apply d, total.comp f)

/-- The scaled program and how it was scaled. -/
def balance (d : Data) : Data × Scaling := (10 : Nat).repeat round (d, identity d)

end Scaling

end Splitting.Qp
