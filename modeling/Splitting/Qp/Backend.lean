import Splitting.Matrix.Columns
import Splitting.Qp.Conic.Iteration
import Splitting.Qp.InteriorPoint.Path
import Splitting.Qp.Program
import Splitting.Spectrum.Rotation

/-!
# Backends

Two ways to solve a program. One passes compressed columns to the interior-point method and refuses
what does not fit; the other passes full copies to the first-order method.
-/

namespace Splitting.Qp

/-! ## Handing over -/

/-- A program in compressed columns; of `P` only the upper triangle. -/
structure Sparse (F : Type) where
  p : CompressedColumns F
  q : Array F
  g : CompressedColumns F
  h : Array F
  /-- How many bounds are announced. -/
  bounds : Nat

def Program.sparse {F : Type} [Scalar F] (prog : Program F) : Sparse F where
  p := .ofMatrix prog.p true
  q := prog.q.entries
  g := .ofMatrix prog.g false
  h := prog.h.entries
  bounds := prog.h.rows

def Sparse.fits {F : Type} (s : Sparse F) : Bool :=
  let n := s.q.size
  let m := s.h.size
  s.p.rows == n && s.p.cols == n && s.g.rows == m && s.g.cols == n && s.bounds == m

/-- Full copies: the upper triangle of `P`, and the stored entries of the rest column by column.
There is none if `P` is too small for `q`. -/
def Program.dense? {F : Type} [Scalar F] (prog : Program F) : Option (Program F) :=
  let n := prog.q.rows
  let m := prog.h.rows
  if n ≤ prog.p.rows ∧ n ≤ prog.p.cols then
    some {
      p := .ofFn (.packed n) prog.p.entry
      q := .ofStored (.general n 1) prog.q.entries
      g := .ofStored (.general m n) prog.g.entries
      h := .ofStored (.general m 1) prog.h.entries }
  else none

/-! ## Solving -/

def full (m : CompressedColumns Float) : FloatArray :=
  m.cols.fold (fun c _ a =>
    (m.storedColumn c).foldl (fun a (r, e) => Unboxed.set a (r * m.cols + c) e) a)
    (Unboxed.zeros (m.rows * m.cols))

/-- The full symmetric matrix of a compressed upper triangle. -/
def fullSymmetric (m : CompressedColumns Float) : FloatArray :=
  m.cols.fold (fun c _ a =>
    (m.storedColumn c).foldl (fun a (r, e) =>
      Unboxed.set (Unboxed.set a (r * m.cols + c) e) (c * m.cols + r) e) a)
    (Unboxed.zeros (m.rows * m.cols))

/-- A bound larger than this, ten units of rounding below `1e20`, binds nothing. -/
def looseBound : Float := 1e20 * (1.0 - 2.220446049250313e-15)

/-- Without the constraints with loose bounds. -/
def Sparse.data (s : Sparse Float) : Data :=
  Data.keep ⟨s.q.size, s.h.size, fullSymmetric s.p, ⟨s.q⟩, full s.g, ⟨s.h⟩⟩
    fun r => !(looseBound < s.h.getD r 0)

def Program.data (prog : Program Float) : Data where
  vars := prog.q.rows
  cons := prog.h.rows
  p := Unboxed.ofEntries prog.q.rows prog.q.rows prog.p.entry
  q := ⟨prog.q.entries⟩
  g := Unboxed.ofEntries prog.h.rows prog.q.rows prog.g.entry
  h := ⟨prog.h.entries⟩

def answer {β : Type} : Outcome → EStateM (Halt ProxError) β (Array Float)
  | .solved x => pure x.data
  | .infeasible => throw (.error .infeasible)
  | .unbounded => throw (.error .unbounded)
  | .failed => throw (.error .failure)

structure Limits where
  steps : Nat
  tol : Float

/-- Passes compressed columns to the interior-point method. The solution has as many places as `q`
has entries. -/
def sparseBackend {β : Type} (l : Limits) : Backend β Float where
  solve prog room := do
    if room ≠ prog.q.rows then throw .misuse
    let s := prog.sparse
    if !s.fits then throw (.error .failure)
    let d := s.data
    if d.vars + d.cons = 0 then throw .misuse
    let x ← answer (InteriorPoint.solve d l.steps l.tol)
    if x.size = room then pure x else throw .misuse

/-- The conic form of a program; no negative eigenvalue of `P` counts. -/
def Program.conic (prog : Program Float) : Conic.Form :=
  let root := Spectral.mapEig prog.p Conic.Form.epsZero fun e =>
    if Conic.Form.epsZero < e then e.sqrt else 0.0
  .ofData prog.data (Unboxed.ofEntries prog.q.rows prog.q.rows root.entry)

/-- How accurate a proof has to be that there is no solution. -/
def rayTol : Float := 1e-6

/-- Passes full copies to the first-order method. -/
def denseBackend {β : Type} (l : Limits) : Backend β Float where
  solve prog room := do
    if room ≠ prog.q.rows then throw .misuse
    let some prog := prog.dense? | throw .misuse
    if prog.q.rows = 0 then throw .misuse
    answer (Conic.solve prog.conic l.steps l.tol rayTol)

def sparseLimits : Limits := ⟨200, 1e-9⟩

def denseLimits : Limits := ⟨100000, 1e-6⟩

end Splitting.Qp
