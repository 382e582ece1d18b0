import Splitting.Matrix.Square
import Splitting.Prox
import Splitting.Spectrum.Basic

/-!
# The log-determinant block

The proximal operator of `-log det S + tr (S Q)`, for `S` flattened column by column. With
`W = (V + Vᵀ)/2 - t Q` it maps each eigenvalue `e` of `W` to the positive root of
`s² - e s - t = 0`.
-/

namespace Splitting

structure LogDet (F : Type) where
  side : Nat
  /-- The upper triangle of `Q`. -/
  q : Matrix F
  epsZero : F

namespace LogDet

/-- A matrix, with room for the work on its eigenvalues. -/
structure Workspace (F : Type) extends Matrix F where
  work : Array F

/-- What an evaluation leaves behind: the matrix it last computed. -/
structure Scratch (F : Type) where
  image : Workspace F

variable {F : Type} [Scalar F]

@[specialize] def ofMatrix (q : Matrix F) (epsZero : F) : Except ShapeError (LogDet F) :=
  if q.rows = q.cols then .ok ⟨q.rows, Matrix.ofFn (.packed q.rows) q.entry, epsZero⟩
  else .error (.notSquare (q.rows * q.cols))

/-- The positive root of `s² - e s - t = 0`, in a form that cancels nothing. -/
@[inline] def root (t e : F) : F :=
  let d := Scalar.sqrt (e * e + (Scalar.two + Scalar.two) * t)
  if 0 ≤ e then (e + d) / Scalar.two else Scalar.two * t / (d - e)

/-- The upper triangle of `(V + Vᵀ)/2 - t Q`. -/
@[specialize] def shifted (f : LogDet F) (t : F) (v : Array F) (r c : Nat) : F :=
  (v.getD (c * f.side + r) 0 + v.getD (r * f.side + c) 0) / Scalar.two - t * f.q.entry r c

@[specialize] def flat (n : Nat) (m : Matrix F) : Array F :=
  ((Shape.general n n).cells.map fun p => m.entry p.1 p.2).toArray

variable [Spectral F]

def Workspace.zeros (s : Shape) : Workspace F := ⟨.zeros s, Spectral.room F s.rows⟩

def scratch (f : LogDet F) : Scratch F := ⟨.zeros (.packed f.side)⟩

@[specialize] def prox (f : LogDet F) : Prox (Scratch F) F where
  dim := f.side * f.side
  eval t v := fun w =>
    let ⟨image, work⟩ := w.state.image
    let (image, work) := Spectral.mapEigIn (image.refill (f.shifted t v)) f.epsZero (root t) work
    let w := w.withState ⟨image, work⟩
    let x := flat f.side image
    if x.all Scalar.isFinite then .ok x w
    else .error (.error .failure) (w.note .nonFinite)

end LogDet

end Splitting
