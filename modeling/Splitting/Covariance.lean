import Splitting.Matrix.Pattern
import Splitting.Prox.AbsSum
import Splitting.Prox.LogDet
import Splitting.Random.Source
import Splitting.Solver.Basic

/-!
# Sparse inverse covariance

Estimates the inverse of a covariance matrix from a sample covariance `Q` as the minimiser of
`-log det S + tr (S Q) + alpha |S|₁`. The problem is split into a log-determinant block and a block
of magnitudes that have to agree.
-/

namespace Splitting

structure Covariance (F : Type) where
  /-- The sample covariance `Q`, packed. -/
  sample : Matrix F
  /-- The inverse covariance that the samples were drawn with. -/
  truth : Option (Matrix F)
  epsZero : F

namespace Covariance

variable {F γ ε : Type} [Scalar F]

/-- The instance of a square sample covariance, of which the upper triangle counts. -/
@[specialize] def ofMatrix (q : Matrix F) (epsZero : F) : Except ShapeError (Covariance F) :=
  if q.rows = q.cols then .ok ⟨Matrix.ofFn (.packed q.rows) q.entry, none, epsZero⟩
  else .error (.notSquare (q.rows * q.cols))

def side (p : Covariance F) : Nat := p.sample.rows

/-! ## Generated instances -/

/-- The off-diagonal entries of a sparse symmetric matrix, each nonzero with probability
`density`. -/
@[specialize] def drawOffDiagonal (src : Random.Source γ F) (n : Nat) (density : F) (g : γ) :
    Matrix F × γ :=
  let (entries, g) := Random.Source.fill (fun r c g =>
    if r < c then
      let (nonzero, g) := src.chance density g
      if nonzero then src.normal g else (0, g)
    else (0, g)) (Shape.packed n).cells #[] g
  (Matrix.ofStored (.packed n) entries, g)

/-- The sum of the magnitudes in row `i`, the diagonal left out. -/
@[inline] def offDiagonalSum (m : Matrix F) (i : Nat) : F :=
  m.cols.fold (fun j _ s => if j = i then s else s + Scalar.abs (m.entry i j)) 0

/-- The matrix with a diagonal that exceeds each row sum by a half. -/
@[specialize] def dominant (m : Matrix F) : Matrix F :=
  m.refill fun r c => if r = c then offDiagonalSum m r + 1 / Scalar.two else m.entry r c

/-- One over the square root of a positive eigenvalue. -/
@[inline] def recipSqrt (e : F) : F := if 0 < e then Scalar.recip (Scalar.sqrt e) else 0

@[specialize] def addSquare (m : Matrix F) (y : Array F) : Matrix F :=
  m.refill fun r c => m.entry r c + y.getD r 0 * y.getD c 0

/-- Adds `y yᵀ` for each of the samples `y = R z` with normal `z`. -/
@[specialize] def addSamples? (src : Random.Source γ F) (factor : Matrix F) :
    Nat → Array F → Matrix F → γ → Option (Matrix F × γ)
  | 0, _, total, g => some (total, g)
  | n + 1, y, total, g => do
    let (z, g) := Random.Source.many src.normal factor.rows g
    let y ← factor.mulAdd? 1 z 0 y
    addSamples? src factor n y (addSquare total y) g

/-- Draws a sparse inverse covariance, then the sample covariance of `samples` draws with it. The
density must be a probability and there must be a sample. -/
@[specialize] def generate [Spectral F] (src : Random.Source γ F) (n : Nat) (density : F)
    (samples : Nat) (epsZero : F) : Run γ F ε (Covariance F) := do
  Run.require (0 ≤ density ∧ density ≤ 1)
  Run.require (0 < samples)
  Run.require ((Shape.packed n).stored < Vec.sizeLimit)
  let (sparse, g) := drawOffDiagonal src n density (← get).state
  let truth := dominant sparse
  let factor := Spectral.mapEig truth epsZero recipSqrt
  let (total, g) ←
    Run.demand (addSamples? src factor samples (Vec.zeros n) (Matrix.zeros (.packed n)) g)
  modify (World.withState g)
  Run.note (.generatedCovariance n samples)
  return ⟨total.scale (Scalar.recip (Scalar.ofNat samples)), some truth, epsZero⟩

/-! ## The problem and its answer -/

/-- The largest magnitude off the diagonal of `Q`. From this weight on the estimate is diagonal. -/
@[specialize] def alphaMax (p : Covariance F) : F :=
  p.side.fold (fun c _ a =>
    c.fold (fun r _ a => Scalar.maxNum a (Scalar.abs (p.sample.entry r c))) a) 0

def logDet (p : Covariance F) : LogDet F :=
  ⟨p.side, Matrix.ofFn (.packed p.side) p.sample.entry, p.epsZero⟩

@[specialize] def parts [Spectral F] (p : Covariance F) (alpha : F) :
    Problem (LogDet.Scratch F) F :=
  let dim := p.side * p.side
  { proxes := [p.logDet.prox, AbsSum.prox dim alpha]
    couplings := [.scaledIdentity dim 1, .scaledIdentity dim (-1)]
    rhs := Vec.zeros dim }

/-- The problem for a weight, which must not be negative. -/
@[specialize] def problem [Spectral F] (p : Covariance F) (alpha : F) :
    Run γ F SolverError (Problem (LogDet.Scratch F) F) := do
  if ¬ 0 ≤ alpha then Run.refuse .alpha
  (p.parts alpha).checked

/-- The log-determinant block of an answer as a matrix, small entries taken for zero. -/
@[specialize] def estimate (p : Covariance F) (blocks : List (Array F)) :
    Except ShapeError (Matrix F) := do
  let x := blocks.headD #[]
  let dim := p.side * p.side
  if x.size ≠ dim then throw (.lenMismatch dim x.size)
  let m ← Matrix.ofColvec x
  return m.snapZeros Matrix.zeroTolerance

end Covariance

end Splitting
