import Splitting.Problem
import Splitting.Solver.Anderson
import Splitting.Solver.Projection

/-!
# One iteration

An iteration evaluates every proximal operator at the current point `v`, reflects and projects,
and measures two residuals: how far the blocks miss the coupling, and how far they are from a
common dual point. If they are not small yet, the next point follows.
-/

namespace Splitting

/-- The answer of a converged solve. -/
structure Solution (F : Type) where
  blocks : List (Array F)
  primal : Array F
  dual : Array F
  iterations : Nat

namespace Solver

/-- Where a run stands before an iteration. -/
structure Progress (F : Type) where
  iter : Nat
  v : Array F
  scratch : Projection.Scratch F
  acceleration : Option (Anderson.State F)
  primal : Array F
  dual : Array F
  first : Option (F × F)

inductive Turn (F : Type) where
  | done (s : Solution F)
  | next (p : Progress F)

/-- What follows from the proximal points of an iteration. -/
structure Measure (F : Type) where
  /-- The next point without acceleration. -/
  image : Array F
  residual : Array F
  primal : F
  dual : F
  scratch : Projection.Scratch F

/-- The first half of an iteration: the proximal points, stacked, and what follows from them. -/
structure Sight (F : Type) where
  x : Array F
  measure : Measure F

variable {σ F : Type} [Scalar F]

/-- Evaluates the proximal operators of the blocks from `block` on, each at its part of `v`, which
begins at `start`. The first failure ends the run. -/
@[specialize] def proxPoints (rho : F) (iter : Nat) (v : Array F) :
    List (Prox σ F) → Nat → Nat → Array F → Run σ F SolverError (Array F)
  | [], _, _, x => fun w => .ok x w
  | p :: ps, block, start, x => fun w =>
    match p.apply rho (v.extract start (start + p.dim)) p.dim w with
    | .ok part w => proxPoints rho iter v ps (block + 1) (start + p.dim) (x ++ part) w
    | .error (.error e) w =>
      .error (.error (.ofProx block e)) (w.note (.proxFailed iter block e))
    | .error .misuse w => .error .misuse w

/-- Projects the reflection `2 x - v` and measures both residuals at `x`. -/
@[specialize] def measure? (p : Projection F) (rho : F) (scratch : Projection.Scratch F)
    (v x : Array F) : Option (Measure F) := do
  let reflected ← Vec.sub? (Vec.scale Scalar.two x) v
  let (projected, scratch) ← p.project? scratch reflected
  let residual ← Vec.sub? x projected
  let image ← Vec.sub? v residual
  let (primal, scratch) ← p.residual? scratch x
  let slope ← Vec.sub? v x
  let (dual, scratch) ← p.rangeResidual? scratch (Vec.scale (Scalar.recip rho) slope)
  return { image, residual, primal, dual, scratch }

/-- Both residuals are within the tolerances, given the residuals of the first iteration. -/
def converged (par : Params F) (first : F × F) (primal dual : F) : Bool :=
  primal ≤ par.epsAbs + par.epsRel * first.1 && dual ≤ par.epsAbs + par.epsRel * first.2

def isLast (par : Params F) (iter : Nat) : Bool := par.maxIter.any fun limit => limit ≤ iter + 1

/-- Whether progress is logged for debugging in this iteration anyway. -/
def isDue (par : Params F) (iter : Nat) : Bool := par.logPeriod ≠ 0 && iter % par.logPeriod == 0

def cut (x : Array F) : List Nat → Nat → List (Array F)
  | [], _ => []
  | n :: ns, start => x.extract start (start + n) :: cut x ns (start + n)

/-- The residuals of the first iteration, which may be this one. -/
def Progress.reference (p : Progress F) (m : Measure F) : F × F := p.first.getD (m.primal, m.dual)

/-- The answer of a run that stops with these proximal points. -/
def Progress.solution (p : Progress F) (dims : List Nat) (s : Sight F) : Solution F where
  blocks := cut s.x dims 0
  primal := p.primal.push s.measure.primal
  dual := p.dual.push s.measure.dual
  iterations := p.iter + 1

/-- The first half of an iteration: the blocks are evaluated, and both residuals measured. -/
@[specialize] def look (par : Params F) (proxes : List (Prox σ F)) (proj : Projection F)
    (p : Progress F) : Run σ F SolverError (Sight F) := do
  if par.logPeriod = 0 ∧ p.iter = 0 then
    fun w => .ok () (if w.watches .debug then w.note .noPeriod else w)
  let x ← proxPoints par.rho p.iter p.v proxes 0 0 #[]
  let measure ← Run.demand (measure? proj par.rho p.scratch p.v x)
  return ⟨x, measure⟩

variable [Spectral F]

/-- The next point, and the norm of the residual if it made the last point be rejected. -/
@[specialize] def nextPoint? (par : Params F) (m : Measure F) :
    Option (Anderson.State F) → Option (Array F × Option (Anderson.State F) × Option F)
  | none => some (m.image, none, none)
  | some s =>
    let norm := Vec.norm m.residual
    match Anderson.judge norm s with
    | (some safe, s) => some (safe, some s, some norm)
    | (none, s) => do
      let (v, s) ← Anderson.advance? par.memory par.lambda par.epsZero ⟨m.image, m.residual⟩ s
      return (v, some s, none)

/-- Makes way for the next iteration. A rejected point is reported. -/
@[specialize] def goOn (par : Params F) (p : Progress F) (m : Measure F) :
    Run σ F SolverError (Progress F) := do
  let ⟨iter, _, _, acceleration, primal, dual, first⟩ := p
  let (v, acceleration, rejected) ← Run.demand (nextPoint? par m acceleration)
  if let some norm := rejected then Run.note (.stepRejected norm)
  return ⟨iter + 1, v, m.scratch, acceleration, primal.push m.primal, dual.push m.dual,
    some (first.getD (m.primal, m.dual))⟩

@[specialize] def turn (par : Params F) (proxes : List (Prox σ F)) (proj : Projection F)
    (p : Progress F) : Run σ F SolverError (Turn F) := do
  let s ← look par proxes proj p
  let m := s.measure
  let last := isLast par p.iter
  let done := converged par (p.reference m) m.primal m.dual
  Run.note (.residuals (isDue par p.iter || last || done) p.iter m.primal m.dual)
  if done then
    Run.note (.point p.iter s.x)
    Run.note .converged
    return .done (p.solution (proxes.map Prox.dim) s)
  else if last then
    Run.note (.point p.iter s.x)
    Run.note .excessIter
    Run.fail .excessIter
  else
    let q ← goOn par p m
    return .next q

end Solver

end Splitting
