import Splitting.Solver.Iteration

/-!
# Solving

The Douglas–Rachford method: iterations until both residuals are small or the limit is reached.
-/

namespace Splitting.Solver

variable {σ F : Type} [Scalar F] [Spectral F]

/-- Iterates at most `fuel` times; `none` if the run would go on. -/
@[specialize] def iterate (par : Params F) (proxes : List (Prox σ F)) (proj : Projection F) :
    Nat → Progress F → Run σ F SolverError (Option (Solution F))
  | 0, _ => fun w => .ok none w
  | fuel + 1, p => fun w =>
    match turn par proxes proj p w with
    | .ok (.done s) w => .ok (some s) w
    | .ok (.next p) w => iterate par proxes proj fuel p w
    | .error h w => .error h w

/-- The stacked starting point: the given vectors, or zeros. -/
def startPoint (dims : List Nat) : Option (List (Array F)) → Array F
  | some vs => vs.foldl (· ++ ·) #[]
  | none => Vec.zeros (total dims)

/-- The machine has room for the memory of the acceleration and for the vectors of a run. -/
def HasRoom (par : Params F) (dims : List Nat) : Prop :=
  (par.anderson → par.memory < Anderson.memoryLimit) ∧ total dims < Vec.sizeLimit

instance (par : Params F) (dims : List Nat) : Decidable (HasRoom par dims) :=
  inferInstanceAs (Decidable (_ ∧ _))

@[specialize] def begin (par : Params F) (dims : List Nat) (proj : Projection F)
    (init : Option (List (Array F))) : Progress F where
  iter := 0
  v := startPoint dims init
  scratch := proj.fresh
  acceleration := if par.anderson then some .initial else none
  primal := #[]
  dual := #[]
  first := none

/-- The first defect of the parameters, then of the shapes, then of the starting point. -/
def defect? (par : Params F) (init : Option (List (Array F))) (p : Problem σ F) : Option Defect :=
  match par.broken? with
  | some rule => some (.param rule)
  | none =>
    match p.shapeDefect? with
    | some d => some d
    | none => init.bind p.initDefect?

/-- What comes before the first iteration: the checks, and the projection. -/
@[specialize] def prepare (par : Params F) (init : Option (List (Array F))) (p : Problem σ F) :
    Run σ F SolverError (Projection F) := do
  Run.check (defect? par init p)
  Run.note (.params par)
  Run.note .initializing
  let proj ← Run.demand (Projection.ofCouplings? p.couplings p.dims p.rhs par.epsZero)
  Run.require (HasRoom par p.dims)
  Run.note .started
  return proj

/-- Solves a problem from `init`, or from zeros. A run whose parameters set no limit stops without
an answer after `budget` iterations; with a limit the budget plays no part. -/
@[specialize] def solve (budget : Nat) (par : Params F) (init : Option (List (Array F)))
    (p : Problem σ F) : Run σ F SolverError (Option (Solution F)) := do
  let proj ← prepare par init p
  iterate par p.proxes proj (par.maxIter.getD budget) (begin par p.dims proj init)

end Splitting.Solver
