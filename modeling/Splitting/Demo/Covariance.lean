import Splitting.Covariance
import Splitting.Decimal.Scientific
import Splitting.Demo.Report
import Splitting.Random.Xoshiro
import Splitting.Settings
import Splitting.Spectrum.Rotation

/-!
# The covariance demo

Estimates a generated covariance for three weights. Each solve starts from the answer for the
weight before; one that runs out of iterations is tried once more with a looser tolerance.
-/

namespace Splitting.Demo

open Decimal (scientific)

def covarianceEpsZero : Float := 1e-12

def covarianceParams : Params Float :=
  { Params.standard with maxIter := some 20000, epsZero := covarianceEpsZero }

def relaxed (p : Params Float) : Params Float := { p with epsAbs := p.epsAbs * 10.0 }

/-- Solves a problem, and once more with a looser tolerance if the first try is recoverable. -/
def solveTwice {σ : Type} (par : Params Float) (alpha : Float) (init : Option (List (Array Float)))
    (p : Problem σ Float) : Run σ Float SolverError (Option (Solution Float)) := fun w =>
  match Solver.solve 0 par init p w with
  | .error (.error e) w =>
    if e.isRecoverable then Solver.solve 0 (relaxed par) init p (w.note (.retrying alpha e))
    else .error (.error e) w
  | r => r

/-- Solves an instance for a weight, with the parameters that are set. -/
def solveAlpha (env : Settings.Env) (p : Covariance Float) (alpha : Float)
    (init : Option (List (Array Float))) :
    Run (LogDet.Scratch Float) Float SolverError (Solution Float) := do
  let par ← Settings.params env covarianceParams
  let problem ← p.problem alpha
  Run.demand (← solveTwice par alpha init problem)

def ratios : List Float := [1.0, 0.1, 0.01]

/-- One weight after the other, each from the answer for the one before. -/
def alphaPath (env : Settings.Env) (p : Covariance Float) (top : Float) :
    List Float → Option (List (Array Float)) → Script Unit
  | [], _ => return
  | ratio :: rest, init => do
    let alpha := ratio * top
    let (s, _) ← apart p.logDet.scratch (Run.mapError .solver (solveAlpha env p alpha init))
    let m ← ofShape (p.estimate s.blocks)
    line s!"alpha {scientific 4 alpha}: {m.countNonzeros} nonzeros, {s.iterations} iterations"
    alphaPath env p top rest (some s.blocks)

def covariance (env : Settings.Env) : Script Unit := do
  let n := (← Settings.count env "SIZE_Q").getD 20
  let (p, _) ← apart (Random.Xoshiro.ofSeed seed)
    (Covariance.generate Random.Xoshiro.source n 0.1 (10 * n) covarianceEpsZero)
  let top := p.alphaMax
  line s!"alpha_max: {scientific 4 top}"
  alphaPath env p top ratios none

end Splitting.Demo
