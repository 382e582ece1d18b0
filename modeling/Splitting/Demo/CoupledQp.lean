import Splitting.CoupledQp
import Splitting.Decimal.Scientific
import Splitting.Demo.Report
import Splitting.Qp.Backend
import Splitting.Random.Xoshiro
import Splitting.Settings
import Splitting.Spectrum.Rotation

/-!
# The coupled program demo

Solves generated quadratic programs that are coupled by ten equations.
-/

namespace Splitting.Demo

open Decimal (scientific)

def coupledParams : Params Float :=
  { Params.standard with maxIter := some 10000, epsAbs := 1e-5, epsRel := 0.0 }

def backendOf : Settings.BackendChoice → Qp.Backend Unit Float
  | .sparse => Qp.sparseBackend Qp.sparseLimits
  | .dense => Qp.denseBackend Qp.denseLimits

def coupledQp (env : Settings.Env) : Script Unit := do
  let n := (← Settings.count env "NUM_BLOCKS").getD 4
  let (p, _) ← apart (Random.Xoshiro.ofSeed seed)
    (CoupledQp.generate Random.Xoshiro.source n 10 30 50)
  let par ← Settings.params env coupledParams
  let choice ← Settings.backend env
  let ((problem, states), _) ← apart () (Run.mapError .solver
    (p.equipped fun s => ((backendOf choice, ()), s)))
  let (s, _) ← apart states (Run.mapError .solver do
    Run.demand (← Solver.solve 0 par none problem))
  let objective ← Run.demand (p.objective? s.blocks)
  let violation ← Run.demand (p.violation? s.blocks)
  let inequality ← Run.demand (p.ineqViolation? s.blocks)
  let equality ← Run.demand (p.eqResidual? s.blocks)
  line s!"objective: {scientific 6 objective}"
  line (s!"violation: {scientific 3 violation} " ++
    s!"(inequality {scientific 3 inequality}, equality {scientific 3 equality})")
  line s!"{s.iterations} iterations"

end Splitting.Demo
