import Splitting.Scalar

/-!
# Solver parameters

The parameters of a solve, their defaults, and the rules they have to obey.
-/

namespace Splitting

structure Params (F : Type) where
  maxIter : Option Nat
  rho : F
  epsAbs : F
  /-- Tolerance relative to the residuals of the first iteration. -/
  epsRel : F
  anderson : Bool
  memory : Nat
  lambda : F
  /-- Eigenvalues at or below a multiple of this count as zero. -/
  epsZero : F
  /-- Every how many iterations progress is logged for debugging; zero for never. -/
  logPeriod : Nat

/-- The rules for parameters, in the order in which they are checked. -/
inductive ParamRule where
  | maxIter
  | rho
  | tolerances
  | memory
  | lambda
deriving DecidableEq

def ParamRule.text : ParamRule → String
  | maxIter => "max_iter must be positive"
  | rho => "rho must be positive"
  | tolerances => "eps_abs and eps_rel must be non-negative"
  | memory => "m_accel must be positive"
  | lambda => "lam_accel must be non-negative"

namespace Params

variable {F : Type} [Scalar F]

def standard : Params F where
  maxIter := some 1000
  rho := 1
  epsAbs := 1e-6
  epsRel := 1e-8
  anderson := false
  memory := 5
  lambda := 1e-8
  epsZero := 1e-12
  logPeriod := 100

@[specialize] def broken? (p : Params F) : Option ParamRule :=
  if p.maxIter = some 0 then some .maxIter
  else if ¬ 0 < p.rho then some .rho
  else if ¬ 0 ≤ p.epsAbs ∨ ¬ 0 ≤ p.epsRel then some .tolerances
  else if p.memory = 0 then some .memory
  else if ¬ 0 ≤ p.lambda then some .lambda
  else none

end Params

end Splitting
