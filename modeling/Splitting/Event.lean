import Splitting.Error
import Splitting.Solver.Params

/-!
# Events

What a run reports while it goes on. An event is data; its wording is `Event.message`.
-/

namespace Splitting

inductive Level where
  | error
  | warn
  | info
  | debug
  | trace
deriving DecidableEq

/-- The number of levels that are more severe. -/
def Level.rank : Level → Nat
  | error => 0
  | warn => 1
  | info => 2
  | debug => 3
  | trace => 4

/-- Why a problem or its parameters are refused before the first iteration. -/
inductive Defect where
  | param (rule : ParamRule)
  | blockCount (proxes couplings lenH : Nat)
  | colMismatch (block rows cols dim : Nat)
  | rowMismatch (block rows cols lenH : Nat)
  | initCount (proxes init : Nat)
  | initMismatch (block len dim : Nat)
  | alpha
deriving DecidableEq

def Defect.error : Defect → SolverError
  | param rule => .invalidParam rule.text
  | blockCount proxes couplings _ => .blockCount proxes couplings
  | colMismatch block _ cols dim => .colMismatch block cols dim
  | rowMismatch block rows _ lenH => .rowMismatch block rows lenH
  | initCount proxes init => .initCount proxes init
  | initMismatch block len dim => .initMismatch block len dim
  | alpha => .invalidParam "alpha must be non-negative"

inductive Event (F : Type) where
  | refused (d : Defect)
  | params (p : Params F)
  | initializing
  | started
  /-- Progress is never logged, because the period is zero. -/
  | noPeriod
  | proxFailed (iter block : Nat) (e : ProxError)
  | nonFinite
  /-- The residuals of an iteration; `notable` ones are logged for debugging. -/
  | residuals (notable : Bool) (iter : Nat) (primal dual : F)
  | point (iter : Nat) (x : Array F)
  | converged
  | excessIter
  | stepRejected (residual : F)
  | retrying (alpha : F) (e : SolverError)
  | generatedCovariance (side samples : Nat)
  | generatedQp (blocks s q p : Nat)
  | setting (name value : String)

def Event.level {F : Type} : Event F → Level
  | refused _ | nonFinite => .error
  | noPeriod | proxFailed .. | excessIter | stepRejected _ | retrying .. => .warn
  | initializing | started | converged | setting .. => .info
  | params _ | generatedCovariance .. | generatedQp .. => .debug
  | residuals notable .. => if notable then .debug else .trace
  | point .. => .trace

end Splitting
