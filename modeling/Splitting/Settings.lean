import Splitting.Decimal.Reader
import Splitting.Decimal.Shortest
import Splitting.Run

/-!
# Settings

Parameters that are set by named texts, such as environment variables. A text that cannot be read
counts as not set; one that is read is reported.
-/

namespace Splitting.Settings

abbrev Env := String → Option String

variable {σ F ε : Type}

def countBelow (limit : Nat) (env : Env) (name : String) : Run σ F ε (Option Nat) := do
  let some n := (env name).bind (Decimal.readCount? limit) | return none
  Run.note (.setting name (toString n))
  return some n

def count (env : Env) (name : String) : Run σ F ε (Option Nat) := countBelow (Nat.pow 2 64) env name

/-- A flag, set by a number of eight bits that is not zero. -/
def flag (env : Env) (name : String) : Run σ F ε (Option Bool) := do
  return (← countBelow (Nat.pow 2 8) env name).map (· ≠ 0)

def float (env : Env) (name : String) : Run σ F ε (Option Float) := do
  let some x := (env name).bind Decimal.readFloat? | return none
  Run.note (.setting name (Decimal.positional.text x))
  return some x

def params (env : Env) (p : Params Float) : Run σ F ε (Params Float) := do
  let maxIter := (← count env "MAX_ITER").or p.maxIter
  let rho := (← float env "RHO").getD p.rho
  let epsAbs := (← float env "EPS_ABS").getD p.epsAbs
  let epsRel := (← float env "EPS_REL").getD p.epsRel
  let anderson := (← flag env "ANDERSON").getD p.anderson
  let memory := (← count env "M_ACCEL").getD p.memory
  let epsZero := (← float env "EPS_ZERO").getD p.epsZero
  let logPeriod := (← count env "LOG_PERIOD").getD p.logPeriod
  return { p with maxIter, rho, epsAbs, epsRel, anderson, memory, epsZero, logPeriod }

inductive BackendChoice where
  | sparse
  | dense
deriving DecidableEq

/-- The dense backend if it is asked for by name, otherwise the sparse one. -/
def backend (env : Env) : Run σ F ε BackendChoice := do
  if env "QP_BACKEND" = some "totsu" then
    Run.note (.setting "QP_BACKEND" "totsu")
    return .dense
  else return .sparse

end Splitting.Settings
