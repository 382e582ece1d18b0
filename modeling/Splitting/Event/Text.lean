import Splitting.Decimal.Shortest
import Splitting.Event

/-!
# The wording of events

Each event as a line of a log. Residuals have two places; other values are written in full.
-/

namespace Splitting

def Level.text : Level → String
  | error => "ERROR"
  | warn => "WARN"
  | info => "INFO"
  | debug => "DEBUG"
  | trace => "TRACE"

namespace Event

def number (x : Float) : String := Decimal.detailed.text x

def residual (x : Float) : String := Decimal.scientific 2 x

def numbers (xs : Array Float) : String :=
  "[" ++ String.intercalate ", " (xs.toList.map number) ++ "]"

def limit : Option Nat → String
  | some n => s!"Some({n})"
  | none => "None"

def paramsText (p : Params Float) : String :=
  let fields := [
    ("max_iter", limit p.maxIter), ("rho", number p.rho), ("eps_abs", number p.epsAbs),
    ("eps_rel", number p.epsRel), ("anderson", toString p.anderson),
    ("m_accel", toString p.memory), ("lam_accel", number p.lambda),
    ("eps_zero", number p.epsZero), ("log_period", toString p.logPeriod)]
  let text := String.intercalate ", " (fields.map fun (k, v) => k ++ ": " ++ v)
  "SolverParam \x7b " ++ text ++ " \x7d"

def defectText : Defect → String
  | .param rule => s!"Invalid parameter: {rule.text}"
  | .blockCount proxes couplings lenH =>
    s!"Block count mismatch: proxes {proxes}, couplings {couplings}, h {lenH}"
  | .colMismatch block rows cols dim =>
    s!"Size mismatch: block {block} op({rows}, {cols}), dim {dim}"
  | .rowMismatch block rows cols lenH =>
    s!"Size mismatch: block {block} op({rows}, {cols}), h {lenH}"
  | .initCount proxes init => s!"Initial point count mismatch: proxes {proxes}, init {init}"
  | .initMismatch block len dim =>
    s!"Initial point size mismatch: block {block} len {len}, dim {dim}"
  | .alpha => "Invalid parameter: alpha must be non-negative"

def message : Event Float → String
  | refused d => defectText d
  | params p => paramsText p
  | initializing => "----- Initializing"
  | started => "----- Started"
  | noPeriod => "log_period == 0: no periodic log"
  | proxFailed iter block e => s!"{iter}: block {block} {e.message}"
  | nonFinite => "non-finite eigenvalue map"
  | residuals _ iter primal dual => s!"{iter}: pri_dual {residual primal} {residual dual}"
  | point iter x => s!"{iter}: x {numbers x}"
  | converged => "----- Converged"
  | excessIter => "----- ExcessIter"
  | stepRejected r => s!"anderson step rejected: residual {residual r}"
  | retrying alpha e => s!"alpha {Decimal.scientific 3 alpha}: {e.message}, retrying"
  | generatedCovariance side samples => s!"generated q {side} with {samples} samples"
  | generatedQp blocks s q p => s!"generated {blocks} blocks, s {s} q {q} p {p}"
  | setting name value => s!"{name}: {value}"

def line (e : Event Float) : String := e.level.text ++ " " ++ e.message

end Event

end Splitting
