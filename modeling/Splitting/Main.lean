import Splitting.Demo.CoupledQp
import Splitting.Demo.Covariance
import Splitting.Event.Text

/-!
# The command line

Runs a demo by its name, with the settings from the environment. Lines go to the output, and
errors to the error output.
-/

namespace Splitting.CommandLine

def settingNames : List String :=
  ["SIZE_Q", "NUM_BLOCKS", "MAX_ITER", "RHO", "EPS_ABS", "EPS_REL", "ANDERSON", "M_ACCEL",
    "EPS_ZERO", "LOG_PERIOD", "QP_BACKEND"]

def environment : IO Settings.Env := do
  let pairs ← settingNames.mapM fun name => do return (name, ← IO.getEnv name)
  return fun name => (pairs.lookup name).join

def demo? : String → Option (Settings.Env → Demo.Script Unit)
  | "covariance" => some Demo.covariance
  | "coupled_qp" => some Demo.coupledQp
  | _ => none

def finish (w : World (Array String) Float) (problem : Option String) : IO UInt32 := do
  w.state.forM fun text => IO.println text
  w.events.forM fun e => IO.eprintln e.line
  match problem with
  | none => return 0
  | some text =>
    IO.eprintln s!"Error: {text}"
    return 1

end Splitting.CommandLine

open Splitting CommandLine

def main (args : List String) : IO UInt32 := do
  let some script := args.head?.bind demo? |
    IO.eprintln "usage: covariance | coupled_qp"
    return 2
  match script (← environment) (.start #[] (some .error)) with
  | .ok () w => finish w none
  | .error (.error e) w => finish w (some e.message)
  | .error .misuse w => finish w (some "a precondition does not hold")
