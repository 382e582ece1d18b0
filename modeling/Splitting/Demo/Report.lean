import Splitting.Run
import Splitting.Matrix.Square

/-!
# Demos

A demo writes lines until it is finished or an error ends it.
-/

namespace Splitting.Demo

inductive Error where
  | solver (e : SolverError)
  | shape (e : ShapeError)
deriving DecidableEq

def Error.message : Error → String
  | solver e => e.message
  | shape e => e.message

/-- A demo's state is the lines it has written. -/
abbrev Script (α : Type) := Run (Array String) Float Error α

def line (text : String) : Script Unit := modify fun w => w.withState (w.state.push text)

/-- Runs a part of a demo on a state of its own. -/
def apart {τ α : Type} (s : τ) (m : Run τ Float Error α) : Script (α × τ) := Run.locally s m

def ofShape {α : Type} : Except ShapeError α → Script α
  | .ok a => pure a
  | .error e => Run.fail (.shape e)

def seed : UInt64 := 10000

end Splitting.Demo
