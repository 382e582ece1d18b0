/-!
# Errors

What can go wrong in a proximal operator and in a solve, and the text of each.
-/

namespace Splitting

inductive ProxError where
  | infeasible
  | unbounded
  | failure
deriving DecidableEq

def ProxError.message : ProxError → String
  | infeasible => "Infeasible: proximal subproblem is infeasible"
  | unbounded => "Unbounded: proximal subproblem is unbounded"
  | failure => "Failure: proximal subproblem failed"

inductive SolverError where
  | excessIter
  | infeasible (block : Nat)
  | unbounded (block : Nat)
  | proxFailure (block : Nat)
  | blockCount (proxes couplings : Nat)
  | colMismatch (block cols dim : Nat)
  | rowMismatch (block rows lenH : Nat)
  | initCount (blocks init : Nat)
  | initMismatch (block len dim : Nat)
  | invalidParam (rule : String)
deriving DecidableEq

namespace SolverError

/-- The failure of a proximal operator, with the block it belongs to. -/
def ofProx (block : Nat) : ProxError → SolverError
  | .infeasible => infeasible block
  | .unbounded => unbounded block
  | .failure => proxFailure block

/-- Whether the same problem may be solved after all with looser parameters. -/
def isRecoverable : SolverError → Bool
  | excessIter => true
  | _ => false

def message : SolverError → String
  | excessIter => "ExcessIter: exceed max iterations"
  | infeasible block => s!"Infeasible: proximal subproblem of block {block} is infeasible"
  | unbounded block => s!"Unbounded: proximal subproblem of block {block} is unbounded"
  | proxFailure block => s!"ProxFailure: proximal operator of block {block} failed"
  | blockCount proxes couplings =>
    s!"BlockCount: {couplings} coupling operators given for {proxes} proximal operators, " ++
      s!"expected {proxes} or none"
  | colMismatch block cols dim =>
    s!"ColMismatch: coupling operator of block {block} has {cols} columns, " ++
      s!"expected {dim} (block dimension)"
  | rowMismatch block rows lenH =>
    s!"RowMismatch: coupling operator of block {block} has {rows} rows, " ++
      s!"expected {lenH} (right-hand side length)"
  | initCount blocks init =>
    s!"InitCount: {init} initial point vectors given, expected {blocks} (blocks)"
  | initMismatch block len dim =>
    s!"InitMismatch: initial point of block {block} has length {len}, " ++
      s!"expected {dim} (block dimension)"
  | invalidParam rule => s!"InvalidParam: {rule}"

end SolverError

end Splitting
