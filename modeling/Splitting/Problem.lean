import Splitting.Operator
import Splitting.Prox

/-!
# Splitting problems

Minimise the sum of the blocks' functions subject to `G₁ z₁ + … + Gₙ zₙ = h`. A problem is accepted
if it has blocks and its shapes agree; the first shape that does not is reported.
-/

namespace Splitting

structure Problem (σ F : Type) where
  proxes : List (Prox σ F)
  /-- One operator for each block, or none at all together with an empty right-hand side. -/
  couplings : List (Operator F)
  rhs : Array F

namespace Problem

variable {σ F : Type}

/-- The first coupling, from block `l` on, that does not fit its block or the right-hand side. -/
def couplingDefect? (lenH : Nat) : Nat → List (Prox σ F) → List (Operator F) → Option Defect
  | l, p :: ps, g :: gs =>
    if g.cols ≠ p.dim then some (.colMismatch l g.rows g.cols p.dim)
    else if g.rows ≠ lenH then some (.rowMismatch l g.rows g.cols lenH)
    else couplingDefect? lenH (l + 1) ps gs
  | _, _, _ => none

/-- The first shape that does not fit, for a right-hand side of length `lenH`. -/
def shapeDefectOf? (proxes : List (Prox σ F)) (couplings : List (Operator F)) (lenH : Nat) :
    Option Defect :=
  let n := proxes.length
  let m := couplings.length
  if n = 0 ∨ m ≠ n ∧ ¬ (m = 0 ∧ lenH = 0) then some (.blockCount n m lenH)
  else couplingDefect? lenH 0 proxes couplings

def shapeDefect? (p : Problem σ F) : Option Defect :=
  shapeDefectOf? p.proxes p.couplings p.rhs.size

/-- The first starting vector, from block `l` on, whose length is not the dimension. -/
def lengthDefect? : Nat → List (Prox σ F) → List (Array F) → Option Defect
  | l, p :: ps, v :: vs =>
    if v.size ≠ p.dim then some (.initMismatch l v.size p.dim) else lengthDefect? (l + 1) ps vs
  | _, _, _ => none

def initDefect? (p : Problem σ F) (init : List (Array F)) : Option Defect :=
  if init.length ≠ p.proxes.length then some (.initCount p.proxes.length init.length)
  else lengthDefect? 0 p.proxes init

/-- The problem itself, if its shapes agree. -/
def checked {τ : Type} (p : Problem σ F) : Run τ F SolverError (Problem σ F) := do
  Run.check p.shapeDefect?
  return p

def dims (p : Problem σ F) : List Nat := p.proxes.map Prox.dim

/-- The same problem over another state. -/
def mapProxes {τ : Type} (p : Problem σ F) (f : Nat → Prox σ F → Prox τ F) : Problem τ F where
  proxes := p.proxes.mapIdx f
  couplings := p.couplings
  rhs := p.rhs

end Problem

end Splitting
