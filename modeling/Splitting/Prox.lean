import Splitting.Run

/-!
# Proximal operators

A block of a problem enters a solve only through its proximal operator: the point `x` that
minimises `f x + |x - v|² / 2t`.
-/

namespace Splitting

/-- A proximal operator that may read and write a state. -/
structure Prox (σ F : Type) where
  dim : Nat
  /-- The proximal point, from the step size `t` and the point `v`. -/
  eval : F → Array F → Run σ F ProxError (Array F)

/-- An answered call of a proximal operator. -/
structure Prox.Call (F : Type) where
  block : Nat
  step : F
  point : Array F
  answer : Except ProxError (Array F)

namespace Prox

variable {σ τ F : Type}

/-- Evaluates at `v` into `room` places. Both lengths and that of the answer must be the
dimension. -/
@[inline] def apply (p : Prox σ F) (t : F) (v : Array F) (room : Nat) :
    Run σ F ProxError (Array F) := do
  Run.require (v.size = p.dim ∧ room = p.dim)
  let x ← p.eval t v
  Run.require (x.size = p.dim)
  return x

/-- The same operator on a part of a larger state. -/
def within (get : σ → Option τ) (put : τ → σ → σ) (p : Prox τ F) : Prox σ F where
  dim := p.dim
  eval t v := Run.within get put (p.eval t v)

/-- The same operator on slot `l` of an array of states. -/
def slot (l : Nat) (p : Prox τ F) : Prox (Array τ) F :=
  p.within (fun s => s[l]?) fun t s => s.setIfInBounds l t

/-- The same operator, adding each call to a list beside its state. A call whose answer has not as
many places as the operator has dimensions is a misuse; misuses are not listed. -/
def recorded (block : Nat) (p : Prox σ F) : Prox (σ × Array (Call F)) F where
  dim := p.dim
  eval t v := fun w =>
    let ⟨s, calls⟩ := w.state
    match p.apply t v p.dim (w.withState s) with
    | .ok x w => .ok x (w.withState (w.state, calls.push ⟨block, t, v, .ok x⟩))
    | .error (.error e) w =>
      .error (.error e) (w.withState (w.state, calls.push ⟨block, t, v, .error e⟩))
    | .error .misuse w => .error .misuse (w.withState (w.state, calls))

end Prox

end Splitting
