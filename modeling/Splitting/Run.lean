import Splitting.Event

/-!
# Runs

A run works on the state of the operators it calls, reports events, and ends with a value or a
halt. State and events outlive a halt.
-/

namespace Splitting

/-- How a run ends without a value. -/
inductive Halt (ε : Type) where
  | error (e : ε)
  /-- The caller broke a precondition: a length, an index or a range. -/
  | misuse
deriving DecidableEq

def Halt.map {ε ε' : Type} (f : ε → ε') : Halt ε → Halt ε'
  | error e => error (f e)
  | misuse => misuse

/-- The state of the operators, and the events so far. -/
structure World (σ F : Type) where
  state : σ
  events : Array (Event F)
  /-- Events of this level or a more severe one are kept; without a level none is. -/
  watch : Option Level

abbrev Run (σ F ε : Type) := EStateM (Halt ε) (World σ F)

namespace World

variable {σ τ F : Type}

def start (state : σ) (watch : Option Level) : World σ F := ⟨state, #[], watch⟩

@[inline] def watches (w : World σ F) (l : Level) : Bool :=
  w.watch.any fun m => l.rank ≤ m.rank

@[inline] def note (e : Event F) (w : World σ F) : World σ F :=
  if w.watches e.level then
    match w with
    | ⟨state, events, watch⟩ => ⟨state, events.push e, watch⟩
  else w

@[inline] def withState (s : τ) (w : World σ F) : World τ F := ⟨s, w.events, w.watch⟩

end World

namespace Run

variable {σ τ F ε ε' α : Type}

@[inline] def note (e : Event F) : Run σ F ε Unit := fun w => .ok () (w.note e)

@[inline] def misuse : Run σ F ε α := fun w => .error .misuse w

@[inline] def fail (e : ε) : Run σ F ε α := fun w => .error (.error e) w

/-- The value, or a misuse if there is none. -/
@[inline] def demand : Option α → Run σ F ε α
  | some a => fun w => .ok a w
  | none => misuse

@[inline] def require (p : Prop) [Decidable p] : Run σ F ε Unit :=
  fun w => if p then .ok () w else .error .misuse w

/-- Refuses with the event and the error of a defect. -/
@[inline] def refuse (d : Defect) : Run σ F SolverError α := fun w =>
  .error (.error d.error) (w.note (.refused d))

/-- Refuses if there is a defect. -/
@[inline] def check : Option Defect → Run σ F SolverError Unit
  | some d => refuse d
  | none => fun w => .ok () w

@[inline] def mapError (f : ε → ε') (m : Run σ F ε α) : Run σ F ε' α := fun w =>
  match m w with
  | .ok a w => .ok a w
  | .error h w => .error (h.map f) w

/-- Runs on a part of the state; without that part it is a misuse. -/
@[inline] def within (get : σ → Option τ) (put : τ → σ → σ) (m : Run τ F ε α) : Run σ F ε α :=
  fun w =>
    match get w.state with
    | none => .error .misuse w
    | some t =>
      match m (w.withState t) with
      | .ok a v => .ok a (v.withState (put v.state w.state))
      | .error h v => .error h (v.withState (put v.state w.state))

/-- Runs on a state of its own, which is part of the answer. -/
@[inline] def locally (s : τ) (m : Run τ F ε α) : Run σ F ε (α × τ) := fun w =>
  match m (w.withState s) with
  | .ok a v => .ok (a, v.state) (v.withState w.state)
  | .error h v => .error h (v.withState w.state)

end Run

end Splitting
