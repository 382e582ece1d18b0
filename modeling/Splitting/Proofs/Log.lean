import Splitting.Proofs.Relation

/-!
# Runs apart from the log

The log is for the reader. Runs of operators that do not look at it end alike, whatever it says.
-/

namespace Splitting

variable {σ F ε α β γ δ : Type}

/-- The worlds differ in their events at most. -/
def World.Agrees (w v : World σ F) : Prop := w.state = v.state ∧ w.watch = v.watch

instance : World.Unlogged (World.Agrees : World σ F → World σ F → Prop) where
  note_left h e := ⟨(World.state_note e _).trans h.1, (World.watch_note e _).trans h.2⟩
  note_right h e := ⟨h.1.trans (World.state_note e _).symm, h.2.trans (World.watch_note e _).symm⟩

namespace Run

def Ends (R : α → β → Prop) :
    EStateM.Result (Halt ε) (World σ F) α → EStateM.Result (Halt ε) (World σ F) β → Prop
  | .ok a w, .ok b v => R a b ∧ w.Agrees v
  | .error h w, .error h' v => h = h' ∧ w.Agrees v
  | .ok _ _, .error _ _ => False
  | .error _ _, .ok _ _ => False

/-- From worlds that differ in their events at most, both runs end in the same way. -/
def Related (R : α → β → Prop) (m : Run σ F ε α) (n : Run σ F ε β) : Prop :=
  ∀ w v, w.Agrees v → Ends R (m w) (n v)

theorem ends_iff {R : α → β → Prop} {r : EStateM.Result (Halt ε) (World σ F) α}
    {r' : EStateM.Result (Halt ε) (World σ F) β} : Ends R r r' ↔ EndsIn World.Agrees R r r' := by
  cases r <;> cases r' <;> exact Iff.rfl

theorem related_iff {R : α → β → Prop} {m : Run σ F ε α} {n : Run σ F ε β} :
    Related R m n ↔ Tied World.Agrees R m n :=
  forall₃_congr fun _ _ _ => ends_iff

end Run

def Prox.IgnoresLog (q : Prox σ F) : Prop :=
  ∀ t v, Run.Related Eq (q.eval t v) (q.eval t v)

theorem Prox.IgnoresLog.respects {q : Prox σ F} (h : q.IgnoresLog) : q.Respects World.Agrees :=
  fun t v => Run.related_iff.mp (h t v)

end Splitting
