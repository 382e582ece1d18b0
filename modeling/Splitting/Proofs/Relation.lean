import Splitting.Proofs.Course

/-!
# Runs side by side

Two runs are tied if from related worlds they end in the same way: with related values or with the
same halt, and in related worlds again. The log is left out of the relation of the worlds, so what
a run notes makes no difference.
-/

namespace Splitting

variable {σ F ε α β γ δ : Type}

theorem option_rel_refl {R : α → α → Prop} (h : ∀ a, R a a) (o : Option α) : Option.Rel R o o := by
  cases o with
  | some a => exact .some (h a)
  | none => exact .none

theorem option_rel_bind {R : α → β → Prop} {S : γ → δ → Prop} {o : Option α} {o' : Option β}
    {f : α → Option γ} {g : β → Option δ} (h : Option.Rel R o o')
    (hf : ∀ a b, R a b → Option.Rel S (f a) (g b)) : Option.Rel S (o >>= f) (o' >>= g) := by
  cases h with
  | some h => exact hf _ _ h
  | none => exact .none

theorem option_rel_mono {R S : α → β → Prop} (h : ∀ a b, R a b → S a b) {o : Option α}
    {o' : Option β} (ho : Option.Rel R o o') : Option.Rel S o o' := by
  cases ho with
  | some ho => exact .some (h _ _ ho)
  | none => exact .none

theorem eq_of_option_rel {o o' : Option α} (h : Option.Rel Eq o o') : o = o' := by
  cases h with
  | some h => exact congrArg some h
  | none => rfl

/-- The relation does not look at the log. -/
class World.Unlogged (W : World σ F → World σ F → Prop) : Prop where
  note_left : ∀ {w v}, W w v → ∀ e, W (w.note e) v
  note_right : ∀ {w v}, W w v → ∀ e, W w (v.note e)

theorem World.Unlogged.note {W : World σ F → World σ F → Prop} (hW : World.Unlogged W)
    {w v : World σ F} (h : W w v) (e e' : Event F) : W (w.note e) (v.note e') :=
  hW.note_right (hW.note_left h e) e'

def World.Linked (S : σ → σ → Prop) (w v : World σ F) : Prop := S w.state v.state

instance (S : σ → σ → Prop) : World.Unlogged (World.Linked S : World σ F → World σ F → Prop) where
  note_left h e := by rwa [World.Linked, World.state_note]
  note_right h e := by rwa [World.Linked, World.state_note]

namespace Run

/-- Both runs have ended in the same way, in related worlds. -/
def EndsIn (W : World σ F → World σ F → Prop) (R : α → β → Prop) :
    EStateM.Result (Halt ε) (World σ F) α → EStateM.Result (Halt ε) (World σ F) β → Prop
  | .ok a w, .ok b v => R a b ∧ W w v
  | .error h w, .error h' v => h = h' ∧ W w v
  | .ok _ _, .error _ _ => False
  | .error _ _, .ok _ _ => False

/-- From related worlds both runs end in the same way. -/
def Tied (W : World σ F → World σ F → Prop) (R : α → β → Prop) (m : Run σ F ε α)
    (n : Run σ F ε β) : Prop :=
  ∀ w v, W w v → EndsIn W R (m w) (n v)

/-- How a run has ended, apart from what it leaves. -/
def answer : EStateM.Result ε σ α → Except ε α
  | .ok a _ => .ok a
  | .error h _ => .error h

section Ends

variable {W : World σ F → World σ F → Prop} {R : α → β → Prop} {m : Run σ F ε α} {n : Run σ F ε β}

theorem EndsIn.cases {r : EStateM.Result (Halt ε) (World σ F) α}
    {r' : EStateM.Result (Halt ε) (World σ F) β} (h : EndsIn W R r r') :
    (∃ a b w v, r = .ok a w ∧ r' = .ok b v ∧ R a b ∧ W w v) ∨
      ∃ e w v, r = .error e w ∧ r' = .error e v ∧ W w v := by
  cases r with
  | ok a w =>
    cases r' with
    | ok b v => exact Or.inl ⟨a, b, w, v, rfl, rfl, h⟩
    | error e v => exact h.elim
  | error e w =>
    cases r' with
    | ok b v => exact h.elim
    | error e' v =>
      obtain ⟨rfl, hw⟩ := h
      exact Or.inr ⟨e, w, v, rfl, rfl, hw⟩

theorem EndsIn.mono {V : World σ F → World σ F → Prop} {S : α → β → Prop}
    {r : EStateM.Result (Halt ε) (World σ F) α} {r' : EStateM.Result (Halt ε) (World σ F) β}
    (h : EndsIn W R r r') (hR : ∀ a b, R a b → S a b) (hW : ∀ w v, W w v → V w v) :
    EndsIn V S r r' := by
  obtain ⟨a, b, w, v, rfl, rfl, hab, hw⟩ | ⟨e, w, v, rfl, rfl, hw⟩ := h.cases
  · exact ⟨hR a b hab, hW w v hw⟩
  · exact ⟨rfl, hW w v hw⟩

theorem EndsIn.answer_eq {r r' : EStateM.Result (Halt ε) (World σ F) α} (h : EndsIn W Eq r r') :
    answer r = answer r' := by
  obtain ⟨a, _, w, v, rfl, rfl, rfl, -⟩ | ⟨e, w, v, rfl, rfl, -⟩ := h.cases <;> rfl

theorem Tied.ok (hmn : Tied W R m n) {w w' v : World σ F} {a : α} (hm : m w = .ok a w')
    (hw : W w v) : ∃ b v', n v = .ok b v' ∧ R a b ∧ W w' v' := by
  have h := hmn w v hw
  rw [hm] at h
  obtain ⟨_, b, _, v', ⟨⟩, hn, hab, hw'⟩ | ⟨_, _, _, ⟨⟩, -, -⟩ := h.cases
  exact ⟨b, v', hn, hab, hw'⟩

theorem Tied.error (hmn : Tied W R m n) {w w' v : World σ F} {e : Halt ε}
    (hm : m w = .error e w') (hw : W w v) : ∃ v', n v = .error e v' ∧ W w' v' := by
  have h := hmn w v hw
  rw [hm] at h
  obtain ⟨_, _, _, _, ⟨⟩, -, -, -⟩ | ⟨_, _, v', ⟨⟩, hn, hw'⟩ := h.cases
  exact ⟨v', hn, hw'⟩

end Ends

/-! ## Steps -/

variable {W : World σ F → World σ F → Prop}

theorem tied_pure {R : α → β → Prop} {a : α} {b : β} (h : R a b) :
    Tied W R (pure a : Run σ F ε α) (pure b) := fun _ _ hw => ⟨h, hw⟩

theorem tied_fail (e : ε) {R : α → β → Prop} :
    Tied W R (fail e : Run σ F ε α) (fail e : Run σ F ε β) := fun _ _ hw => ⟨rfl, hw⟩

theorem tied_demand {R : α → β → Prop} {o : Option α} {o' : Option β} (h : Option.Rel R o o') :
    Tied W R (demand o : Run σ F ε α) (demand o') := by
  intro w v hw
  cases h with
  | some h => exact ⟨h, hw⟩
  | none => exact ⟨rfl, hw⟩

theorem tied_require {p q : Prop} [Decidable p] [Decidable q] (hpq : p ↔ q) :
    Tied W Eq (require p : Run σ F ε Unit) (require q) := by
  intro w v hw
  unfold require
  by_cases hp : p
  · rw [if_pos hp, if_pos (hpq.mp hp)]
    exact ⟨rfl, hw⟩
  · rw [if_neg hp, if_neg fun hq => hp (hpq.mpr hq)]
    exact ⟨rfl, hw⟩

theorem tied_bind {R : α → β → Prop} {S : γ → δ → Prop} {m : Run σ F ε α} {n : Run σ F ε β}
    {f : α → Run σ F ε γ} {g : β → Run σ F ε δ} (h : Tied W R m n)
    (hf : ∀ a b, R a b → (∃ w v, m w = .ok a v) → Tied W S (f a) (g b)) :
    Tied W S (m >>= f) (n >>= g) := by
  intro w v hw
  rw [bind_apply, bind_apply]
  obtain ⟨a, b, w', v', hm, hn, hab, hw'⟩ | ⟨e, w', v', hm, hn, hw'⟩ := (h w v hw).cases
  · rw [hm, hn]
    exact hf a b hab ⟨w, w', hm⟩ w' v' hw'
  · rw [hm, hn]
    exact ⟨rfl, hw'⟩

variable [hW : World.Unlogged W]

theorem tied_note (e e' : Event F) : Tied W Eq (note e : Run σ F ε Unit) (note e') :=
  fun _ _ hw => ⟨rfl, hW.note hw e e'⟩

theorem tied_check (d : Option Defect) :
    Tied W Eq (check d : Run σ F SolverError Unit) (check d) := by
  intro w v hw
  cases d with
  | none => exact ⟨rfl, hw⟩
  | some d => exact ⟨rfl, hW.note hw _ _⟩

theorem tied_note_bind {R : α → β → Prop} {m : Run σ F ε α} {n : Run σ F ε β} (e e' : Event F)
    (h : Tied W R m n) : Tied W R (note e >>= fun _ => m) (note e' >>= fun _ => n) :=
  tied_bind (tied_note e e') fun _ _ _ _ => h

end Run

/-! ## Operators -/

/-- Called in related worlds, the operator answers the same and leaves related worlds. -/
def Prox.Respects (q : Prox σ F) (W : World σ F → World σ F → Prop) : Prop :=
  ∀ t v, Run.Tied W Eq (q.eval t v) (q.eval t v)

variable {W : World σ F → World σ F → Prop}

theorem Prox.Respects.apply {q : Prox σ F} (hq : q.Respects W) (t : F) (v : Array F) (room : Nat) :
    Run.Tied W Eq (q.apply t v room) (q.apply t v room) := by
  unfold Prox.apply
  refine Run.tied_bind (Run.tied_require Iff.rfl) fun _ _ _ _ => ?_
  refine Run.tied_bind (hq t v) ?_
  rintro x _ rfl -
  exact Run.tied_bind (Run.tied_require Iff.rfl) fun _ _ _ _ => Run.tied_pure rfl

/-- On a slot of its own the operator respects a relation of the arrays that relates their slots
and that stays when related states are put into a slot. -/
theorem Prox.Respects.slot {τ : Type} {q : Prox τ F} {R : τ → τ → Prop}
    {S : Array τ → Array τ → Prop} (hq : q.Respects (World.Linked R)) {l : Nat}
    (hget : ∀ a b, S a b → Option.Rel R a[l]? b[l]?)
    (hset : ∀ a b s t, S a b → R s t → S (a.setIfInBounds l s) (b.setIfInBounds l t)) :
    (q.slot l).Respects (World.Linked S) := by
  intro t v w w' hw
  simp only [Prox.slot, within, Run.within]
  have hslot := hget _ _ hw
  generalize w.state[l]? = o at hslot
  generalize w'.state[l]? = o' at hslot
  cases hslot with
  | none => exact ⟨rfl, hw⟩
  | @some s s' hs =>
    obtain ⟨x, _, u, u', hu, hu', rfl, hR⟩ | ⟨e, u, u', hu, hu', hR⟩ :=
      (hq t v (w.withState s) (w'.withState s') hs).cases
    · dsimp only
      rw [hu, hu']
      exact ⟨rfl, hset _ _ _ _ hw hR⟩
    · dsimp only
      rw [hu, hu']
      exact ⟨rfl, hset _ _ _ _ hw hR⟩

namespace Solver

/-! ## One iteration -/

variable [hW : World.Unlogged W]

theorem proxPoints_tied {rho : F} {v : Array F} {ps : List (Prox σ F)}
    (hp : ∀ q ∈ ps, q.Respects W) (iter block start : Nat) (x : Array F) :
    Run.Tied W Eq (proxPoints rho iter v ps block start x)
      (proxPoints rho iter v ps block start x) := by
  induction ps generalizing block start x with
  | nil => exact Run.tied_pure rfl
  | cons p ps ih =>
    intro w u hw
    have happ := (hp p List.mem_cons_self).apply rho (v.extract start (start + p.dim)) p.dim w u hw
    unfold proxPoints
    obtain ⟨a, _, w', u', hm, hn, rfl, hw'⟩ | ⟨e, w', u', hm, hn, hw'⟩ := happ.cases
    · rw [hm, hn]
      exact ih (fun q hq => hp q (List.mem_cons_of_mem p hq)) _ _ _ w' u' hw'
    · rw [hm, hn]
      cases e with
      | error e => exact ⟨rfl, hW.note hw' _ _⟩
      | misuse => exact ⟨rfl, hw'⟩

theorem opened_cases (par : Params F) (iter : Nat) (w : World σ F) :
    opened par iter w = w ∨ opened par iter w = w.note .noPeriod := by
  unfold opened
  split
  · split
    · exact Or.inr rfl
    · exact Or.inl rfl
  · exact Or.inl rfl

theorem opened_tied {w v : World σ F} (h : W w v) (par par' : Params F) (iter iter' : Nat) :
    W (opened par iter w) (opened par' iter' v) := by
  have hleft : W (opened par iter w) v := by
    rcases opened_cases par iter w with e | e <;> rw [e]
    · exact h
    · exact hW.note_left h _
  rcases opened_cases par' iter' v with e | e <;> rw [e]
  · exact hleft
  · exact hW.note_right hleft _

variable [Scalar F]

theorem look_tied {par par' : Params F} (hrho : par.rho = par'.rho) {proxes : List (Prox σ F)}
    (hp : ∀ q ∈ proxes, q.Respects W) (proj : Projection F) {p p' : Progress F}
    (hi : p.iter = p'.iter) (hv : p.v = p'.v) (hs : p.scratch = p'.scratch) :
    Run.Tied W Eq (look par proxes proj p) (look par' proxes proj p') := by
  intro w v hw
  rw [look_apply, look_apply, ← hrho, ← hi, ← hv, ← hs]
  refine Run.tied_bind (proxPoints_tied hp _ _ _ _) ?_ _ _ (opened_tied hw par par' _ _)
  rintro x _ rfl -
  refine Run.tied_bind (Run.tied_demand (option_rel_refl (fun _ => rfl) _)) ?_
  rintro m _ rfl -
  exact Run.tied_pure rfl

/-- Both turns stop with related answers, or go on from related places. -/
inductive TurnsAlike (A : Solution F → Solution F → Prop) (R : Progress F → Progress F → Prop) :
    Turn F → Turn F → Prop
  | done {a b : Solution F} : A a b → TurnsAlike A R (.done a) (.done b)
  | next {p q : Progress F} : R p q → TurnsAlike A R (.next p) (.next q)

variable [Spectral F] {par par' : Params F} {proxes proxes' : List (Prox σ F)}
  {proj proj' : Projection F} {p p' : Progress F} {A : Solution F → Solution F → Prop}
  {R : Progress F → Progress F → Prop}

theorem goOn_tied {m m' : Measure F}
    (h : Option.Rel (fun a b => R (p.advanced m a.1 a.2.1) (p'.advanced m' b.1 b.2.1))
      (nextPoint? par m p.acceleration) (nextPoint? par' m' p'.acceleration)) :
    Run.Tied W R (goOn par p m) (goOn par' p' m') := by
  unfold goOn
  refine Run.tied_bind (Run.tied_demand h) ?_
  rintro ⟨v, a, rejected⟩ ⟨v', a', rejected'⟩ hR -
  intro w u hw
  cases rejected with
  | none =>
    cases rejected' with
    | none => exact ⟨hR, hw⟩
    | some _ => exact ⟨hR, hW.note_right hw _⟩
  | some _ =>
    cases rejected' with
    | none => exact ⟨hR, hW.note_left hw _⟩
    | some _ => exact ⟨hR, hW.note hw _ _⟩

theorem turn_tied {S : Sight F → Sight F → Prop}
    (hlook : Run.Tied W S (look par proxes proj p) (look par' proxes' proj' p'))
    (hlast : isLast par p.iter = isLast par' p'.iter)
    (hstop : ∀ s s', S s s' →
      converged par (p.reference s.measure) s.measure.primal s.measure.dual =
        converged par' (p'.reference s'.measure) s'.measure.primal s'.measure.dual)
    (hdone : ∀ s s', S s s' →
      A (p.solution (proxes.map Prox.dim) s) (p'.solution (proxes'.map Prox.dim) s'))
    (hgo : ∀ s s' w v, S s s' → look par proxes proj p w = .ok s v →
      Run.Tied W R (goOn par p s.measure : Run σ F SolverError (Progress F))
        (goOn par' p' s'.measure)) :
    Run.Tied W (TurnsAlike A R) (turn par proxes proj p) (turn par' proxes' proj' p') := by
  unfold turn
  refine Run.tied_bind hlook ?_
  rintro s s' hs ⟨w, v, hlook⟩
  dsimp only
  rw [← hstop s s' hs, ← hlast]
  refine Run.tied_note_bind _ _ ?_
  split
  · refine Run.tied_note_bind _ _ (Run.tied_note_bind _ _ ?_)
    exact Run.tied_pure (.done (hdone s s' hs))
  split
  · exact Run.tied_note_bind _ _ (Run.tied_note_bind _ _ (Run.tied_fail _))
  · exact Run.tied_bind (hgo s s' w v hs hlook) fun _ _ hR _ => Run.tied_pure (.next hR)

/-! ## Whole runs -/

omit hW in
theorem iterate_succ_ends {w v : World σ F} {fuel : Nat}
    (h : Run.EndsIn W (TurnsAlike A R) (turn par proxes proj p w) (turn par' proxes' proj' p' v))
    (hnext : ∀ q q' w' v', turn par proxes proj p w = .ok (.next q) w' → R q q' → W w' v' →
      Run.EndsIn W (Option.Rel A) (iterate par proxes proj fuel q w')
        (iterate par' proxes' proj' fuel q' v')) :
    Run.EndsIn W (Option.Rel A) (iterate par proxes proj (fuel + 1) p w)
      (iterate par' proxes' proj' (fuel + 1) p' v) := by
  rw [iterate_succ, iterate_succ]
  obtain ⟨t, t', w', v', ht, ht', htt, hw'⟩ | ⟨e, w', v', ht, ht', hw'⟩ := h.cases
  · rw [ht, ht']
    cases htt with
    | done ha => exact ⟨.some ha, hw'⟩
    | next hR => exact hnext _ _ _ _ ht hR hw'
  · rw [ht, ht']
    exact ⟨rfl, hw'⟩

omit hW in
theorem iterate_tied
    (hturn : ∀ q q', R q q' →
      Run.Tied W (TurnsAlike A R) (turn par proxes proj q) (turn par' proxes' proj' q'))
    (fuel : Nat) (h : R p p') :
    Run.Tied W (Option.Rel A) (iterate par proxes proj fuel p)
      (iterate par' proxes' proj' fuel p') := by
  induction fuel generalizing p p' with
  | zero => exact fun _ _ hw => ⟨.none, hw⟩
  | succ fuel ih =>
    intro w v hw
    exact iterate_succ_ends (hturn p p' h w v hw) fun q q' w' v' _ hq hw' => ih hq w' v' hw'

theorem prepare_tied {init init' : Option (List (Array F))} {p p' : Problem σ F}
    {S : Projection F → Projection F → Prop} (hdefect : defect? par init p = defect? par' init' p')
    (hproj : Option.Rel S (Projection.ofCouplings? p.couplings p.dims p.rhs par.epsZero)
      (Projection.ofCouplings? p'.couplings p'.dims p'.rhs par'.epsZero))
    (hroom : HasRoom par p.dims ↔ HasRoom par' p'.dims) :
    Run.Tied W S (prepare par init p) (prepare par' init' p') := by
  unfold prepare
  rw [← hdefect]
  refine Run.tied_bind (Run.tied_check _) fun _ _ _ _ => ?_
  refine Run.tied_note_bind _ _ (Run.tied_note_bind _ _ ?_)
  refine Run.tied_bind (Run.tied_demand hproj) fun proj proj' hS _ => ?_
  refine Run.tied_bind (Run.tied_require hroom) fun _ _ _ _ => ?_
  exact Run.tied_note_bind _ _ (Run.tied_pure hS)

theorem turn_respects (hp : ∀ q ∈ proxes, q.Respects W) (p : Progress F) :
    Run.Tied W (TurnsAlike Eq Eq) (turn par proxes proj p) (turn par proxes proj p) := by
  refine turn_tied (S := Eq) (look_tied rfl hp proj rfl rfl rfl) rfl ?_ ?_ ?_
  · rintro s _ rfl
    rfl
  · rintro s _ rfl
    rfl
  · rintro s _ w v rfl -
    refine goOn_tied (option_rel_refl ?_ _)
    exact fun _ => rfl

/-- A whole solve respects what the operators respect. -/
theorem solve_respects {p : Problem σ F} (hp : ∀ q ∈ p.proxes, q.Respects W) (budget : Nat)
    (par : Params F) (init : Option (List (Array F))) :
    Run.Tied W Eq (solve budget par init p) (solve budget par init p) := by
  unfold solve
  refine Run.tied_bind (prepare_tied rfl (option_rel_refl (fun _ => rfl) _) Iff.rfl) ?_
  rintro proj _ rfl -
  intro w v hw
  refine (iterate_tied (A := Eq) (R := Eq) ?_ _ rfl w v hw).mono (fun _ _ => eq_of_option_rel)
    fun _ _ => id
  rintro q _ rfl
  exact turn_respects hp q

end Solver

end Splitting
