import Splitting.Proofs.Safety

/-!
# The acceleration along a run

Before an iteration the acceleration is cleared, or primed with one sample, or the current point is
in doubt. Each of these allows its own steps only, and each step leads to one of them.
-/

namespace Splitting.Solver

open Anderson (Sample State)

variable {σ F : Type}

/-! ## States -/

def Measure.sample (m : Measure F) : Sample F := ⟨m.image, m.residual⟩

structure Cleared (s : State F) : Prop where
  last : s.last = none
  memory : s.memory = []
  pending : s.pending = none

/-- One sample is remembered, and the current point is its image. -/
structure Primed (a : Sample F) (s : State F) : Prop where
  last : s.last = some a
  memory : s.memory = []
  pending : s.pending = none

/-- The current point is accelerated, and may have to give way to the image of the last sample. -/
structure InDoubt (a : Sample F) (s : State F) : Prop where
  last : s.last = some a
  pending : s.pending = some a.image

theorem initial_cleared : Cleared (State.initial : State F) := ⟨rfl, rfl, rfl⟩

theorem remember_ne_nil (size : Nat) (d : Sample F) (memory : List (Sample F)) :
    Anderson.remember size d memory ≠ [] := by simp [Anderson.remember]

variable [Scalar F]

/-- The residual is small enough for the current point to be kept. -/
def Acceptable (s : State F) (m : Measure F) : Prop :=
  Vec.norm m.residual ≤ Anderson.bound (s.firstNorm.getD (Vec.norm m.residual)) s.accepted

/-! ## Judging -/

theorem judge_of_pending_none {s : State F} (h : s.pending = none) (norm : F) :
    ∃ t, Anderson.judge norm s = (none, t) ∧ t.last = s.last ∧ t.memory = s.memory ∧
      t.pending = none := by
  unfold Anderson.judge
  rw [h]
  exact ⟨_, rfl, rfl, rfl, rfl⟩

theorem judge_of_acceptable {s : State F} {m : Measure F} {z : Array F} (h : s.pending = some z)
    (ha : Acceptable s m) :
    ∃ t, Anderson.judge (Vec.norm m.residual) s = (none, t) ∧ t.last = s.last ∧
      t.memory = s.memory ∧ t.pending = none := by
  unfold Acceptable at ha
  simp only [Anderson.judge, h, ha, if_true]
  exact ⟨_, rfl, rfl, rfl, rfl⟩

theorem judge_of_not_acceptable {s : State F} {m : Measure F} {z : Array F}
    (h : s.pending = some z) (ha : ¬ Acceptable s m) :
    ∃ t, Anderson.judge (Vec.norm m.residual) s = (some z, t) ∧ Cleared t := by
  unfold Acceptable at ha
  simp only [Anderson.judge, h, ha, if_false]
  exact ⟨_, rfl, rfl, rfl, rfl⟩

variable [Spectral F]

/-! ## Steps -/

/-- The accelerated point: the image, combined with the differences of the new memory, which is the
old one with the difference from sample `b` added. -/
def Combines (par : Params F) (b : Sample F) (m : Measure F) (old new : List (Sample F))
    (v : Array F) : Prop :=
  ∃ d gamma, m.sample.sub? b = some d ∧ new = Anderson.remember par.memory d old ∧
    Anderson.coefficients? par.lambda par.epsZero new m.residual = some gamma ∧
    Anderson.subCombined? gamma.toList new m.image = some v

theorem advance?_cleared {s : State F} (hl : s.last = none) (hm : s.memory = []) (par : Params F)
    (a : Sample F) :
    Anderson.advance? par.memory par.lambda par.epsZero a s =
      some (a.image, { s with last := some a, memory := [] }) := by
  simp [Anderson.advance?, State.grown?, hl, hm]

theorem advance?_combines {par : Params F} {b : Sample F} {m : Measure F} {s s' : State F}
    {v : Array F} (hl : s.last = some b)
    (h : Anderson.advance? par.memory par.lambda par.epsZero m.sample s = some (v, s')) :
    Combines par b m s.memory s'.memory v ∧ InDoubt m.sample s' := by
  simp only [Anderson.advance?, State.grown?, hl, Option.bind_eq_bind, Option.bind_eq_some_iff] at h
  obtain ⟨memory, ⟨d, hd, hmem⟩, h⟩ := h
  cases hmem
  rw [if_neg (by simp [remember_ne_nil])] at h
  simp only [Option.bind_eq_some_iff] at h
  obtain ⟨gamma, hg, x, hx, h⟩ := h
  cases h
  exact ⟨⟨d, gamma, hd, rfl, hg, hx⟩, rfl, rfl⟩

theorem nextPoint?_of_kept {s t : State F} {m : Measure F}
    (h : Anderson.judge (Vec.norm m.residual) s = (none, t)) (par : Params F) :
    nextPoint? par m (some s) =
      (Anderson.advance? par.memory par.lambda par.epsZero m.sample t).map
        fun x => (x.1, some x.2, none) := by
  simp only [nextPoint?, h]
  exact (Option.map_eq_bind ..).symm

theorem nextPoint?_of_rejected {s t : State F} {m : Measure F} {z : Array F}
    (h : Anderson.judge (Vec.norm m.residual) s = (some z, t)) (par : Params F) :
    nextPoint? par m (some s) = some (z, some t, some (Vec.norm m.residual)) := by
  simp only [nextPoint?, h]

theorem nextPoint?_cleared {s : State F} (h : Cleared s) (par : Params F) (m : Measure F) :
    ∃ s', nextPoint? par m (some s) = some (m.image, some s', none) ∧ Primed m.sample s' := by
  obtain ⟨t, ht, hl, hm, hp⟩ := judge_of_pending_none h.pending (Vec.norm m.residual)
  rw [h.last] at hl
  rw [h.memory] at hm
  rw [nextPoint?_of_kept ht, advance?_cleared hl hm]
  exact ⟨_, rfl, rfl, rfl, hp⟩

theorem nextPoint?_primed {par : Params F} {m : Measure F} {b : Sample F} {s : State F}
    (h : Primed b s) {v : Array F} {a : Option (State F)} {rejected : Option F}
    (hx : nextPoint? par m (some s) = some (v, a, rejected)) :
    rejected = none ∧ ∃ s', a = some s' ∧ Combines par b m s.memory s'.memory v ∧
      InDoubt m.sample s' := by
  obtain ⟨t, ht, hl, hm, -⟩ := judge_of_pending_none h.pending (Vec.norm m.residual)
  rw [nextPoint?_of_kept ht, Option.map_eq_some_iff] at hx
  obtain ⟨⟨x, s'⟩, hadv, hx⟩ := hx
  cases hx
  rw [h.last] at hl
  rw [← hm]
  obtain ⟨hc, hd⟩ := advance?_combines hl hadv
  exact ⟨rfl, s', rfl, hc, hd⟩

theorem nextPoint?_inDoubt {par : Params F} {m : Measure F} {b : Sample F} {s : State F}
    (h : InDoubt b s) {v : Array F} {a : Option (State F)} {rejected : Option F}
    (hx : nextPoint? par m (some s) = some (v, a, rejected)) :
    (¬ Acceptable s m ∧ rejected = some (Vec.norm m.residual) ∧ v = b.image ∧
      ∃ s', a = some s' ∧ Cleared s') ∨
    (Acceptable s m ∧ rejected = none ∧
      ∃ s', a = some s' ∧ Combines par b m s.memory s'.memory v ∧ InDoubt m.sample s') := by
  by_cases ha : Acceptable s m
  · obtain ⟨t, ht, hl, hm, -⟩ := judge_of_acceptable h.pending ha
    rw [nextPoint?_of_kept ht, Option.map_eq_some_iff] at hx
    obtain ⟨⟨x, s'⟩, hadv, hx⟩ := hx
    cases hx
    rw [h.last] at hl
    rw [← hm]
    obtain ⟨hc, hd⟩ := advance?_combines hl hadv
    exact Or.inr ⟨ha, rfl, s', rfl, hc, hd⟩
  · obtain ⟨t, ht, hc⟩ := judge_of_not_acceptable h.pending ha
    rw [nextPoint?_of_rejected ht] at hx
    cases hx
    exact Or.inl ⟨ha, rfl, rfl, t, rfl, hc⟩

/-! ## Along a run -/

/-- Iteration `i` of a run stands at `q`, measures `m`, and is followed by another one, at `r`. -/
def Passes (par : Params F) (init : Option (List (Array F))) (p : Problem σ F) (w : World σ F)
    (i : Nat) (q : Progress F) (m : Measure F) (r : Progress F) : Prop :=
  ∃ proj u t s t' v, prepare par init p w = .ok proj u ∧
    Reaches par p.proxes proj (begin par p.dims proj init) u i q t ∧
    look par p.proxes proj q t = .ok s t' ∧ s.measure = m ∧
    turn par p.proxes proj q t = .ok (.next r) v

def Rejects (par : Params F) (init : Option (List (Array F))) (p : Problem σ F) (w : World σ F)
    (i : Nat) : Prop :=
  ∃ q m r x a norm, Passes par init p w i q m r ∧
    nextPoint? par m q.acceleration = some (x, a, some norm)

/-- The acceleration starts in iteration `i`: it is the first one, or follows a rejection. -/
def Restarts (par : Params F) (init : Option (List (Array F))) (p : Problem σ F) (w : World σ F)
    (i : Nat) : Prop :=
  i = 0 ∨ ∃ j, i = j + 1 ∧ Rejects par init p w j

section Run

variable {par : Params F} {init : Option (List (Array F))} {p : Problem σ F} {w : World σ F}
  {i : Nat} {q r : Progress F} {m : Measure F}

theorem Passes.unique {q' r' : Progress F} {m' : Measure F} (h : Passes par init p w i q m r)
    (h' : Passes par init p w i q' m' r') : q = q' ∧ m = m' ∧ r = r' := by
  obtain ⟨proj, u, t, s, t', v, hp, hr, hs, hm, ht⟩ := h
  obtain ⟨proj', u', t₁, s₁, t₂, v', hp', hr', hs', hm', ht'⟩ := h'
  rw [hp] at hp'
  cases hp'
  obtain ⟨rfl, rfl⟩ := hr.unique hr'
  rw [hs] at hs'
  cases hs'
  rw [ht] at ht'
  cases ht'
  exact ⟨rfl, hm ▸ hm', rfl⟩

theorem Passes.nextPoint (h : Passes par init p w i q m r) :
    ∃ rejected, nextPoint? par m q.acceleration = some (r.v, r.acceleration, rejected) := by
  obtain ⟨proj, u, t, s, t', v, -, -, hs, rfl, ht⟩ := h
  obtain ⟨s', u', x, a, rejected, hs', hx, rfl, -⟩ := pass_eq_ok.mp (turn_eq_next.mp ht).2
  rw [hs] at hs'
  cases hs'
  exact ⟨rejected, hx⟩

theorem Passes.eq_begin (h : Passes par init p w 0 q m r) :
    ∃ proj u, prepare par init p w = .ok proj u ∧ q = begin par p.dims proj init := by
  obtain ⟨proj, u, t, s, t', v, hp, hr, -⟩ := h
  cases hr
  exact ⟨proj, u, hp, rfl⟩

theorem Passes.before (h : Passes par init p w (i + 1) q m r) :
    ∃ q' m', Passes par init p w i q' m' q := by
  obtain ⟨proj, u, t, s, t', v, hp, hr, -⟩ := h
  cases hr with
  | @next _ q' _ u' _ hr' ht =>
    obtain ⟨⟨s', t'', hs', -⟩, -⟩ := turn_eq_next.mp ht
    exact ⟨q', s'.measure, proj, u, u', s', t'', t, hp, hr', hs', rfl, ht⟩

theorem rejects_iff (h : Passes par init p w i q m r) {x : Array F} {a : Option (State F)}
    {rejected : Option F} (hx : nextPoint? par m q.acceleration = some (x, a, rejected)) :
    Rejects par init p w i ↔ rejected.isSome := by
  constructor
  · rintro ⟨q', m', r', x', a', norm, h', hx'⟩
    obtain ⟨rfl, rfl, rfl⟩ := h.unique h'
    rw [hx] at hx'
    cases hx'
    rfl
  · intro hr
    obtain ⟨norm, rfl⟩ := Option.isSome_iff_exists.mp hr
    exact ⟨q, m, r, x, a, norm, h, hx⟩

theorem restarts_succ : Restarts par init p w (i + 1) ↔ Rejects par init p w i := by
  constructor
  · rintro (h | ⟨j, hj, h⟩)
    · omega
    · cases hj
      exact h
  · intro h
    exact Or.inr ⟨i, rfl, h⟩

/-- What the acceleration holds before iteration `i`, and since when. -/
inductive Phase (par : Params F) (init : Option (List (Array F))) (p : Problem σ F)
    (w : World σ F) : Nat → Progress F → State F → Prop
  | cleared {i : Nat} {q : Progress F} {s : State F} :
    Restarts par init p w i → Cleared s → Phase par init p w i q s
  | primed {j : Nat} {q' q : Progress F} {m' : Measure F} {s : State F} :
    Passes par init p w j q' m' q → Restarts par init p w j → ¬ Rejects par init p w j →
      Primed m'.sample s → Phase par init p w (j + 1) q s
  | inDoubt {j : Nat} {q' q : Progress F} {m' : Measure F} {s : State F} :
    Passes par init p w j q' m' q → ¬ Restarts par init p w j → ¬ Rejects par init p w j →
      InDoubt m'.sample s → Phase par init p w (j + 1) q s

inductive Move (par : Params F) (init : Option (List (Array F))) (p : Problem σ F)
    (w : World σ F) (q : Progress F) (m : Measure F) (r : Progress F) (s s' : State F) : Nat → Prop
  | plain {i : Nat} : Restarts par init p w i → ¬ Rejects par init p w i → r.v = m.image →
      s.pending = none → Primed m.sample s' → Move par init p w q m r s s' i
  | retreat {j : Nat} {q' : Progress F} {m' : Measure F} : Passes par init p w j q' m' q →
      ¬ Restarts par init p w j → ¬ Rejects par init p w j → Rejects par init p w (j + 1) →
      s.pending = some m'.image → ¬ Acceptable s m → r.v = m'.image → Cleared s' →
      Move par init p w q m r s s' (j + 1)
  | accelerate {j : Nat} {q' : Progress F} {m' : Measure F} : Passes par init p w j q' m' q →
      ¬ Rejects par init p w j → ¬ Rejects par init p w (j + 1) →
      (Restarts par init p w j ∧ s.pending = none ∨
        ¬ Restarts par init p w j ∧ s.pending = some m'.image ∧ Acceptable s m) →
      Combines par m'.sample m s.memory s'.memory r.v → InDoubt m.sample s' →
      Move par init p w q m r s s' (j + 1)

theorem Phase.move {s : State F} (hs : Phase par init p w i q s)
    (h : Passes par init p w i q m r) (hq : q.acceleration = some s) :
    ∃ s', r.acceleration = some s' ∧ Move par init p w q m r s s' i := by
  obtain ⟨rejected, hx⟩ := h.nextPoint
  have hrej := rejects_iff h hx
  rw [hq] at hx
  cases hs with
  | cleared hr hc =>
    obtain ⟨s', hx', hs'⟩ := nextPoint?_cleared hc par m
    rw [hx] at hx'
    simp only [Option.some.injEq, Prod.mk.injEq] at hx'
    obtain ⟨hv, ha, rfl⟩ := hx'
    exact ⟨s', ha, .plain hr (by simp [hrej]) hv hc.pending hs'⟩
  | primed hj hr hn hb =>
    obtain ⟨rfl, s', ha, hc, hs'⟩ := nextPoint?_primed hb hx
    exact ⟨s', ha, .accelerate hj hn (by simp [hrej]) (Or.inl ⟨hr, hb.pending⟩) hc hs'⟩
  | inDoubt hj hr hn hb =>
    rcases nextPoint?_inDoubt hb hx with ⟨hacc, rfl, hv, s', ha, hs'⟩ | ⟨hacc, rfl, s', ha, hc, hs'⟩
    · exact ⟨s', ha, .retreat hj hr hn (by simp [hrej]) hb.pending hacc hv hs'⟩
    · exact ⟨s', ha, .accelerate hj hn (by simp [hrej]) (Or.inr ⟨hr, hb.pending, hacc⟩) hc hs'⟩

theorem Move.phase {s s' : State F} (h : Passes par init p w i q m r)
    (hm : Move par init p w q m r s s' i) : Phase par init p w (i + 1) r s' := by
  cases hm with
  | plain hr hn _ _ hs' => exact .primed h hr hn hs'
  | retreat _ _ _ hn _ _ _ hs' => exact .cleared (restarts_succ.mpr hn) hs'
  | accelerate _ hr hn _ _ hs' =>
    refine .inDoubt h ?_ hn hs'
    rw [restarts_succ]
    exact hr

section Move

variable {s s' : State F}

theorem Move.cases (h : Move par init p w q m r s s' i) :
    Restarts par init p w i ∧ ¬ Rejects par init p w i ∧ r.v = m.image ∧ s'.pending = none ∨
    ¬ Restarts par init p w i ∧ Rejects par init p w i ∧
      (∃ j q' m', i = j + 1 ∧ Passes par init p w j q' m' q ∧ r.v = m'.image) ∧
      s'.pending = none ∨
    ¬ Restarts par init p w i ∧ ¬ Rejects par init p w i ∧
      (∃ j q' m', i = j + 1 ∧ Passes par init p w j q' m' q ∧
        Combines par m'.sample m s.memory s'.memory r.v) ∧
      s'.pending = some m.image := by
  cases h with
  | plain hr hn hv _ hs' => exact Or.inl ⟨hr, hn, hv, hs'.pending⟩
  | retreat hj _ hn hrej _ _ hv hs' =>
    exact Or.inr (Or.inl ⟨by rwa [restarts_succ], hrej, ⟨_, _, _, rfl, hj, hv⟩, hs'.pending⟩)
  | accelerate hj hr hn _ hc hs' =>
    exact Or.inr (Or.inr ⟨by rwa [restarts_succ], hn, ⟨_, _, _, rfl, hj, hc⟩, hs'.pending⟩)

theorem Move.rejects_iff (h : Move par init p w q m r s s' i) :
    Rejects par init p w i ↔ (∃ z, s.pending = some z) ∧ ¬ Acceptable s m := by
  cases h with
  | plain _ hn _ hs => simp [hn, hs]
  | retreat _ _ _ hrej hs hacc => simp [hrej, hs, hacc]
  | accelerate _ _ hn hs =>
    rcases hs with ⟨-, hs⟩ | ⟨-, hs, hacc⟩
    · simp [hn, hs]
    · simp [hn, hacc]

theorem Move.pending_iff (h : Move par init p w q m r s s' i) (z : Array F) :
    s.pending = some z ↔ ∃ j q' m', i = j + 1 ∧ Passes par init p w j q' m' q ∧
      ¬ Restarts par init p w j ∧ ¬ Rejects par init p w j ∧ z = m'.image := by
  cases h with
  | plain hr _ _ hs =>
    rw [hs]
    constructor
    · intro h
      cases h
    · rintro ⟨j, q', m', rfl, -, -, hn, -⟩
      exact absurd (restarts_succ.mp hr) hn
  | retreat hj hr hn _ hs =>
    rw [hs]
    constructor
    · rintro ⟨⟩
      exact ⟨_, _, _, rfl, hj, hr, hn, rfl⟩
    · rintro ⟨j, q', m', hij, hj', -, -, rfl⟩
      cases hij
      rw [(hj.unique hj').2.1]
  | accelerate hj hn _ hs =>
    rcases hs with ⟨hr, hs⟩ | ⟨hr, hs, -⟩
    · rw [hs]
      constructor
      · intro h
        cases h
      · rintro ⟨j, q', m', hij, -, hr', -⟩
        cases hij
        exact absurd hr hr'
    · rw [hs]
      constructor
      · rintro ⟨⟩
        exact ⟨_, _, _, rfl, hj, hr, hn, rfl⟩
      · rintro ⟨j, q', m', hij, hj', -, -, rfl⟩
        cases hij
        rw [(hj.unique hj').2.1]

end Move

theorem Passes.phase (ha : par.anderson = true) (h : Passes par init p w i q m r) :
    ∃ s, q.acceleration = some s ∧ Phase par init p w i q s := by
  -- one move leads from phase to phase
  induction i generalizing q m r with
  | zero =>
    obtain ⟨proj, u, -, rfl⟩ := h.eq_begin
    exact ⟨.initial, by simp [begin, ha], .cleared (Or.inl rfl) initial_cleared⟩
  | succ i ih =>
    obtain ⟨q', m', h'⟩ := h.before
    obtain ⟨s, hq', hs⟩ := ih h'
    obtain ⟨s', hq, hmove⟩ := hs.move h' hq'
    exact ⟨s', hq, hmove.phase h'⟩

theorem Rejects.before (ha : par.anderson = true) (h : Rejects par init p w i) :
    ∃ j, i = j + 2 ∧ ¬ Rejects par init p w (j + 1) ∧ ¬ Rejects par init p w j := by
  obtain ⟨q, m, r, x, a, norm, hpass, hx⟩ := id h
  obtain ⟨s, hq, hs⟩ := hpass.phase ha
  obtain ⟨s', -, hmove⟩ := hs.move hpass hq
  cases hmove with
  | plain _ hn => exact absurd h hn
  | accelerate _ _ hn => exact absurd h hn
  | @retreat j q' m' _ hr hn =>
    cases j with
    | zero => exact absurd (Or.inl rfl) hr
    | succ j => exact ⟨j, rfl, hn, fun h' => hr (restarts_succ.mpr h')⟩

theorem exists_passes (hp : ∃ proj u, prepare par init p w = .ok proj u)
    (hg : ∀ g ∈ p.couplings, g.Sound) (hs : ∀ b ∈ p.proxes, b.Total par.rho)
    (hc : ∀ j ≤ i, ¬ ConvergesAt par init p w j) (hl : ∀ M, par.maxIter = some M → i + 1 < M) :
    ∃ q m r, Passes par init p w i q m r := by
  obtain ⟨proj, u, hp⟩ := hp
  obtain ⟨-, hfits, hbegin⟩ := fits_of_prepare hg hp
  obtain ⟨r, v, hr⟩ := course_total hs rfl hfits hbegin (i + 1) u
  have hreach := reaches_of_course hp hr (fun j hj => hc j (by omega)) hl
  cases hreach with
  | @next _ q _ t _ hq ht =>
    obtain ⟨⟨s, t', hlook, -⟩, -⟩ := turn_eq_next.mp ht
    exact ⟨q, s.measure, r, proj, u, t, s, t', v, hp, hq, hlook, rfl, ht⟩

theorem rejects_of_hopeless (ha : par.anderson = true)
    (hno : ∀ (s : State F) (m : Measure F), ¬ Acceptable s m)
    (hpass : ∃ q m r, Passes par init p w (i + 2) q m r) (h₀ : ¬ Rejects par init p w i)
    (h₁ : ¬ Rejects par init p w (i + 1)) : Rejects par init p w (i + 2) := by
  obtain ⟨q, m, r, h⟩ := hpass
  obtain ⟨s, hq, hs⟩ := h.phase ha
  obtain ⟨s', -, hmove⟩ := hs.move h hq
  obtain ⟨q', m', h'⟩ := h.before
  have hpending : s.pending = some m'.image := by
    refine (hmove.pending_iff _).mpr ⟨i + 1, q', m', rfl, h', ?_, h₁, rfl⟩
    rwa [restarts_succ]
  exact hmove.rejects_iff.mpr ⟨⟨_, hpending⟩, hno s m⟩

/-- Where no point in doubt is acceptable, every third iteration rejects. -/
theorem rejects_every_third (ha : par.anderson = true)
    (hno : ∀ (s : State F) (m : Measure F), ¬ Acceptable s m)
    (hpass : ∀ i, ∃ q m r, Passes par init p w i q m r) (k : Nat) :
    ¬ Rejects par init p w (3 * k) ∧ ¬ Rejects par init p w (3 * k + 1) ∧
      Rejects par init p w (3 * k + 2) := by
  induction k with
  | zero =>
    have hfirst : ∀ i < 2, ¬ Rejects par init p w i := by
      intro i hi h
      obtain ⟨j, hj, -⟩ := h.before ha
      omega
    have h₀ := hfirst 0 (by omega)
    have h₁ := hfirst 1 (by omega)
    exact ⟨h₀, h₁, rejects_of_hopeless ha hno (hpass 2) h₀ h₁⟩
  | succ k ih =>
    obtain ⟨-, -, h⟩ := ih
    have h₀ : ¬ Rejects par init p w (3 * k + 3) := by
      intro h'
      obtain ⟨j, hj, hn, -⟩ := h'.before ha
      cases hj
      exact hn h
    have h₁ : ¬ Rejects par init p w (3 * k + 4) := by
      intro h'
      obtain ⟨j, hj, -, hn⟩ := h'.before ha
      cases hj
      exact hn h
    exact ⟨h₀, h₁, rejects_of_hopeless ha hno (hpass (3 * k + 5)) h₀ h₁⟩

end Run

end Splitting.Solver
