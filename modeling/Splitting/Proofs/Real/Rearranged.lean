import Splitting.Proofs.Real.Label

/-!
# Blocks in another order, in exact arithmetic

Two runs whose blocks are the same but for their order make the same iterations: what is stacked is
stacked in another order, and every number that decides how a run goes on is the same.
-/

namespace Splitting

variable {L L' : List (ℕ × ℕ)}

/-! ## Acceleration -/

namespace Anderson

structure SameSample (L L' : List (ℕ × ℕ)) (a b : Sample ℝ) : Prop where
  image : Matched L L' a.image b.image
  residual : Matched L L' a.residual b.residual

structure SameState (L L' : List (ℕ × ℕ)) (s t : State ℝ) : Prop where
  last : Option.Rel (SameSample L L') s.last t.last
  memory : List.Forall₂ (SameSample L L') s.memory t.memory
  firstNorm : s.firstNorm = t.firstNorm
  accepted : s.accepted = t.accepted
  pending : Option.Rel (Matched L L') s.pending t.pending

theorem sameState_initial : SameState L L' .initial .initial :=
  ⟨.none, .nil, rfl, rfl, .none⟩

theorem judge_matched {s t : State ℝ} (h : SameState L L' s t) (norm : ℝ) :
    Option.Rel (Matched L L') (judge norm s).1 (judge norm t).1 ∧
      SameState L L' (judge norm s).2 (judge norm t).2 := by
  obtain ⟨last, memory, firstNorm, accepted, pending⟩ := s
  obtain ⟨last', memory', firstNorm', accepted', pending'⟩ := t
  obtain ⟨hlast, hmemory, hfirst, haccepted, hpending⟩ := h
  dsimp only at hlast hmemory hfirst haccepted hpending
  subst hfirst haccepted
  unfold judge
  cases hpending with
  | none => exact ⟨.none, hlast, hmemory, rfl, rfl, .none⟩
  | some hsafe =>
    dsimp only
    split
    · exact ⟨.none, hlast, hmemory, rfl, rfl, .none⟩
    · exact ⟨.some hsafe, .none, .nil, rfl, rfl, .none⟩

theorem sub?_matched {a a' b b' : Sample ℝ} (ha : SameSample L L' a a')
    (hb : SameSample L L' b b') :
    Option.Rel (SameSample L L') (a.sub? b) (a'.sub? b') := by
  unfold Sample.sub?
  refine option_rel_bind (ha.residual.sub? hb.residual) fun r r' hr => ?_
  refine option_rel_bind (ha.image.sub? hb.image) fun f f' hf => ?_
  exact .some ⟨hf, hr⟩

theorem remember_matched (size : ℕ) {d d' : Sample ℝ} (hd : SameSample L L' d d')
    {memory memory' : List (Sample ℝ)} (h : List.Forall₂ (SameSample L L') memory memory') :
    List.Forall₂ (SameSample L L') (remember size d memory) (remember size d' memory') := by
  unfold remember
  rw [← h.length_eq]
  refine List.rel_append ?_ (.cons hd .nil)
  split
  · cases h with
    | nil => exact .nil
    | cons _ h => exact h
  · exact h

theorem grown?_matched {s t : State ℝ} (h : SameState L L' s t) (size : ℕ) {a b : Sample ℝ}
    (ha : SameSample L L' a b) :
    Option.Rel (List.Forall₂ (SameSample L L')) (s.grown? size a) (t.grown? size b) := by
  obtain ⟨last, memory, firstNorm, accepted, pending⟩ := s
  obtain ⟨last', memory', firstNorm', accepted', pending'⟩ := t
  obtain ⟨hlast, hmemory, -, -, -⟩ := h
  unfold State.grown?
  dsimp only at hlast hmemory ⊢
  cases hlast with
  | none => exact .some hmemory
  | some hlast =>
    refine option_rel_bind (sub?_matched ha hlast) fun d d' hd => ?_
    exact .some (remember_matched size hd hmemory)

theorem mapM_congr {α β γ : Type} {R : α → β → Prop} {f : α → Option γ} {g : β → Option γ}
    (hfg : ∀ a b, R a b → f a = g b) {l : List α} {l' : List β} (h : List.Forall₂ R l l') :
    l.mapM f = l'.mapM g := by
  induction h with
  | nil => rfl
  | cons hab _ ih => rw [List.mapM_cons, List.mapM_cons, hfg _ _ hab, ih]

section Perm

variable (hL : L.Perm L') {memory memory' : List (Sample ℝ)}
  (hmemory : List.Forall₂ (SameSample L L') memory memory')
include hL hmemory

theorem regularization_eq (lambda : ℝ) :
    regularization lambda memory = regularization lambda memory' := by
  unfold regularization
  congr 1
  generalize (0 : ℝ) = s
  induction hmemory generalizing s with
  | nil => rfl
  | cons hd _ ih =>
    rw [List.foldl_cons, List.foldl_cons, hd.residual.norm_eq hL, hd.image.norm_eq hL]
    exact ih _

theorem products?_eq {x x' : Array ℝ} (hx : Matched L L' x x') :
    products? x memory = products? x' memory' := by
  unfold products?
  rw [mapM_congr (fun d d' hd => hd.residual.dot?_eq hL hx) hmemory]

theorem normalMatrix?_eq (reg : ℝ) : normalMatrix? reg memory = normalMatrix? reg memory' := by
  unfold normalMatrix?
  rw [mapM_congr (fun d d' hd => products?_eq hL hmemory hd.residual) hmemory, hmemory.length_eq]

theorem coefficients?_eq [Spectral ℝ] (lambda epsZero : ℝ) {g g' : Array ℝ}
    (hg : Matched L L' g g') :
    coefficients? lambda epsZero memory g = coefficients? lambda epsZero memory' g' := by
  unfold coefficients?
  rw [regularization_eq hL hmemory, normalMatrix?_eq hL hmemory, products?_eq hL hmemory hg,
    hmemory.length_eq]

omit hL in
theorem subCombined?_matched (cs : List ℝ) {y y' : Array ℝ} (hy : Matched L L' y y') :
    Option.Rel (Matched L L') (subCombined? cs memory y) (subCombined? cs memory' y') := by
  induction hmemory generalizing cs y y' with
  | nil => cases cs <;> exact .some hy
  | cons hd _ ih =>
    cases cs with
    | nil => exact .some hy
    | cons c cs => exact option_rel_bind (hd.image.addScaled? (-c) hy) fun _ _ hz => ih cs hz

end Perm

theorem advance?_matched [Spectral ℝ] (hL : L.Perm L') {s t : State ℝ} (h : SameState L L' s t)
    (size : ℕ) (lambda epsZero : ℝ) {a b : Sample ℝ} (ha : SameSample L L' a b) :
    Option.Rel (fun u v => Matched L L' u.1 v.1 ∧ SameState L L' u.2 v.2)
      (advance? size lambda epsZero a s) (advance? size lambda epsZero b t) := by
  unfold advance?
  refine option_rel_bind (grown?_matched h size ha) fun memory memory' hmemory => ?_
  have hempty : memory.isEmpty = memory'.isEmpty := by cases hmemory <;> rfl
  dsimp only
  rw [hempty]
  split
  · exact .some ⟨ha.image, .some ha, hmemory, h.firstNorm, h.accepted, h.pending⟩
  · rw [coefficients?_eq hL hmemory lambda epsZero ha.residual]
    refine option_rel_bind (option_rel_refl (fun _ => rfl) _) ?_
    rintro gamma _ rfl
    refine option_rel_bind (subCombined?_matched hmemory gamma.toList ha.image) fun v v' hv => ?_
    exact .some ⟨hv, .some ha, hmemory, h.firstNorm, h.accepted, .some ha.image⟩

end Anderson

/-! ## One iteration -/

namespace Solver

open Anderson (SameState)

/-- Both runs stand at the same place, but for the order of the labels. -/
structure SameProgress (L L' : List (ℕ × ℕ)) (m : ℕ) (q r : Progress ℝ) : Prop where
  iter : q.iter = r.iter
  v : Matched L L' q.v r.v
  scratch : q.scratch = r.scratch
  sized : q.scratch.Sized m
  acceleration : Option.Rel (SameState L L') q.acceleration r.acceleration
  primal : q.primal = r.primal
  dual : q.dual = r.dual
  first : q.first = r.first

structure SameSight (L L' : List (ℕ × ℕ)) (m : ℕ) (s t : Sight ℝ) : Prop where
  x : Matched L L' s.x t.x
  measure : SameMeasure L L' m s.measure t.measure

theorem SameProgress.advanced {m : ℕ} {q r : Progress ℝ} (h : SameProgress L L' m q r)
    {a b : Measure ℝ} (hab : SameMeasure L L' m a b) {v v' : Array ℝ} (hv : Matched L L' v v')
    {s t : Option (Anderson.State ℝ)} (hst : Option.Rel (SameState L L') s t) :
    SameProgress L L' m (q.advanced a v s) (r.advanced b v' t) := by
  refine ⟨congrArg (· + 1) h.iter, hv, hab.scratch, hab.sized, hst, ?_, ?_, ?_⟩
  · simp only [Progress.advanced, h.primal, hab.primal]
  · simp only [Progress.advanced, h.dual, hab.dual]
  · simp only [Progress.advanced, Progress.reference, h.first, hab.primal, hab.dual]

theorem nextPoint?_matched [Spectral ℝ] (hL : L.Perm L') (par : Params ℝ) {m : ℕ} {a b : Measure ℝ}
    (hab : SameMeasure L L' m a b) {s t : Option (Anderson.State ℝ)}
    (hst : Option.Rel (SameState L L') s t) :
    Option.Rel (fun u v => Matched L L' u.1 v.1 ∧ Option.Rel (SameState L L') u.2.1 v.2.1)
      (nextPoint? par a s) (nextPoint? par b t) := by
  cases hst with
  | none => exact .some ⟨hab.image, .none⟩
  | @some s t hst =>
    simp only [nextPoint?, hab.residual.norm_eq hL]
    obtain ⟨hsafe, hstate⟩ := Anderson.judge_matched hst (Vec.norm b.residual)
    generalize Anderson.judge (Vec.norm b.residual) s = j at hsafe hstate
    generalize Anderson.judge (Vec.norm b.residual) t = k at hsafe hstate
    obtain ⟨safe, s⟩ := j
    obtain ⟨safe', t⟩ := k
    dsimp only at hsafe hstate ⊢
    cases hsafe with
    | some hsafe => exact .some ⟨hsafe, .some hstate⟩
    | none =>
      refine option_rel_bind (Anderson.advance?_matched hL hstate _ _ _
        ⟨hab.image, hab.residual⟩) ?_
      rintro ⟨v, s⟩ ⟨v', t⟩ ⟨hv, hst⟩
      exact .some ⟨hv, .some hst⟩

/-! ## Both problems side by side -/

variable {σ : Type} {p : Problem σ ℝ} {is js : List ℕ} {P : σ → Prop}

theorem proxPoints_matched {rho : ℝ} (h : p.Independent rho P)
    (his : is.Perm (List.range p.dims.length)) (hperm : is.Perm js) {v v' : Array ℝ}
    (hv : Matched (labels p.dims is) (labels p.dims js) v v') (iter iter' : ℕ) :
    Run.Tied (World.Linked fun s s' => s = s' ∧ P s)
      (Matched (labels p.dims is) (labels p.dims js))
      (proxPoints rho iter v (pick is p.proxes) 0 0 #[])
      (proxPoints rho iter' v' (pick js p.proxes) 0 0 #[]) := by
  rintro w w' ⟨hw, hP⟩
  obtain ⟨f, rfl, rfl⟩ := hv
  have hnodup : is.Nodup := his.nodup_iff.mpr List.nodup_range
  have hpart : ∀ l q, p.proxes[l]? = some q → (block p.dims f l).size = q.dim := by
    intro l q hq
    simp [Problem.dims, hq]
  have hsome : ∀ l ∈ is, ∃ q, p.proxes[l]? = some q := fun l hl =>
    ⟨_, List.getElem?_eq_getElem (p.length_dims ▸ lt_of_mem_perm his hl)⟩
  obtain ⟨ans, u, hcalls, hu⟩ := exists_called h.neverFails hnodup
    (fun l hl => (hsome l hl).imp fun q hq => ⟨hq, hpart l q hq⟩) hP
  obtain ⟨u', hcalls', hu'⟩ := hcalls.perm h.oblivious h.separate hperm hnodup hw
  let g : ℕ × ℕ → ℝ := fun k => (ans k.1).getD k.2 0
  have hans : ∀ l ∈ is, ans l = block p.dims g l := by
    intro l hl
    obtain ⟨q, hq⟩ := hsome l hl
    refine eq_block ?_ fun i => rfl
    simp [hcalls.size hl hq, Problem.dims, hq]
  have hleft := hcalls.answers (fun l _ => hpart l) #[]
  have hright := hcalls'.answers (fun l _ => hpart l) #[]
  rw [Array.empty_append, stack_map_block, Array.size_empty] at hleft hright
  rw [proxPoints_eq_ok.mpr ⟨_, hleft, rfl⟩, proxPoints_eq_ok.mpr ⟨_, hright, rfl⟩,
    List.map_congr_left hans, List.map_congr_left fun l hl => hans l (hperm.mem_iff.mpr hl),
    Array.empty_append, Array.empty_append, stack_map_block, stack_map_block]
  exact ⟨⟨g, rfl, rfl⟩, hu', hu⟩

section Turn

variable {par : Params ℝ} {proj : Projection ℝ} (h : p.Independent par.rho P)
  (hover : proj.Over p.dims) (hrange : proj = proj.arranged (List.range p.dims.length))
  (his : is.Perm (List.range p.dims.length))
include h hover hrange his

theorem look_matched {q r : Progress ℝ}
    (hq : SameProgress (places p.dims) (labels p.dims is)
      proj.rhs.size q r) :
    Run.Tied (World.Linked fun s s' => s = s' ∧ P s)
      (SameSight (places p.dims) (labels p.dims is) proj.rhs.size)
      (look par p.proxes proj q) (look par (p.arranged is).proxes (proj.arranged is) r) := by
  intro w w' hw
  rw [look_apply, look_apply]
  have hproxes : pick (List.range p.dims.length) p.proxes = p.proxes := by
    rw [p.length_dims, pick_range]
  have hprox := proxPoints_matched h (List.Perm.refl _) his.symm hq.v q.iter r.iter
  rw [hproxes] at hprox
  refine Run.tied_bind hprox ?_ _ _ (opened_tied hw par par _ _)
  rintro x x' hx -
  have hmeasure := measure?_matched hover his.symm par.rho hq.sized hq.v hx
  rw [← hrange] at hmeasure
  rw [← hq.scratch]
  refine Run.tied_bind (Run.tied_demand hmeasure) ?_
  exact fun m m' hm _ => Run.tied_pure ⟨hx, hm⟩

omit h hover hrange in
theorem solution_matched {m : ℕ} {q r : Progress ℝ}
    (hq : SameProgress (places p.dims) (labels p.dims is) m q r)
    {s t : Sight ℝ}
    (hs : SameSight (places p.dims) (labels p.dims is) m s t) :
    r.solution (p.arranged is).dims t = (q.solution p.dims s).arranged is := by
  obtain ⟨⟨g, hx, hx'⟩, hm⟩ := hs
  unfold Progress.solution Solution.arranged
  rw [p.dims_arranged is, hx, hx', cut_places,
    cut_reading (fun l hl => lt_of_mem_perm his hl) g, ← hq.primal, ← hq.dual, ← hq.iter,
    ← hm.primal, ← hm.dual]
  congr 1
  refine (pick_eq_map fun l hl => ?_).symm
  simp [p.length_dims ▸ lt_of_mem_perm his hl]

variable [Spectral ℝ]

theorem turn_matched {q r : Progress ℝ}
    (hq : SameProgress (places p.dims) (labels p.dims is)
      proj.rhs.size q r) :
    Run.Tied (World.Linked fun s s' => s = s' ∧ P s)
      (TurnsAlike (fun a b => b = a.arranged is)
        (SameProgress (places p.dims) (labels p.dims is)
          proj.rhs.size))
      (turn par p.proxes proj q) (turn par (p.arranged is).proxes (proj.arranged is) r) := by
  refine turn_tied (look_matched h hover hrange his hq) ?_ ?_ ?_ ?_
  · rw [hq.iter]
  · rintro s t ⟨-, hm⟩
    simp only [Progress.reference, hq.first, hm.primal, hm.dual]
  · exact fun s t hs => solution_matched his hq hs
  · rintro s t w v ⟨-, hm⟩ -
    have hnext := nextPoint?_matched (places_perm his) par hm hq.acceleration
    exact goOn_tied (option_rel_mono (fun _ _ hab => hq.advanced hm hab.1 hab.2) hnext)

end Turn

end Solver

end Splitting
