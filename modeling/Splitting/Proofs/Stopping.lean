import Splitting.Proofs.Blocks
import Splitting.Proofs.Course

/-!
# Where a run stops

A run stops at the first iteration whose residuals are within the tolerances, unless it has reached
its limit before.
-/

namespace Splitting.Solver

variable {σ F : Type} [Scalar F] [Spectral F]

/-! ## The history of a course -/

/-- Iteration `i` of the course from `p` on sees `s`. -/
def Sees (par : Params F) (proxes : List (Prox σ F)) (proj : Projection F) (p : Progress F)
    (w : World σ F) (i : Nat) (s : Sight F) : Prop :=
  ∃ q u v, course par proxes proj i p w = .ok q u ∧ look par proxes proj q u = .ok s v

section Course

variable {par : Params F} {proxes : List (Prox σ F)} {proj : Projection F} {p : Progress F}
  {w v : World σ F}

theorem Sees.unique {i : Nat} {s t : Sight F} (hs : Sees par proxes proj p w i s)
    (ht : Sees par proxes proj p w i t) : s = t := by
  obtain ⟨q, u, v, hq, hl⟩ := hs
  obtain ⟨q', u', v', hq', hl'⟩ := ht
  rw [hq] at hq'
  cases hq'
  rw [hl] at hl'
  cases hl'
  rfl

theorem Sees.of_course {n i : Nat} {q : Progress F} (h : course par proxes proj n p w = .ok q v)
    (hi : i < n) : ∃ s, Sees par proxes proj p w i s := by
  obtain ⟨r, u, hr⟩ := exists_course_of_le (Nat.succ_le_of_lt hi) h
  obtain ⟨r', u', hr', hp⟩ := course_succ_eq_ok.mp hr
  obtain ⟨s, t, -, -, -, hs, -⟩ := pass_eq_ok.mp hp
  exact ⟨s, r', u', t, hr', hs⟩

theorem course_iter {n : Nat} {q : Progress F} (h : course par proxes proj n p w = .ok q v) :
    q.iter = p.iter + n := by
  induction n generalizing q v with
  | zero =>
    obtain ⟨rfl, -⟩ := Run.pure_eq_ok.mp h
    rfl
  | succ n ih =>
    obtain ⟨r, u, hr, hp⟩ := course_succ_eq_ok.mp h
    obtain ⟨s, t, x, a, rej, -, -, rfl, -⟩ := pass_eq_ok.mp hp
    have := ih hr
    simp only [Progress.advanced]
    omega

theorem course_history {n : Nat} {q : Progress F} (h : course par proxes proj n p w = .ok q v)
    (hp : p.primal = #[]) (hd : p.dual = #[]) :
    q.primal.size = n ∧ q.dual.size = n ∧ ∀ i < n, ∀ s, Sees par proxes proj p w i s →
      q.primal[i]? = some s.measure.primal ∧ q.dual[i]? = some s.measure.dual := by
  -- the sizes say where the next residuals go
  induction n generalizing q v with
  | zero =>
    obtain ⟨rfl, -⟩ := Run.pure_eq_ok.mp h
    exact ⟨by simp [hp], by simp [hd], fun i hi => absurd hi (Nat.not_lt_zero i)⟩
  | succ n ih =>
    obtain ⟨r, u, hr, hpass⟩ := course_succ_eq_ok.mp h
    obtain ⟨s, t, x, a, rej, hs, -, rfl, -⟩ := pass_eq_ok.mp hpass
    obtain ⟨hps, hds, hall⟩ := ih hr
    refine ⟨by simp [Progress.advanced, hps], by simp [Progress.advanced, hds], ?_⟩
    intro i hi s' hs'
    simp only [Progress.advanced, Array.getElem?_push, hps, hds]
    rcases Nat.lt_succ_iff_lt_or_eq.mp hi with hlt | rfl
    · rw [if_neg (by omega), if_neg (by omega)]
      exact hall i hlt s' hs'
    · have : s' = s := hs'.unique ⟨r, u, t, hr, hs⟩
      simp [this]

theorem course_first {n : Nat} {q : Progress F}
    (h : course par proxes proj (n + 1) p w = .ok q v) (hf : p.first = none) {s₀ : Sight F}
    (h₀ : Sees par proxes proj p w 0 s₀) :
    q.first = some (s₀.measure.primal, s₀.measure.dual) := by
  induction n generalizing q v with
  | zero =>
    obtain ⟨r, u, hr, hp⟩ := course_succ_eq_ok.mp h
    obtain ⟨s, t, x, a, rej, hs, -, rfl, -⟩ := pass_eq_ok.mp hp
    have : s = s₀ := Sees.unique ⟨r, u, t, hr, hs⟩ h₀
    obtain ⟨rfl, -⟩ := Run.pure_eq_ok.mp hr
    simp [Progress.advanced, Progress.reference, hf, this]
  | succ n ih =>
    obtain ⟨r, u, hr, hp⟩ := course_succ_eq_ok.mp h
    obtain ⟨s, t, x, a, rej, -, -, rfl, -⟩ := pass_eq_ok.mp hp
    simp [Progress.advanced, Progress.reference, ih hr]

theorem course_reference {n : Nat} {q : Progress F} (h : course par proxes proj n p w = .ok q v)
    (hf : p.first = none) {s₀ s : Sight F} (h₀ : Sees par proxes proj p w 0 s₀)
    (hs : Sees par proxes proj p w n s) :
    q.reference s.measure = (s₀.measure.primal, s₀.measure.dual) := by
  cases n with
  | zero =>
    obtain ⟨rfl, -⟩ := Run.pure_eq_ok.mp h
    rw [hs.unique h₀, Progress.reference, hf]
    rfl
  | succ n =>
    rw [Progress.reference, course_first h hf h₀]
    rfl

end Course

/-! ## Before the first iteration -/

theorem defect_error_ne_excessIter (d : Defect) : d.error ≠ .excessIter := by
  cases d <;> simp [Defect.error]

theorem defect_error_ne_ofProx (d : Defect) (block : Nat) (e : ProxError) :
    d.error ≠ .ofProx block e := by
  cases d <;> cases e <;> simp [Defect.error, SolverError.ofProx]

section Prepare

variable {par : Params F} {init : Option (List (Array F))} {p : Problem σ F}
  {proj : Projection F} {w v : World σ F}

theorem prepare_eq_ok :
    prepare par init p w = .ok proj v ↔
      defect? par init p = none ∧
        Projection.ofCouplings? p.couplings p.dims p.rhs par.epsZero = some proj ∧
        HasRoom par p.dims ∧ v = ((w.note (.params par)).note .initializing).note .started := by
  unfold prepare
  simp only [Run.bind_eq_ok, Run.check_eq_ok, Run.demand_eq_ok, Run.require_eq_ok,
    Run.pure_eq_ok, Run.note_apply]
  constructor
  · rintro ⟨-, _, ⟨hd, rfl⟩, -, _, ⟨⟩, -, _, ⟨⟩, _, _, ⟨hp, rfl⟩, -, _, ⟨hr, rfl⟩, -, _, ⟨⟩, rfl,
      rfl⟩
    exact ⟨hd, hp, hr, rfl⟩
  · rintro ⟨hd, hp, hr, rfl⟩
    exact ⟨(), w, ⟨hd, rfl⟩, (), _, rfl, (), _, rfl, proj, _, ⟨hp, rfl⟩, (), _, ⟨hr, rfl⟩, (), _,
      rfl, rfl, rfl⟩

theorem prepare_of_defect {d : Defect} (h : defect? par init p = some d) (w : World σ F) :
    prepare par init p w = .error (.error d.error) (w.note (.refused d)) := by
  unfold prepare
  rw [Run.bind_apply, h]
  rfl

theorem prepare_of_accepted (hd : defect? par init p = none) (w : World σ F) :
    prepare par init p w =
      match Projection.ofCouplings? p.couplings p.dims p.rhs par.epsZero with
      | none => .error .misuse ((w.note (.params par)).note .initializing)
      | some proj =>
        if HasRoom par p.dims then
          .ok proj (((w.note (.params par)).note .initializing).note .started)
        else .error .misuse ((w.note (.params par)).note .initializing) := by
  unfold prepare
  rw [hd]
  show (Run.demand (Projection.ofCouplings? p.couplings p.dims p.rhs par.epsZero) >>= fun proj => do
    Run.require (HasRoom par p.dims)
    Run.note .started
    return proj : Run σ F SolverError (Projection F)) _ = _
  rw [Run.bind_apply]
  cases Projection.ofCouplings? p.couplings p.dims p.rhs par.epsZero with
  | none => rfl
  | some proj =>
    show (Run.require (HasRoom par p.dims) >>= fun _ => do
      Run.note .started
      return proj : Run σ F SolverError (Projection F)) _ = _
    rw [Run.bind_apply, Run.require]
    by_cases hr : HasRoom par p.dims
    · simp only [if_pos hr]
      rfl
    · simp only [if_neg hr]

theorem prepare_eq_error {h : Halt SolverError} (he : prepare par init p w = .error h v) :
    (∃ d, defect? par init p = some d ∧ h = .error d.error) ∨ h = .misuse := by
  unfold prepare at he
  rcases Run.bind_eq_error.mp he with he | ⟨-, _, -, he⟩
  · cases hd : defect? par init p with
    | none => rw [hd] at he; cases he
    | some d =>
      rw [hd] at he
      cases he
      exact Or.inl ⟨d, rfl, rfl⟩
  rcases Run.bind_eq_error.mp he with he | ⟨-, _, -, he⟩
  · cases he
  rcases Run.bind_eq_error.mp he with he | ⟨-, _, -, he⟩
  · cases he
  rcases Run.bind_eq_error.mp he with he | ⟨_, _, -, he⟩
  · exact Or.inr (Run.demand_eq_error.mp he).2.1
  rcases Run.bind_eq_error.mp he with he | ⟨-, _, -, he⟩
  · exact Or.inr (Run.require_eq_error.mp he).2.1
  rcases Run.bind_eq_error.mp he with he | ⟨-, _, -, he⟩
  · cases he
  · exact absurd he Run.pure_ne_error

theorem prepare_ne_excessIter : prepare par init p w ≠ .error (.error .excessIter) v := by
  intro h
  rcases prepare_eq_error h with ⟨d, -, hd⟩ | hd
  · injection hd with hd
    exact defect_error_ne_excessIter d hd.symm
  · cases hd

end Prepare

/-! ## The iterations of a run -/

/-- Iteration `i` of a run, whether or not one before it would have stopped the run. -/
def iteration (par : Params F) (init : Option (List (Array F))) (p : Problem σ F) (i : Nat) :
    Run σ F SolverError (Sight F) := do
  let proj ← prepare par init p
  let q ← course par p.proxes proj i (begin par p.dims proj init)
  look par p.proxes proj q

def residuals? (par : Params F) (init : Option (List (Array F))) (p : Problem σ F)
    (w : World σ F) (i : Nat) : Option (F × F) :=
  match iteration par init p i w with
  | .ok s _ => some (s.measure.primal, s.measure.dual)
  | .error _ _ => none

/-- In iteration `i` the blocks answer `xs`. -/
def AnswersAt (par : Params F) (init : Option (List (Array F))) (p : Problem σ F)
    (w : World σ F) (i : Nat) (xs : List (Array F)) : Prop :=
  ∃ proj u q t v, prepare par init p w = .ok proj u ∧
    course par p.proxes proj i (begin par p.dims proj init) u = .ok q t ∧
    Answers par.rho q.v p.proxes 0 (opened par q.iter t) xs v

/-- Both residuals of iteration `i` are within the tolerances. -/
def ConvergesAt (par : Params F) (init : Option (List (Array F))) (p : Problem σ F)
    (w : World σ F) (i : Nat) : Prop :=
  ∃ r₀ r, residuals? par init p w 0 = some r₀ ∧ residuals? par init p w i = some r ∧
    r.1 ≤ par.epsAbs + par.epsRel * r₀.1 ∧ r.2 ≤ par.epsAbs + par.epsRel * r₀.2

def FirstConvergesAt (par : Params F) (init : Option (List (Array F))) (p : Problem σ F)
    (w : World σ F) (i : Nat) : Prop :=
  ConvergesAt par init p w i ∧ ∀ j < i, ¬ ConvergesAt par init p w j

section Iterations

variable {par : Params F} {init : Option (List (Array F))} {p : Problem σ F}
  {proj : Projection F} {w u v : World σ F}

theorem iteration_eq_ok {i : Nat} {s : Sight F} :
    iteration par init p i w = .ok s v ↔
      ∃ proj u q t, prepare par init p w = .ok proj u ∧
        course par p.proxes proj i (begin par p.dims proj init) u = .ok q t ∧
        look par p.proxes proj q t = .ok s v := by
  unfold iteration
  simp only [Run.bind_eq_ok]
  constructor
  · rintro ⟨proj, u, hp, q, t, hq, hs⟩
    exact ⟨proj, u, q, t, hp, hq, hs⟩
  · rintro ⟨proj, u, q, t, hp, hq, hs⟩
    exact ⟨proj, u, hp, q, t, hq, hs⟩

theorem residuals?_eq_some (hp : prepare par init p w = .ok proj u) {i : Nat} {r : F × F} :
    residuals? par init p w i = some r ↔
      ∃ s, Sees par p.proxes proj (begin par p.dims proj init) u i s ∧
        r = (s.measure.primal, s.measure.dual) := by
  unfold residuals?
  constructor
  · intro h
    cases hi : iteration par init p i w with
    | error e t => rw [hi] at h; cases h
    | ok s t =>
      rw [hi] at h
      obtain ⟨proj', u', q, t', hp', hq, hs⟩ := iteration_eq_ok.mp hi
      rw [hp] at hp'
      cases hp'
      exact ⟨s, ⟨q, t', t, hq, hs⟩, (Option.some.inj h).symm⟩
  · rintro ⟨s, ⟨q, t, v, hq, hs⟩, rfl⟩
    rw [iteration_eq_ok.mpr ⟨proj, u, q, t, hp, hq, hs⟩]

theorem prepare_of_residuals? {i : Nat} {r : F × F} (h : residuals? par init p w i = some r) :
    ∃ proj u, prepare par init p w = .ok proj u := by
  unfold residuals? at h
  split at h
  · rename_i s v hi
    obtain ⟨proj, u, q, t, hp, -⟩ := iteration_eq_ok.mp hi
    exact ⟨proj, u, hp⟩
  · cases h

theorem converges_iff (hp : prepare par init p w = .ok proj u) {i : Nat} {q : Progress F}
    {t t' : World σ F} {s : Sight F}
    (hq : course par p.proxes proj i (begin par p.dims proj init) u = .ok q t)
    (hs : look par p.proxes proj q t = .ok s t') :
    Converges par q s ↔ ConvergesAt par init p w i := by
  have hi : Sees par p.proxes proj (begin par p.dims proj init) u i s := ⟨q, t, t', hq, hs⟩
  have hr : residuals? par init p w i = some (s.measure.primal, s.measure.dual) :=
    (residuals?_eq_some hp).mpr ⟨s, hi, rfl⟩
  obtain ⟨s₀, h₀⟩ : ∃ s₀, Sees par p.proxes proj (begin par p.dims proj init) u 0 s₀ := by
    cases i with
    | zero => exact ⟨s, hi⟩
    | succ i => exact Sees.of_course hq (Nat.succ_pos i)
  have hr₀ : residuals? par init p w 0 = some (s₀.measure.primal, s₀.measure.dual) :=
    (residuals?_eq_some hp).mpr ⟨s₀, h₀, rfl⟩
  unfold Converges ConvergesAt converged
  rw [course_reference hq rfl h₀ hi, hr₀, hr]
  simp

theorem reaches_of_course (hp : prepare par init p w = .ok proj u) {n : Nat} {q : Progress F}
    (hq : course par p.proxes proj n (begin par p.dims proj init) u = .ok q v)
    (hc : ∀ i < n, ¬ ConvergesAt par init p w i)
    (hl : ∀ M, par.maxIter = some M → n < M) :
    Reaches par p.proxes proj (begin par p.dims proj init) u n q v := by
  refine reaches_iff.mpr ⟨hq, fun i hi => ?_⟩
  obtain ⟨s, r, t, t', hr, hs⟩ := Sees.of_course hq hi
  refine ⟨r, t, s, t', hr, hs, not_or.mpr ⟨?_, ?_⟩⟩
  · rw [converges_iff hp hr hs]
    exact hc i hi
  · intro h
    obtain ⟨M, hM, hle⟩ := isLast_iff.mp h
    have hiter : r.iter = i := by rw [course_iter hr]; exact Nat.zero_add i
    have := hl M hM
    omega

theorem not_convergesAt_of_reaches (hp : prepare par init p w = .ok proj u) {n : Nat}
    {q : Progress F}
    (h : Reaches par p.proxes proj (begin par p.dims proj init) u n q v) :
    ∀ i < n, ¬ ConvergesAt par init p w i := by
  intro i hi
  obtain ⟨r, t, s, t', hr, hs, hn⟩ := (reaches_iff.mp h).2 i hi
  rw [← converges_iff hp hr hs]
  exact (not_or.mp hn).1

/-! ## The end of a run -/

theorem solve_eq_some {budget : Nat} {a : Solution F} :
    solve budget par init p w = .ok (some a) v ↔
      ∃ i proj u q t s t', i < par.maxIter.getD budget ∧ prepare par init p w = .ok proj u ∧
        course par p.proxes proj i (begin par p.dims proj init) u = .ok q t ∧
        look par p.proxes proj q t = .ok s t' ∧ FirstConvergesAt par init p w i ∧
        a = q.solution p.dims s ∧ v = ended i s .converged t' := by
  unfold solve
  rw [Run.bind_eq_ok]
  constructor
  · rintro ⟨proj, u, hp, hi⟩
    obtain ⟨n, hn, q, t, hr, ht⟩ := iterate_eq_some.mp hi
    obtain ⟨s, t', hs, hc, ha, hv⟩ := turn_eq_done.mp ht
    have hq := (reaches_iff.mp hr).1
    have hiter : q.iter = n := by rw [course_iter hq]; exact Nat.zero_add n
    refine ⟨n, proj, u, q, t, s, t', hn, hp, hq, hs, ⟨?_, ?_⟩, ha, hiter ▸ hv⟩
    · exact (converges_iff hp hq hs).mp hc
    · exact not_convergesAt_of_reaches hp hr
  · rintro ⟨i, proj, u, q, t, s, t', hi, hp, hq, hs, ⟨hc, hfirst⟩, ha, hv⟩
    have hiter : q.iter = i := by rw [course_iter hq]; exact Nat.zero_add i
    have hr := reaches_of_course hp hq hfirst fun M hM => by rw [hM] at hi; exact hi
    refine ⟨proj, u, hp, iterate_eq_some.mpr ⟨i, hi, q, t, hr, turn_eq_done.mpr ?_⟩⟩
    exact ⟨s, t', hs, (converges_iff hp hq hs).mpr hc, ha, hiter.symm ▸ hv⟩

theorem solve_eq_excessIter {budget : Nat} :
    solve budget par init p w = .error (.error .excessIter) v ↔
      ∃ i proj u q t s t', par.maxIter = some (i + 1) ∧ prepare par init p w = .ok proj u ∧
        course par p.proxes proj i (begin par p.dims proj init) u = .ok q t ∧
        look par p.proxes proj q t = .ok s t' ∧ (∀ j ≤ i, ¬ ConvergesAt par init p w j) ∧
        v = ended i s .excessIter t' := by
  unfold solve
  rw [Run.bind_eq_error]
  constructor
  · rintro (h | ⟨proj, u, hp, hi⟩)
    · exact absurd h prepare_ne_excessIter
    obtain ⟨n, hn, q, t, hr, ht⟩ := iterate_eq_error.mp hi
    obtain ⟨s, t', hs, hc, hl, hv⟩ := turn_eq_excessIter.mp ht
    have hq := (reaches_iff.mp hr).1
    have hiter : q.iter = n := by rw [course_iter hq]; exact Nat.zero_add n
    obtain ⟨M, hM, hle⟩ := isLast_iff.mp hl
    rw [hM, Option.getD_some] at hn
    obtain rfl : M = n + 1 := by omega
    refine ⟨n, proj, u, q, t, s, t', hM, hp, hq, hs, fun j hj => ?_, hiter ▸ hv⟩
    rcases Nat.lt_or_eq_of_le hj with hlt | rfl
    · exact not_convergesAt_of_reaches hp hr j hlt
    · rw [← converges_iff hp hq hs]
      exact hc
  · rintro ⟨i, proj, u, q, t, s, t', hM, hp, hq, hs, hall, hv⟩
    have hiter : q.iter = i := by rw [course_iter hq]; exact Nat.zero_add i
    have hr := reaches_of_course hp hq (fun j hj => hall j (Nat.le_of_lt hj)) fun M hM' => by
      rw [hM] at hM'
      cases hM'
      exact Nat.lt_succ_self i
    refine Or.inr ⟨proj, u, hp, iterate_eq_error.mpr ⟨i, ?_, q, t, hr, turn_eq_excessIter.mpr ?_⟩⟩
    · rw [hM]
      exact Nat.lt_succ_self i
    · refine ⟨s, t', hs, ?_, isLast_iff.mpr ⟨i + 1, hM, by omega⟩, hiter.symm ▸ hv⟩
      rw [converges_iff hp hq hs]
      exact hall i (Nat.le_refl i)

/-- What an answer holds: the residuals of all iterations, and the points of the last one. -/
theorem solution_of_course (hp : prepare par init p w = .ok proj u) {i : Nat} {q : Progress F}
    {t t' : World σ F} {s : Sight F}
    (hq : course par p.proxes proj i (begin par p.dims proj init) u = .ok q t)
    (hs : look par p.proxes proj q t = .ok s t') :
    (q.solution p.dims s).iterations = i + 1 ∧
      (q.solution p.dims s).primal.size = i + 1 ∧ (q.solution p.dims s).dual.size = i + 1 ∧
      (∀ j ≤ i, ∃ r, residuals? par init p w j = some r ∧
        (q.solution p.dims s).primal[j]? = some r.1 ∧ (q.solution p.dims s).dual[j]? = some r.2) ∧
      (q.solution p.dims s).blocks.map Array.size = p.dims ∧
      AnswersAt par init p w i (q.solution p.dims s).blocks := by
  have hiter : q.iter = i := by rw [course_iter hq]; exact Nat.zero_add i
  obtain ⟨hps, hds, hall⟩ := course_history hq rfl rfl
  obtain ⟨xs, hxs, hx⟩ := proxPoints_eq_ok.mp (look_eq_ok.mp hs).1
  rw [Array.empty_append] at hx
  have hblocks : (q.solution p.dims s).blocks = xs := by
    show cut s.x (p.proxes.map Prox.dim) 0 = xs
    rw [hx, ← hxs.sizes, cut_stack]
  refine ⟨by simp [Progress.solution, hiter], by simp [Progress.solution, hps],
    by simp [Progress.solution, hds], fun j hj => ?_, ?_, ?_⟩
  · simp only [Progress.solution, Array.getElem?_push, hps, hds]
    rcases Nat.lt_or_eq_of_le hj with hlt | rfl
    · obtain ⟨s', h'⟩ := Sees.of_course hq hlt
      refine ⟨_, (residuals?_eq_some hp).mpr ⟨s', h', rfl⟩, ?_⟩
      rw [if_neg (by omega), if_neg (by omega)]
      exact hall j hlt s' h'
    · refine ⟨_, (residuals?_eq_some hp).mpr ⟨s, ⟨q, t, t', hq, hs⟩, rfl⟩, ?_⟩
      simp
  · rw [hblocks]
    exact hxs.sizes
  · rw [hblocks]
    exact ⟨proj, u, q, t, t', hp, hq, hxs⟩

end Iterations

end Splitting.Solver
