import Splitting.Proofs.Acceptance
import Splitting.Proofs.Stopping
import Splitting.Prox.AbsSum

/-!
# No misuse

The vectors of a run keep their lengths from one iteration to the next. So a run of an accepted
problem breaks off only if a block fails.
-/

namespace Splitting

variable {σ F : Type}

theorem Prox.apply_ne_misuse {q : Prox σ F} {t : F} (hq : q.Sound t) {v : Array F}
    (hv : v.size = q.dim) (w w' : World σ F) : q.apply t v q.dim w ≠ .error .misuse w' := by
  intro h
  unfold apply at h
  rcases Run.bind_eq_error.mp h with h | ⟨-, u, -, h⟩
  · exact (Run.require_eq_error.mp h).1 ⟨hv, rfl⟩
  rcases Run.bind_eq_error.mp h with h | ⟨x, u', hx, h⟩
  · exact hq.ne_misuse _ _ _ hv h
  rcases Run.bind_eq_error.mp h with h | ⟨-, u'', -, h⟩
  · exact (Run.require_eq_error.mp h).1 (hq.size _ _ _ _ hv hx)
  · exact Run.pure_ne_error h

/-- With step size `t` the operator answers every point of its dimension. -/
def Prox.Total (q : Prox σ F) (t : F) : Prop :=
  ∀ v w, v.size = q.dim → ∃ x w', q.eval t v w = .ok x w' ∧ x.size = q.dim

theorem Prox.Total.sound {q : Prox σ F} {t : F} (h : q.Total t) : q.Sound t := by
  constructor
  · intro v w w' hv he
    obtain ⟨x, u, hx, -⟩ := h v w hv
    rw [hx] at he
    cases he
  · intro v w x w' hv he
    obtain ⟨y, u, hy, hs⟩ := h v w hv
    rw [he] at hy
    cases hy
    exact hs

theorem AbsSum.prox_total [Scalar F] (n : Nat) (alpha t : F) :
    (prox n alpha : Prox σ F).Total t := by
  intro v w hv
  exact ⟨_, w, rfl, by simpa using hv⟩

namespace Solver

theorem Answers.exists_of_total {rho : F} {v : Array F} {ps : List (Prox σ F)}
    (hs : ∀ q ∈ ps, q.Total rho) {start : Nat} (hv : start + total (ps.map Prox.dim) ≤ v.size)
    (w : World σ F) : ∃ xs w', Answers rho v ps start w xs w' := by
  induction ps generalizing start w with
  | nil => exact ⟨[], w, .nil start w⟩
  | cons p ps ih =>
    simp only [List.map_cons, total_cons] at hv
    have hsize : (v.extract start (start + p.dim)).size = p.dim := by simp; omega
    obtain ⟨x, u, hx, hsx⟩ := hs p (by simp) _ w hsize
    have hroom : start + p.dim + total (ps.map Prox.dim) ≤ v.size := by omega
    obtain ⟨xs, w', hxs⟩ := ih (fun q hq => hs q (by simp [hq])) hroom u
    exact ⟨x :: xs, w', .cons (apply_eq_ok.mpr ⟨hsize, rfl, hx, hsx⟩) hxs⟩

theorem proxPoints_ne_misuse {rho : F} {iter : Nat} {v : Array F} {ps : List (Prox σ F)}
    (hs : ∀ q ∈ ps, q.Sound rho) {block start : Nat} (hv : start + total (ps.map Prox.dim) ≤ v.size)
    (x : Array F) (w w' : World σ F) :
    proxPoints rho iter v ps block start x w ≠ .error .misuse w' := by
  induction ps generalizing block start x w with
  | nil => simp [proxPoints]
  | cons p ps ih =>
    simp only [List.map_cons, total_cons] at hv
    intro h
    unfold proxPoints at h
    split at h
    · exact ih (fun q hq => hs q (by simp [hq])) (by omega) _ _ h
    · cases h
    · rename_i he
      exact Prox.apply_ne_misuse (hs p (by simp)) (by simp; omega) _ _ he

theorem size_of_proxPoints {rho : F} {iter : Nat} {v x : Array F} {ps : List (Prox σ F)}
    {w w' : World σ F} (h : proxPoints rho iter v ps 0 0 #[] w = .ok x w') :
    x.size = total (ps.map Prox.dim) := by
  obtain ⟨xs, hxs, rfl⟩ := proxPoints_eq_ok.mp h
  rw [Array.empty_append, size_stack, hxs.sizes]

theorem stack_blocks [Scalar F] {par : Params F} {ps : List (Prox σ F)} {proj : Projection F}
    {p : Progress F} {w v : World σ F} {s : Sight F} (h : look par ps proj p w = .ok s v) :
    stack (cut s.x (ps.map Prox.dim) 0) = s.x :=
  stack_cut (size_of_proxPoints (look_eq_ok.mp h).1).symm

/-! ## Lengths from one iteration to the next -/

/-- Before an iteration all vectors of the run have their lengths: `n` entries for the blocks, `m`
for the right-hand side. -/
structure Progress.Sized (p : Progress F) (n m : Nat) : Prop where
  v : p.v.size = n
  scratch : p.scratch.Sized m
  acceleration : ∀ s, p.acceleration = some s → s.Sized n

variable [Scalar F]

/-! ## Before the first iteration -/

theorem defect?_eq_none {par : Params F} {init : Option (List (Array F))} {p : Problem σ F} :
    defect? par init p = none ↔ par.broken? = none ∧ p.shapeDefect? = none ∧
      ∀ vs, init = some vs → vs.map Array.size = p.dims := by
  unfold defect?
  cases par.broken? with
  | some rule => simp
  | none =>
    cases p.shapeDefect? with
    | some d => simp
    | none =>
      cases init with
      | none => simp
      | some vs => simp [Problem.initDefect?_eq_none]

theorem shapeDefect?_of_defect? {par : Params F} {init : Option (List (Array F))} {p : Problem σ F}
    (h : defect? par init p = none) : p.shapeDefect? = none := (defect?_eq_none.mp h).2.1

theorem broken?_of_defect? {par : Params F} {init : Option (List (Array F))} {p : Problem σ F}
    (h : defect? par init p = none) : par.broken? = none := (defect?_eq_none.mp h).1

theorem sizes_of_defect? {par : Params F} {vs : List (Array F)} {p : Problem σ F}
    (h : defect? par (some vs) p = none) : vs.map Array.size = p.dims :=
  (defect?_eq_none.mp h).2.2 vs rfl

theorem size_startPoint {par : Params F} {init : Option (List (Array F))} {p : Problem σ F}
    (h : defect? par init p = none) : (startPoint p.dims init : Array F).size = total p.dims := by
  cases init with
  | none => simp [startPoint]
  | some vs =>
    rw [← sizes_of_defect? h]
    exact size_stack vs

theorem begin_sized {par : Params F} {init : Option (List (Array F))} {p : Problem σ F}
    (h : defect? par init p = none) {proj : Projection F} (hr : proj.rhs = p.rhs) :
    (begin par p.dims proj init).Sized (total p.dims) p.rhs.size := by
  refine ⟨size_startPoint h, hr ▸ Projection.fresh_sized proj, fun s hs => ?_⟩
  dsimp only [begin] at hs
  split at hs
  · cases hs
    exact Anderson.initial_sized _
  · cases hs

theorem look_ne_misuse {par : Params F} {proxes : List (Prox σ F)} {proj : Projection F}
    {p : Progress F} {n : Nat} (hs : ∀ q ∈ proxes, q.Sound par.rho)
    (hn : total (proxes.map Prox.dim) = n)
    (hf : proj.Fits n) (hp : p.Sized n proj.rhs.size) (w v : World σ F) :
    look par proxes proj p w ≠ .error .misuse v := by
  intro h
  rw [look_apply] at h
  rcases Run.bind_eq_error.mp h with h | ⟨x, u, hx, h⟩
  · exact proxPoints_ne_misuse hs (by rw [hp.v, hn]; omega) _ _ _ h
  have hsx : x.size = n := by rw [size_of_proxPoints hx, hn]
  obtain ⟨m, hm, -⟩ := measure?_total hf par.rho hp.scratch hp.v hsx
  rcases Run.bind_eq_error.mp h with h | ⟨m', u', -, h⟩
  · have := (Run.demand_eq_error.mp h).1
    rw [hm] at this
    cases this
  · exact Run.pure_ne_error h

theorem look_total {par : Params F} {proxes : List (Prox σ F)} {proj : Projection F}
    {p : Progress F} {n : Nat} (hs : ∀ q ∈ proxes, q.Total par.rho)
    (hn : total (proxes.map Prox.dim) = n) (hf : proj.Fits n) (hp : p.Sized n proj.rhs.size)
    (w : World σ F) : ∃ s v, look par proxes proj p w = .ok s v := by
  have hroom : 0 + total (proxes.map Prox.dim) ≤ p.v.size := by rw [hp.v, hn]; omega
  obtain ⟨xs, v, hxs⟩ := Answers.exists_of_total hs hroom (opened par p.iter w)
  have hx : (stack xs).size = n := by rw [size_stack, hxs.sizes, hn]
  obtain ⟨m, hm, -⟩ := measure?_total hf par.rho hp.scratch hp.v hx
  refine ⟨⟨stack xs, m⟩, v, look_eq_ok.mpr ⟨?_, hm⟩⟩
  exact proxPoints_eq_ok.mpr ⟨xs, hxs, by rw [Array.empty_append]⟩

variable [Spectral F]

theorem nextPoint?_total (par : Params F) {m : Measure F} {n : Nat}
    (hm : m.image.size = n ∧ m.residual.size = n) {acceleration : Option (Anderson.State F)}
    (ha : ∀ s, acceleration = some s → s.Sized n) :
    ∃ v a rejected, nextPoint? par m acceleration = some (v, a, rejected) ∧ v.size = n ∧
      ∀ s, a = some s → s.Sized n := by
  cases acceleration with
  | none => exact ⟨m.image, none, none, rfl, hm.1, by simp⟩
  | some s =>
    obtain ⟨hj, hsafe⟩ := Anderson.judge_sized (ha s rfl) (Vec.norm m.residual)
    unfold nextPoint?
    dsimp only
    split
    · rename_i z t ht
      rw [ht] at hj hsafe
      exact ⟨z, some t, _, rfl, hsafe z rfl, by rintro _ ⟨⟩; exact hj⟩
    · rename_i t ht
      rw [ht] at hj
      obtain ⟨v, t', hv, hsv, ht'⟩ :=
        Anderson.advance?_total hj par.memory par.lambda par.epsZero (a := ⟨m.image, m.residual⟩) hm
      exact ⟨v, some t', none, by simp [hv], hsv, by rintro _ ⟨⟩; exact ht'⟩

section Run

variable {par : Params F} {proxes : List (Prox σ F)} {proj : Projection F} {p : Progress F}
  {n : Nat}

theorem pass_ne_misuse (hs : ∀ q ∈ proxes, q.Sound par.rho) (hn : total (proxes.map Prox.dim) = n)
    (hf : proj.Fits n) (hp : p.Sized n proj.rhs.size) (w v : World σ F) :
    pass par proxes proj p w ≠ .error .misuse v := by
  intro h
  rcases pass_eq_error.mp h with h | ⟨s, u, hl, hnone, -⟩
  · exact look_ne_misuse hs hn hf hp _ _ h
  have hm := sizes_of_measure? (look_eq_ok.mp hl).2
  rw [hp.v] at hm
  obtain ⟨x, a, r, hx, -⟩ := nextPoint?_total par hm hp.acceleration
  rw [hx] at hnone
  cases hnone

theorem pass_sized (hn : total (proxes.map Prox.dim) = n) (hf : proj.Fits n)
    (hp : p.Sized n proj.rhs.size) {q : Progress F} {w v : World σ F}
    (h : pass par proxes proj p w = .ok q v) : q.Sized n proj.rhs.size := by
  obtain ⟨s, u, x, a, r, hl, hx, rfl, -⟩ := pass_eq_ok.mp h
  obtain ⟨hprox, hmeasure⟩ := look_eq_ok.mp hl
  have hsx : s.x.size = n := by rw [size_of_proxPoints hprox, hn]
  obtain ⟨m, hm, hscratch⟩ := measure?_total hf par.rho hp.scratch hp.v hsx
  rw [hmeasure] at hm
  cases hm
  have hsizes := sizes_of_measure? hmeasure
  rw [hp.v] at hsizes
  obtain ⟨x', a', r', hx', hsv, ha⟩ := nextPoint?_total par hsizes hp.acceleration
  rw [hx] at hx'
  cases hx'
  exact ⟨hsv, hscratch, ha⟩

theorem course_sized (hn : total (proxes.map Prox.dim) = n) (hf : proj.Fits n)
    (hp : p.Sized n proj.rhs.size) {k : Nat} {q : Progress F} {w v : World σ F}
    (h : course par proxes proj k p w = .ok q v) : q.Sized n proj.rhs.size := by
  induction k generalizing q v with
  | zero =>
    obtain ⟨rfl, -⟩ := Run.pure_eq_ok.mp h
    exact hp
  | succ k ih =>
    obtain ⟨r, u, hr, hq⟩ := course_succ_eq_ok.mp h
    exact pass_sized hn hf (ih hr) hq

theorem course_ne_misuse (hs : ∀ q ∈ proxes, q.Sound par.rho) (hn : total (proxes.map Prox.dim) = n)
    (hf : proj.Fits n) (hp : p.Sized n proj.rhs.size) (k : Nat) (w v : World σ F) :
    course par proxes proj k p w ≠ .error .misuse v := by
  induction k generalizing v with
  | zero => exact Run.pure_ne_error
  | succ k ih =>
    intro h
    rcases Run.bind_eq_error.mp h with h | ⟨q, u, hq, h⟩
    · exact ih v h
    · exact pass_ne_misuse hs hn hf (course_sized hn hf hp hq) _ _ h

theorem course_total (hs : ∀ q ∈ proxes, q.Total par.rho) (hn : total (proxes.map Prox.dim) = n)
    (hf : proj.Fits n) (hp : p.Sized n proj.rhs.size) (k : Nat) (w : World σ F) :
    ∃ q v, course par proxes proj k p w = .ok q v := by
  induction k with
  | zero => exact ⟨p, w, rfl⟩
  | succ k ih =>
    obtain ⟨r, u, hr⟩ := ih
    have hsized := course_sized hn hf hp hr
    obtain ⟨s, t, hl⟩ := look_total hs hn hf hsized u
    have hm := sizes_of_measure? (look_eq_ok.mp hl).2
    rw [hsized.v] at hm
    obtain ⟨x, a, rejected, hx, -⟩ := nextPoint?_total par hm hsized.acceleration
    exact ⟨_, _, course_succ_eq_ok.mpr ⟨r, u, hr, pass_eq_ok.mpr ⟨s, t, x, a, rejected, hl, hx,
      rfl, rfl⟩⟩⟩

end Run

/-! ## Accepted problems -/

section Accepted

variable {par : Params F} {init : Option (List (Array F))} {p : Problem σ F}

theorem prepare_total (hd : defect? par init p = none) (hr : HasRoom par p.dims)
    (hs : ∀ g ∈ p.couplings, g.Sound) (w : World σ F) :
    ∃ proj v, prepare par init p w = .ok proj v := by
  obtain ⟨proj, hp⟩ := Projection.ofCouplings?_total hs (shapeDefect?_of_defect? hd) par.epsZero
  exact ⟨proj, _, prepare_eq_ok.mpr ⟨hd, hp, hr, rfl⟩⟩

theorem fits_of_prepare (hs : ∀ g ∈ p.couplings, g.Sound) {proj : Projection F} {w v : World σ F}
    (h : prepare par init p w = .ok proj v) :
    proj.rhs = p.rhs ∧ proj.Fits (total p.dims) ∧
      (begin par p.dims proj init).Sized (total p.dims) proj.rhs.size := by
  obtain ⟨hd, hp, -, -⟩ := prepare_eq_ok.mp h
  obtain ⟨-, hrhs, hfit⟩ := Projection.fits_of_ofCouplings? hs (shapeDefect?_of_defect? hd) hp
  refine ⟨hrhs, hfit, ?_⟩
  rw [hrhs]
  exact begin_sized hd hrhs

theorem iteration_total (hd : defect? par init p = none) (hr : HasRoom par p.dims)
    (hs : ∀ g ∈ p.couplings, g.Sound) (ht : ∀ q ∈ p.proxes, q.Total par.rho) (i : Nat)
    (w : World σ F) : ∃ s v, iteration par init p i w = .ok s v := by
  obtain ⟨proj, u, hp⟩ := prepare_total hd hr hs w
  obtain ⟨-, hf, hb⟩ := fits_of_prepare hs hp
  obtain ⟨q, t, hq⟩ := course_total ht rfl hf hb i u
  obtain ⟨s, v, hl⟩ := look_total ht rfl hf (course_sized rfl hf hb hq) t
  exact ⟨s, v, iteration_eq_ok.mpr ⟨proj, u, q, t, hp, hq, hl⟩⟩

theorem iteration_ne_misuse (hd : defect? par init p = none) (hr : HasRoom par p.dims)
    (hs : p.Sound par.rho) (i : Nat) (w v : World σ F) :
    iteration par init p i w ≠ .error .misuse v := by
  obtain ⟨proj, u, hp⟩ := prepare_total hd hr hs.couplings w
  obtain ⟨-, hf, hb⟩ := fits_of_prepare hs.couplings hp
  intro h
  unfold iteration at h
  rcases Run.bind_eq_error.mp h with h | ⟨proj', u', hp', h⟩
  · rw [hp] at h
    cases h
  rw [hp] at hp'
  cases hp'
  rcases Run.bind_eq_error.mp h with h | ⟨q, t, hq, h⟩
  · exact course_ne_misuse hs.proxes rfl hf hb _ _ _ h
  · exact look_ne_misuse hs.proxes rfl hf (course_sized rfl hf hb hq) _ _ h

theorem iteration_breaks (hd : defect? par init p = none) (hr : HasRoom par p.dims)
    (hs : p.Sound par.rho) {i : Nat} {w v : World σ F} {h : Halt SolverError}
    (he : iteration par init p i w = .error h v) :
    ∃ block q e, p.proxes[block]? = some q ∧ Fails par.rho q e ∧ h = .error (.ofProx block e) := by
  have hb : Breaks par.rho p.proxes h := by
    obtain ⟨proj, u, hp⟩ := prepare_total hd hr hs.couplings w
    unfold iteration at he
    rcases Run.bind_eq_error.mp he with he | ⟨proj', u', -, he⟩
    · rw [hp] at he
      cases he
    rcases Run.bind_eq_error.mp he with he | ⟨q, t, -, he⟩
    · exact course_breaks he
    · exact look_breaks he
  rcases hb with rfl | hb
  · exact absurd he (iteration_ne_misuse hd hr hs i w v)
  · exact hb

end Accepted

/-! ## The last iteration of an answer -/

/-- The measure of the last iteration is taken at the blocks of the answer, and both of its
residuals are within the tolerances. -/
structure LastMeasure (par : Params F) (p : Problem σ F) (a : Solution F) (proj : Projection F)
    (m : Measure F) : Prop where
  projection : Projection.ofCouplings? p.couplings p.dims p.rhs par.epsZero = some proj
  shapes : p.shapeDefect? = none
  sizes : a.blocks.map Array.size = p.dims
  measured : ∃ s v, measure? proj par.rho s v (stack a.blocks) = some m
  primal : a.primal.back? = some m.primal
  dual : a.dual.back? = some m.dual
  primal_le : ∃ r, a.primal[0]? = some r ∧ m.primal ≤ par.epsAbs + par.epsRel * r
  dual_le : ∃ r, a.dual[0]? = some r ∧ m.dual ≤ par.epsAbs + par.epsRel * r

theorem exists_lastMeasure {budget : Nat} {par : Params F} {init : Option (List (Array F))}
    {p : Problem σ F} {w v : World σ F} {a : Solution F}
    (h : solve budget par init p w = .ok (some a) v) : ∃ proj m, LastMeasure par p a proj m := by
  obtain ⟨i, proj, u, q, t, s, t', -, hp, hq, hl, ⟨⟨r₀, r, h₀, hr, hle₁, hle₂⟩, -⟩, rfl, -⟩ :=
    solve_eq_some.mp h
  obtain ⟨-, -, -, hall, hdims, -⟩ := solution_of_course hp hq hl
  obtain ⟨hd, hproj, -, -⟩ := prepare_eq_ok.mp hp
  obtain ⟨r₀', h₀', hfirst₁, hfirst₂⟩ := hall 0 (Nat.zero_le i)
  obtain rfl : r₀ = r₀' := Option.some.inj (h₀.symm.trans h₀')
  obtain rfl : r = (s.measure.primal, s.measure.dual) := by
    rw [(residuals?_eq_some hp).mpr ⟨s, ⟨q, t, t', hq, hl⟩, rfl⟩] at hr
    exact (Option.some.inj hr).symm
  exact ⟨proj, s.measure,
    { projection := hproj
      shapes := shapeDefect?_of_defect? hd
      sizes := hdims
      measured := ⟨q.scratch, q.v, (stack_blocks hl).symm ▸ (look_eq_ok.mp hl).2⟩
      primal := by simp [Progress.solution]
      dual := by simp [Progress.solution]
      primal_le := ⟨r₀.1, hfirst₁, hle₁⟩
      dual_le := ⟨r₀.2, hfirst₂, hle₂⟩ }⟩

end Solver

end Splitting
