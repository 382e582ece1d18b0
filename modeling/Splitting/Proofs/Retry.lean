import Splitting.Demo.Covariance
import Splitting.Proofs.Double.Magnitude
import Splitting.Proofs.Limits
import Splitting.Proofs.Retention

/-!
# A second try

A run that has ended for want of iterations is tried once more with a looser tolerance. The second
run makes the same iterations, so the residuals of the first tell where it stops.
-/

namespace Splitting

variable {σ F ε α β : Type}

/-! ## Runs that only set something up -/

namespace Run

/-- The run ends with a value of this kind and leaves the state alone. -/
def Yields (Q : α → Prop) (m : Run σ F ε α) : Prop :=
  ∀ w, ∃ a v, m w = .ok a v ∧ v.state = w.state ∧ Q a

theorem yields_pure {Q : α → Prop} {a : α} (h : Q a) : Yields Q (pure a : Run σ F ε α) :=
  fun w => ⟨a, w, rfl, rfl, h⟩

theorem yields_note (e : Event F) : Yields (fun _ => True) (note e : Run σ F ε Unit) :=
  fun w => ⟨(), w.note e, rfl, World.state_note e w, trivial⟩

theorem Yields.bind {Q : α → Prop} {R : β → Prop} {m : Run σ F ε α} {f : α → Run σ F ε β}
    (h : Yields Q m) (hf : ∀ a, Q a → Yields R (f a)) : Yields R (m >>= f) := by
  intro w
  obtain ⟨a, v, hm, hv, ha⟩ := h w
  obtain ⟨b, u, hn, hu, hb⟩ := hf a ha v
  exact ⟨b, u, bind_eq_ok.mpr ⟨a, v, hm, hn⟩, hu.trans hv, hb⟩

theorem bind_demand_eq_ok {m : Run σ F ε (Option α)} {a : α} {w v : World σ F} :
    (m >>= demand) w = .ok a v ↔ m w = .ok (some a) v := by
  rw [bind_eq_ok]
  constructor
  · rintro ⟨o, u, hm, ho⟩
    obtain ⟨rfl, rfl⟩ := demand_eq_ok.mp ho
    exact hm
  · exact fun hm => ⟨some a, v, hm, rfl⟩

theorem bind_demand_eq_error {m : Run σ F ε (Option α)} {e : ε} {w v : World σ F} :
    (m >>= demand) w = .error (.error e) v ↔ m w = .error (.error e) v := by
  rw [bind_eq_error]
  constructor
  · rintro (hm | ⟨o, u, -, ho⟩)
    · exact hm
    · cases (demand_eq_error.mp ho).2.1
  · exact Or.inl

theorem answer_eq_ok {r : EStateM.Result ε σ α} {a : α} : answer r = .ok a ↔ ∃ w, r = .ok a w := by
  cases r <;> simp [answer]

end Run

namespace Settings

theorem countBelow_yields (limit : Nat) (env : Env) (name : String) :
    Run.Yields (fun _ => True) (countBelow limit env name : Run σ F ε (Option Nat)) := by
  unfold countBelow
  split
  · exact (Run.yields_note _).bind fun _ _ => Run.yields_pure trivial
  · exact Run.yields_pure trivial

theorem flag_yields (env : Env) (name : String) :
    Run.Yields (fun _ => True) (flag env name : Run σ F ε (Option Bool)) :=
  (countBelow_yields _ env name).bind fun _ _ => Run.yields_pure trivial

theorem float_yields (env : Env) (name : String) :
    Run.Yields (fun _ => True) (float env name : Run σ F ε (Option Float)) := by
  unfold float
  split
  · exact (Run.yields_note _).bind fun _ _ => Run.yields_pure trivial
  · exact Run.yields_pure trivial

theorem params_yields (env : Env) {p : Params Float} (hp : p.maxIter.isSome = true) :
    Run.Yields (fun q => q.maxIter.isSome = true) (params env p : Run σ F ε (Params Float)) := by
  unfold params
  refine (countBelow_yields _ env _).bind fun maxIter _ => ?_
  refine (float_yields env _).bind fun _ _ => ?_
  refine (float_yields env _).bind fun _ _ => ?_
  refine (float_yields env _).bind fun _ _ => ?_
  refine (flag_yields env _).bind fun _ _ => ?_
  refine (countBelow_yields _ env _).bind fun _ _ => ?_
  refine (float_yields env _).bind fun _ _ => ?_
  refine (countBelow_yields _ env _).bind fun _ _ => Run.yields_pure ?_
  cases maxIter with
  | none => exact hp
  | some n => rfl

end Settings

/-! ## The same run again -/

namespace Solver

variable [Scalar F] [Spectral F]

/-- Where a run stands before iteration `i`, whether or not one before it would have stopped it. -/
def standing (par : Params F) (init : Option (List (Array F))) (p : Problem σ F) (i : Nat) :
    Run σ F SolverError (Progress F) := do
  let proj ← prepare par init p
  course par p.proxes proj i (begin par p.dims proj init)

def WithinAt (epsAbs epsRel : F) (par : Params F) (init : Option (List (Array F)))
    (p : Problem σ F) (w : World σ F) (i : Nat) : Prop :=
  ∃ r₀ r, residuals? par init p w 0 = some r₀ ∧ residuals? par init p w i = some r ∧
    r.1 ≤ epsAbs + epsRel * r₀.1 ∧ r.2 ≤ epsAbs + epsRel * r₀.2

def FirstWithinAt (epsAbs epsRel : F) (par : Params F) (init : Option (List (Array F)))
    (p : Problem σ F) (w : World σ F) (i : Nat) : Prop :=
  WithinAt epsAbs epsRel par init p w i ∧ ∀ j < i, ¬ WithinAt epsAbs epsRel par init p w j

section Again

variable {par par' : Params F} {init : Option (List (Array F))} {p : Problem σ F}
  {w w' v : World σ F}

/-- Both runs stand in the same places before their iterations, and see the same there. -/
def SameIterates (par par' : Params F) (init : Option (List (Array F))) (p : Problem σ F)
    (w w' : World σ F) : Prop :=
  ∀ i, Run.answer (standing par' init p i w') = Run.answer (standing par init p i w) ∧
    Run.answer (iteration par' init p i w') = Run.answer (iteration par init p i w)

theorem sameIterates_of_forgets {P : σ → Prop} (hm : par.SameMethod par')
    (hv : par.broken? = none) (hv' : par'.broken? = none) (hp : ∀ q ∈ p.proxes, q.Forgets P)
    (hw : P w.state) (hw' : P w'.state) : SameIterates par par' init p w w' := by
  have hstanding (i : Nat) : Run.Tied (World.Both P) Eq (standing par init p i)
      (standing par' init p i) := by
    unfold standing
    refine Run.tied_bind (prepare_same hm hv hv') ?_
    rintro proj _ rfl -
    rw [begin_congr hm]
    exact course_tied hm hp i _
  exact fun i => ⟨(hstanding i w w' ⟨hw, hw'⟩).answer_eq.symm,
    (iteration_tied hm hv hv' hp i w w' ⟨hw, hw'⟩).answer_eq.symm⟩

theorem SameIterates.convergesAt_iff (h : SameIterates par par' init p w w') (i : Nat) :
    ConvergesAt par' init p w' i ↔ WithinAt par'.epsAbs par'.epsRel par init p w i := by
  unfold ConvergesAt WithinAt
  rw [residuals?_of_answer (h 0).2, residuals?_of_answer (h i).2]

theorem SameIterates.firstConvergesAt_iff (h : SameIterates par par' init p w w') (i : Nat) :
    FirstConvergesAt par' init p w' i ↔ FirstWithinAt par'.epsAbs par'.epsRel par init p w i := by
  unfold FirstConvergesAt FirstWithinAt
  simp only [h.convergesAt_iff]

theorem iterations_of_excessIter {budget : Nat}
    (h : solve budget par init p w = .error (.error .excessIter) v) :
    par.broken? = none ∧ ∃ M s u, par.maxIter = some (M + 1) ∧
      iteration par init p M w = .ok s u := by
  obtain ⟨M, proj, u, q, t, s, t', hM, hp, hq, hs, -⟩ := solve_eq_excessIter.mp h
  exact ⟨broken?_of_defect? (prepare_eq_ok.mp hp).1, M, s, t', hM,
    iteration_eq_ok.mpr ⟨proj, u, q, t, hp, hq, hs⟩⟩

/-- After a run that has ended for want of iterations one with the same iterates and the same limit
stops at the first of them whose residuals are within its own tolerances, with the points seen
there; and if there is none it ends for want of iterations again. -/
theorem SameIterates.solve (hsame : SameIterates par par' init p w w') {budget M : Nat}
    (budget' : Nat) (h : solve budget par init p w = .error (.error .excessIter) v)
    (hM : par.maxIter = some M) (hM' : par'.maxIter = some M) :
    (∀ k, (∃ a u, solve budget' par' init p w' = .ok (some a) u ∧ a.iterations = k) ↔
      ∃ i < M, k = i + 1 ∧ FirstWithinAt par'.epsAbs par'.epsRel par init p w i) ∧
    (∀ a u, solve budget' par' init p w' = .ok (some a) u →
      ∃ s t, iteration par init p (a.iterations - 1) w = .ok s t ∧ a.blocks = cut s.x p.dims 0) ∧
    ((∃ u, solve budget' par' init p w' = .error (.error .excessIter) u) ↔
      ∀ i < M, ¬ WithinAt par'.epsAbs par'.epsRel par init p w i) := by
  obtain ⟨-, N, s₀, u₀, hN, hs₀⟩ := iterations_of_excessIter h
  obtain rfl : M = N + 1 := Option.some.inj (hM.symm.trans hN)
  refine ⟨fun k => ⟨?_, ?_⟩, fun a u ha => ?_, ⟨?_, fun hall => ?_⟩⟩
  · rintro ⟨a, u, ha, rfl⟩
    obtain ⟨i, proj, t, q, t', s, t'', hlt, hp, hq, hs, hfirst, rfl, -⟩ := solve_eq_some.mp ha
    rw [hM', Option.getD_some] at hlt
    exact ⟨i, hlt, (solution_of_course hp hq hs).1, (hsame.firstConvergesAt_iff i).mp hfirst⟩
  · rintro ⟨i, hlt, rfl, hfirst⟩
    refine solve_eq_some_of_firstConvergesAt ((hsame.firstConvergesAt_iff i).mpr hfirst) ?_
    rwa [hM', Option.getD_some]
  · obtain ⟨i, proj, t, q, t', s, t'', -, hp, hq, hs, -, rfl, -⟩ := solve_eq_some.mp ha
    have hsight : Run.answer (iteration par init p i w) = .ok s := by
      rw [← (hsame i).2, iteration_eq_ok.mpr ⟨proj, t, q, t', hp, hq, hs⟩]
      rfl
    obtain ⟨x, hx⟩ := Run.answer_eq_ok.mp hsight
    rw [(solution_of_course hp hq hs).1]
    exact ⟨s, x, hx, rfl⟩
  · rintro ⟨u, hu⟩ i hlt
    obtain ⟨K, proj, t, q, t', s, t'', hK, -, -, -, hall, -⟩ := solve_eq_excessIter.mp hu
    rw [← hsame.convergesAt_iff]
    rw [hM'] at hK
    cases hK
    exact hall i (Nat.le_of_lt_succ hlt)
  · have hsight : Run.answer (iteration par' init p N w') = .ok s₀ := by
      rw [(hsame N).2, hs₀]
      rfl
    obtain ⟨u, hu⟩ := Run.answer_eq_ok.mp hsight
    obtain ⟨proj, t, q, t', hp, hq, hs⟩ := iteration_eq_ok.mp hu
    refine ⟨_, solve_eq_excessIter.mpr ⟨N, proj, t, q, t', s₀, u, hM', hp, hq, hs, fun j hj => ?_,
      rfl⟩⟩
    rw [hsame.convergesAt_iff]
    exact hall j (Nat.lt_succ_of_le hj)

theorem solve_ne_none {M budget : Nat} (hM : par.maxIter = some M) :
    solve budget par init p w ≠ .ok none v := by
  intro h
  unfold solve at h
  obtain ⟨proj, u, hp, hi⟩ := Run.bind_eq_ok.mp h
  rw [hM, Option.getD_some] at hi
  obtain ⟨q, t, hr, -⟩ | ⟨n, -, q, t, -, ⟨a, x, -, hx⟩ | ⟨e, x, -, hx⟩⟩ :=
    iterate_cases par p.proxes proj M (begin par p.dims proj init) u
  · -- the last iteration that the limit allows would have stopped the run
    have hpos : M ≠ 0 := fun hzero =>
      (Params.broken?_eq_none.mp (broken?_of_defect? (prepare_eq_ok.mp hp).1)).1 (hzero ▸ hM)
    obtain ⟨r, x, s, y, hc, -, hn⟩ := (reaches_iff.mp hr).2 (M - 1) (by omega)
    have hiter : r.iter = M - 1 := by rw [course_iter hc]; exact Nat.zero_add _
    exact hn (Or.inr (isLast_iff.mpr ⟨M, hM, by omega⟩))
  · rw [hx] at hi
    cases hi
  · rw [hx] at hi
    cases hi

end Again

end Solver

/-! ## The looser tolerance -/

theorem Covariance.problem_of_neg {γ : Type} [Scalar F] [Spectral F] (prob : Covariance F)
    {alpha : F} (h : ¬ 0 ≤ alpha) (w : World γ F) :
    prob.problem alpha w = .error (.error (.invalidParam "alpha must be non-negative"))
      (w.note (.refused .alpha)) := by
  unfold problem
  rw [if_pos h]
  rfl

namespace Demo

open Solver

variable {par : Params Float} {alpha : Float} {init : Option (List (Array Float))}

theorem sameMethod_relaxed (par : Params Float) : par.SameMethod (relaxed par) :=
  ⟨rfl, rfl, rfl, rfl, rfl⟩

open Double in
theorem mul_ten_nonneg {a : Float} (h : 0 ≤ a) : 0 ≤ a * 10.0 := by
  have hten : NonNeg (10.0 : Float).toModel.unpack := nonneg_iff.mp (by decide +kernel)
  have hzero : (0 : Float) * 10.0 = 0 := by decide +kernel
  have hmul := mul_mono zero_nonneg h hten (by decide +kernel) (Or.inr (by decide +kernel))
  exact hzero ▸ hmul

theorem broken?_relaxed (h : par.broken? = none) : (relaxed par).broken? = none := by
  obtain ⟨hmax, hrho, habs, hrest⟩ := Params.broken?_eq_none.mp h
  exact Params.broken?_eq_none.mpr ⟨hmax, hrho, mul_ten_nonneg habs, hrest⟩

section Solves

variable {σ : Type} {p : Problem σ Float} {w v : World σ Float}

theorem solveTwice_of_ok {a : Option (Solution Float)} (h : solve 0 par init p w = .ok a v) :
    solveTwice par alpha init p w = .ok a v := by
  unfold solveTwice
  rw [h]

theorem isRecoverable_iff {e : SolverError} : e.isRecoverable = true ↔ e = .excessIter := by
  cases e <;> simp [SolverError.isRecoverable]

theorem solveTwice_of_error {h : Halt SolverError} (hh : h ≠ .error .excessIter)
    (hs : solve 0 par init p w = .error h v) : solveTwice par alpha init p w = .error h v := by
  unfold solveTwice
  rw [hs]
  cases h with
  | misuse => rfl
  | error e =>
    have he : ¬ e.isRecoverable = true := fun he => hh (congrArg _ (isRecoverable_iff.mp he))
    simp only [he]
    rfl

theorem solveTwice_of_excessIter (h : solve 0 par init p w = .error (.error .excessIter) v) :
    solveTwice par alpha init p w =
      solve 0 (relaxed par) init p (v.note (.retrying alpha .excessIter)) := by
  unfold solveTwice
  rw [h]
  rfl

end Solves

/-! ## The policy -/

theorem solveAlpha_apply {env : Settings.Env} {prob : Covariance Float}
    {w u : World (LogDet.Scratch Float) Float}
    (hpar : (Settings.params env covarianceParams : Run _ _ SolverError _) w = .ok par u) :
    solveAlpha env prob alpha init w =
      (prob.problem alpha >>= fun p => solveTwice par alpha init p >>= Run.demand) u := by
  unfold solveAlpha
  rw [Run.bind_apply, hpar]

/-- The outcome `r` of a second try, after a first one that started in the world `u` and ended in
the world `v` for want of iterations. -/
structure TriedAgain {σ : Type} (par : Params Float) (limit : Nat) (alpha : Float)
    (init : Option (List (Array Float))) (p : Problem σ Float) (u v : World σ Float)
    (r : EStateM.Result (Halt SolverError) (World σ Float) (Solution Float)) : Prop where
  /-- One more solve makes the outcome. -/
  second : r = (solve 0 (relaxed par) init p >>= Run.demand) (v.note (.retrying alpha .excessIter))
  same : SameIterates par (relaxed par) init p u (v.note (.retrying alpha .excessIter))
  ok_iff : ∀ k, (∃ a t, r = .ok a t ∧ a.iterations = k) ↔
    ∃ i < limit, k = i + 1 ∧ FirstWithinAt (par.epsAbs * 10) par.epsRel par init p u i
  blocks : ∀ a t, r = .ok a t → ∃ s x, iteration par init p (a.iterations - 1) u = .ok s x ∧
    a.blocks = cut s.x p.dims 0
  excessIter_iff : (∃ t, r = .error (.error .excessIter) t) ↔
    ∀ i < limit, ¬ WithinAt (par.epsAbs * 10) par.epsRel par init p u i

theorem triedAgain {σ : Type} {limit : Nat} {p : Problem σ Float} {u v : World σ Float}
    (hlimit : par.maxIter = some limit)
    (h : solve 0 par init p u = .error (.error .excessIter) v)
    (hsame : SameIterates par (relaxed par) init p u (v.note (.retrying alpha .excessIter))) :
    TriedAgain par limit alpha init p u v
      ((solve 0 (relaxed par) init p >>= Run.demand) (v.note (.retrying alpha .excessIter))) := by
  obtain ⟨hok, hblocks, hexcess⟩ := hsame.solve 0 h hlimit hlimit
  refine ⟨rfl, hsame, fun k => ?_, fun a t ha => ?_, ?_⟩
  · simp only [Run.bind_demand_eq_ok]
    exact hok k
  · exact hblocks a t (Run.bind_demand_eq_ok.mp ha)
  · simp only [Run.bind_demand_eq_error]
    exact hexcess

/-- A weight that is negative or not a number is refused without a try. Any outcome of the first try
but the want of iterations stands. After it there is a second try, which makes the iterations of the
first again with a tenfold absolute tolerance: it stops at the first one whose residuals, as the
first try has found them, are within the looser tolerances. -/
theorem solveAlpha_retries (env : Settings.Env) (prob : Covariance Float) (alpha : Float)
    (init : Option (List (Array Float))) {w : World (LogDet.Scratch Float) Float}
    (hw : w.state = prob.logDet.scratch) :
    ∃ par limit u,
      (Settings.params env covarianceParams : Run _ _ SolverError _) w = .ok par u ∧
      par.maxIter = some limit ∧
      (¬ 0 ≤ alpha → ∃ h v, prob.problem alpha u = .error h v ∧
        solveAlpha env prob alpha init w = .error h v) ∧
      (0 ≤ alpha → prob.problem alpha u = .ok (prob.parts alpha) u ∧
        (∀ v, solve 0 par init (prob.parts alpha) u ≠ .ok none v) ∧
        (∀ a v, solve 0 par init (prob.parts alpha) u = .ok (some a) v →
          solveAlpha env prob alpha init w = .ok a v) ∧
        (∀ h v, solve 0 par init (prob.parts alpha) u = .error h v → h ≠ .error .excessIter →
          solveAlpha env prob alpha init w = .error h v) ∧
        ∀ v, solve 0 par init (prob.parts alpha) u = .error (.error .excessIter) v →
          TriedAgain par limit alpha init (prob.parts alpha) u v
            (solveAlpha env prob alpha init w)) := by
  obtain ⟨par, u, hpar, hu, hlimit⟩ := Settings.params_yields (ε := SolverError) env
    (p := covarianceParams) rfl w
  obtain ⟨limit, hlimit⟩ := Option.isSome_iff_exists.mp hlimit
  have hrun := @solveAlpha_apply par alpha init env prob w u hpar
  refine ⟨par, limit, u, hpar, hlimit, fun hneg => ?_, fun hpos => ?_⟩
  · rw [hrun, Run.bind_apply, prob.problem_of_neg hneg]
    exact ⟨_, _, rfl, rfl⟩
  rw [hrun, Run.bind_apply, prob.problem_of_nonneg hpos]
  refine ⟨rfl, fun v => solve_ne_none hlimit, fun a v h => ?_, fun h v hs hne => ?_, fun v h => ?_⟩
  · exact Run.bind_demand_eq_ok.mpr (solveTwice_of_ok h)
  · exact Run.bind_eq_error.mpr (Or.inl (solveTwice_of_error hne hs))
  · -- the first try leaves the operators in a state from which they answer as fresh ones do
    have hforgets := prob.parts_forget alpha
    have hfresh : u.state.image.shape = .packed prob.side := by
      rw [hu, hw]
      rfl
    have hleft := (solve_respects hforgets 0 par init).left hfresh
    rw [h] at hleft
    have hv := (iterations_of_excessIter h).1
    have hsame : SameIterates par (relaxed par) init (prob.parts alpha) u
        (v.note (.retrying alpha .excessIter)) :=
      sameIterates_of_forgets (sameMethod_relaxed par) hv (broken?_relaxed hv) hforgets hfresh
        (by rw [World.state_note]; exact hleft)
    have hsecond := triedAgain hlimit h hsame
    show TriedAgain par limit alpha init (prob.parts alpha) u v
      ((solveTwice par alpha init (prob.parts alpha) >>= Run.demand) u)
    rw [Run.bind_apply, solveTwice_of_excessIter h, ← Run.bind_apply]
    exact hsecond

/-! ## A run -/

def single : Covariance Float where
  sample := Matrix.ofFn (.packed 1) fun _ _ => 1
  truth := none
  epsZero := 1e-12

/-- Three accelerated iterations, of which the second comes within ten times the tolerance. -/
def hasty : Settings.Env := fun name =>
  if name = "MAX_ITER" then some "3"
  else if name = "EPS_ABS" then some "0.03"
  else if name = "ANDERSON" then some "1"
  else none

theorem single_retries :
    let w : World (LogDet.Scratch Float) Float := .start single.logDet.scratch none
    w.state = single.logDet.scratch ∧ ∃ par u v a t,
      (Settings.params hasty covarianceParams : Run _ _ SolverError _) w = .ok par u ∧
      solve 0 par none (single.parts 0.25) u = .error (.error .excessIter) v ∧
      solveAlpha hasty single 0.25 none w = .ok a t ∧ a.iterations = 2 ∧
      FirstWithinAt (par.epsAbs * 10) par.epsRel par none (single.parts 0.25) u 1 := by
  intro w
  have hfirst : Run.halt? ((Settings.params hasty covarianceParams >>= fun par =>
      solve 0 par none (single.parts 0.25)) w) = some (.error .excessIter) := by
    decide +kernel
  have hsecond : (Run.value? (solveAlpha hasty single 0.25 none w)).map
      Solution.iterations = some 2 := by decide +kernel
  have halpha : (0 : Float) ≤ 0.25 := by decide +kernel
  obtain ⟨par, limit, u, hpar, -, -, hall⟩ := solveAlpha_retries hasty single 0.25 none
    (w := w) rfl
  obtain ⟨v, hv⟩ := Run.halt?_eq_some.mp hfirst
  rw [Run.bind_apply, hpar] at hv
  obtain ⟨a, ha, hiter⟩ := Option.map_eq_some_iff.mp hsecond
  obtain ⟨t, ht⟩ := Run.value?_eq_some.mp ha
  obtain ⟨-, -, -, -, hagain⟩ := hall halpha
  obtain ⟨i, -, hi, hwithin⟩ := ((hagain v hv).ok_iff 2).mp ⟨a, t, ht, hiter⟩
  cases hi
  exact ⟨rfl, par, u, v, a, t, hpar, hv, ht, hiter, hwithin⟩

end Demo

end Splitting
