import Splitting.Proofs.Calls
import Splitting.Proofs.Double.Order
import Splitting.Proofs.Monotone
import Splitting.Proofs.Relation
import Splitting.Proofs.Verdict
import Splitting.Prox.AbsSum
import Splitting.Spectrum.Rotation

/-!
# Limits and tolerances

The limit and the tolerances of a run choose where it stops, and nothing else. Two runs that differ
in them make the same iterations, as far as both go, and looser ones stop no later.
-/

namespace Splitting

open Prox (Call)

variable {σ F ε α β : Type}

/-! ## What depends on the state alone -/

namespace Run

/-- The value or halt that a run ends with, and the state that it leaves. -/
def outcome : EStateM.Result (Halt ε) (World σ F) α → Except (Halt ε) α × σ
  | .ok a w => (.ok a, w.state)
  | .error h w => (.error h, w.state)

/-- From the same state both runs have the same outcome, whatever the log. -/
def Alike (m n : Run σ F ε α) : Prop :=
  ∀ w v, w.state = v.state → outcome (m w) = outcome (n v)

theorem outcome_eq_iff {r r' : EStateM.Result (Halt ε) (World σ F) α} :
    outcome r = outcome r' ↔ EndsIn (World.Linked Eq) Eq r r' := by
  cases r <;> cases r' <;> simp [outcome, EndsIn, World.Linked]

theorem alike_iff {m n : Run σ F ε α} : Alike m n ↔ Tied (World.Linked Eq) Eq m n :=
  forall₃_congr fun _ _ _ => outcome_eq_iff

end Run

/-- What the operator answers and the state it leaves depend on its state and on the call alone. -/
def Prox.Oblivious (q : Prox σ F) : Prop := ∀ t v, Run.Alike (q.eval t v) (q.eval t v)

theorem Prox.Oblivious.respects {q : Prox σ F} (h : q.Oblivious) :
    q.Respects (World.Linked Eq) :=
  fun t v => Run.alike_iff.mp (h t v)

theorem AbsSum.prox_oblivious [Scalar F] (n : Nat) (alpha : F) :
    (prox n alpha : Prox σ F).Oblivious :=
  fun _ _ => Run.alike_iff.mpr (Run.tied_pure rfl)

/-- The parameters differ in the limit, the tolerances and the logging at most. -/
structure Params.SameMethod (par par' : Params F) : Prop where
  rho : par.rho = par'.rho
  anderson : par.anderson = par'.anderson
  memory : par.memory = par'.memory
  lambda : par.lambda = par'.lambda
  epsZero : par.epsZero = par'.epsZero

/-- The second parameters have a limit and tolerances that are no stricter. -/
structure Params.Looser [Scalar F] (par par' : Params F) : Prop where
  epsAbs : par.epsAbs ≤ par'.epsAbs
  epsRel : par.epsRel ≤ par'.epsRel
  maxIter : ∀ M', par'.maxIter = some M' → ∃ M, par.maxIter = some M ∧ M ≤ M'

namespace Solver

/-! ## The same iterations -/

theorem proxCalls_congr {rho : F} {v : Array F} {ps : List (Prox σ F)}
    (hp : ∀ q ∈ ps, q.Oblivious) {block start : Nat} {w u : World σ F} (h : w.state = u.state) :
    proxCalls rho v ps block start w = proxCalls rho v ps block start u := by
  induction ps generalizing block start w u with
  | nil => rfl
  | cons p ps ih =>
    have happ := (hp p List.mem_cons_self).respects.apply rho (v.extract start (start + p.dim))
      p.dim w u h
    unfold proxCalls
    dsimp only
    obtain ⟨a, _, w', u', hm, hn, rfl, hstate⟩ | ⟨e, w', u', hm, hn, -⟩ := happ.cases
    · rw [hm, hn]
      dsimp only
      rw [ih (fun q hq => hp q (List.mem_cons_of_mem p hq)) hstate]
    · rw [hm, hn]
      cases e <;> rfl

theorem hasRoom_congr {par par' : Params F} (hm : par.SameMethod par') (dims : List Nat) :
    HasRoom par dims ↔ HasRoom par' dims := by
  unfold HasRoom
  rw [hm.anderson, hm.memory]

variable [Scalar F] {par par' : Params F} {proxes : List (Prox σ F)} {proj : Projection F}
  {init : Option (List (Array F))} {p : Problem σ F}

theorem defect?_congr (hv : par.broken? = none) (hv' : par'.broken? = none) :
    defect? par init p = defect? par' init p := by
  unfold defect?
  rw [hv, hv']

theorem begin_congr (hm : par.SameMethod par') (dims : List Nat) :
    begin par dims proj init = begin par' dims proj init := by
  unfold begin
  rw [hm.anderson]

theorem callsIn_congr (hm : par.SameMethod par') (hp : ∀ q ∈ proxes, q.Oblivious) (q : Progress F)
    {w v : World σ F} (h : w.state = v.state) :
    callsIn par proxes q w = callsIn par' proxes q v := by
  unfold callsIn
  rw [← hm.rho]
  exact proxCalls_congr hp (by rw [state_opened, state_opened, h])

variable [Spectral F]

theorem nextPoint?_congr (hm : par.SameMethod par') (m : Measure F) :
    nextPoint? par m = nextPoint? par' m := by
  funext acceleration
  unfold nextPoint?
  rw [hm.memory, hm.lambda, hm.epsZero]

section Tied

variable {W : World σ F → World σ F → Prop} [World.Unlogged W]

theorem pass_tied (hm : par.SameMethod par') (hp : ∀ q ∈ proxes, q.Respects W) (q : Progress F) :
    Run.Tied W Eq (pass par proxes proj q) (pass par' proxes proj q) := by
  unfold pass
  refine Run.tied_bind (look_tied hm.rho hp proj rfl rfl rfl) ?_
  rintro s _ rfl -
  refine Run.tied_note_bind _ _ (goOn_tied ?_)
  rw [nextPoint?_congr hm]
  refine option_rel_refl ?_ _
  exact fun _ => rfl

theorem course_tied (hm : par.SameMethod par') (hp : ∀ q ∈ proxes, q.Respects W) (n : Nat)
    (q : Progress F) :
    Run.Tied W Eq (course par proxes proj n q) (course par' proxes proj n q) := by
  induction n with
  | zero => exact Run.tied_pure rfl
  | succ n ih =>
    refine Run.tied_bind ih ?_
    rintro r _ rfl -
    exact pass_tied hm hp r

theorem prepare_same (hm : par.SameMethod par') (hv : par.broken? = none)
    (hv' : par'.broken? = none) :
    Run.Tied W Eq (prepare par init p) (prepare par' init p) := by
  refine prepare_tied (defect?_congr hv hv') ?_ (hasRoom_congr hm p.dims)
  rw [hm.epsZero]
  exact option_rel_refl (fun _ => rfl) _

theorem iteration_tied (hm : par.SameMethod par') (hv : par.broken? = none)
    (hv' : par'.broken? = none) (hp : ∀ q ∈ p.proxes, q.Respects W) (i : Nat) :
    Run.Tied W Eq (iteration par init p i) (iteration par' init p i) := by
  unfold iteration
  refine Run.tied_bind (prepare_same hm hv hv') ?_
  rintro proj _ rfl -
  rw [begin_congr hm]
  refine Run.tied_bind (course_tied hm hp i _) ?_
  rintro q _ rfl -
  exact look_tied hm.rho hp proj rfl rfl rfl

end Tied

theorem iteration_alike (hm : par.SameMethod par') (hv : par.broken? = none)
    (hv' : par'.broken? = none) (hp : ∀ q ∈ p.proxes, q.Oblivious) (i : Nat) :
    Run.Alike (iteration par init p i) (iteration par' init p i) :=
  Run.alike_iff.mpr (iteration_tied hm hv hv' (fun q hq => (hp q hq).respects) i)

theorem residuals?_eq_answer (par : Params F) (init : Option (List (Array F))) (p : Problem σ F)
    (w : World σ F) (i : Nat) :
    residuals? par init p w i = (Run.answer (iteration par init p i w)).toOption.map
      fun s => (s.measure.primal, s.measure.dual) := by
  unfold residuals?
  cases iteration par init p i w <;> rfl

theorem residuals?_of_answer {w w' : World σ F} {i : Nat}
    (h : Run.answer (iteration par init p i w) = Run.answer (iteration par' init p i w')) :
    residuals? par init p w i = residuals? par' init p w' i := by
  rw [residuals?_eq_answer, residuals?_eq_answer, h]

theorem residuals?_congr (hm : par.SameMethod par') (hv : par.broken? = none)
    (hv' : par'.broken? = none) (hp : ∀ q ∈ p.proxes, q.Oblivious) {w w' : World σ F}
    (h : w.state = w'.state) (i : Nat) :
    residuals? par init p w i = residuals? par' init p w' i :=
  residuals?_of_answer
    (iteration_tied hm hv hv' (fun q hq => (hp q hq).respects) i w w' h).answer_eq

/-! ## The same calls -/

theorem getElem?_solveCalls_congr (hm : par.SameMethod par') (hv : par.broken? = none)
    (hv' : par'.broken? = none) (hp : ∀ q ∈ p.proxes, q.Oblivious) {w w' : World σ F}
    (h : w.state = w'.state) {budget budget' j : Nat} {c c' : Call F}
    (hc : (solveCalls budget par init p w)[j]? = some c)
    (hc' : (solveCalls budget' par' init p w')[j]? = some c') : c = c' := by
  unfold solveCalls at hc hc'
  cases hw : prepare par init p w with
  | error e u => rw [hw] at hc; cases hc
  | ok proj u =>
    obtain ⟨_, u', hw', rfl, hu⟩ :=
      (prepare_same (W := World.Linked Eq) hm hv hv').ok hw h
    rw [hw] at hc
    rw [hw'] at hc'
    dsimp only at hc'
    rw [← begin_congr hm] at hc'
    obtain ⟨r, t, hr, hc⟩ := callsIn_of_runCalls hc
    obtain ⟨r', t', hr', hc'⟩ := callsIn_of_runCalls hc'
    obtain ⟨_, t'', ht'', rfl, hstate⟩ :=
      (course_tied hm (fun q hq => (hp q hq).respects) _ _).ok (reaches_iff.mp hr).1 hu
    rw [(reaches_iff.mp hr').1] at ht''
    cases ht''
    rw [callsIn_congr hm hp r hstate, hc'] at hc
    exact (Option.some.inj hc).symm

theorem prefix_or_prefix {l l' : List α}
    (h : ∀ (j : Nat) (c c' : α), l[j]? = some c → l'[j]? = some c' → c = c') :
    l <+: l' ∨ l' <+: l := by
  rcases Nat.le_total l.length l'.length with hle | hle
  · refine Or.inl (List.prefix_iff_getElem?.mpr fun j hj => ?_)
    have hj' : j < l'.length := Nat.lt_of_lt_of_le hj hle
    have hl' := List.getElem?_eq_getElem hj'
    rw [hl', h j _ _ (List.getElem?_eq_getElem hj) hl']
  · refine Or.inr (List.prefix_iff_getElem?.mpr fun j hj => ?_)
    have hj' : j < l.length := Nat.lt_of_lt_of_le hj hle
    have hl := List.getElem?_eq_getElem hj'
    rw [hl, h j _ _ hl (List.getElem?_eq_getElem hj)]

theorem eq_extract {x y : Array α} {n : Nat} (hx : x.size = n) (hn : n ≤ y.size)
    (h : ∀ j < n, x[j]? = y[j]?) : x = y.extract 0 n := by
  refine Array.ext_getElem? fun j => ?_
  rw [Array.getElem?_extract]
  by_cases hj : j < n
  · rw [if_pos (by omega), Nat.zero_add]
    exact h j hj
  · rw [if_neg (by omega), Array.getElem?_eq_none (by omega)]

/-! ## The end of a run -/

theorem exists_firstConvergesAt {w : World σ F} {i : Nat} (h : ConvergesAt par init p w i) :
    ∃ j ≤ i, FirstConvergesAt par init p w j := by
  induction i using Nat.strongRecOn with
  | _ i ih =>
    by_cases hfirst : ∀ j < i, ¬ ConvergesAt par init p w j
    · exact ⟨i, Nat.le_refl i, h, hfirst⟩
    · obtain ⟨j, hj⟩ := Classical.not_forall.mp hfirst
      obtain ⟨hji, hj⟩ := Classical.not_imp.mp hj
      obtain ⟨k, hk, hfirst⟩ := ih j hji (Classical.not_not.mp hj)
      exact ⟨k, by omega, hfirst⟩

theorem history_of_solve {budget : Nat} {w v : World σ F} {a : Solution F}
    (h : solve budget par init p w = .ok (some a) v) :
    FirstConvergesAt par init p w (a.iterations - 1) ∧ 0 < a.iterations ∧
      a.iterations ≤ par.maxIter.getD budget ∧
      a.primal.size = a.iterations ∧ a.dual.size = a.iterations ∧
      ∀ j < a.iterations, ∃ r, residuals? par init p w j = some r ∧
        a.primal[j]? = some r.1 ∧ a.dual[j]? = some r.2 := by
  obtain ⟨i, proj, u, q, t, s, t', hi, hp, hq, hs, hc, rfl, -⟩ := solve_eq_some.mp h
  obtain ⟨hk, hps, hds, hall, -⟩ := solution_of_course hp hq hs
  rw [hk]
  exact ⟨hc, Nat.succ_pos i, hi, hps, hds, fun j hj => hall j (Nat.le_of_lt_succ hj)⟩

section Monotone

variable [Scalar.Monotone F]

omit [Spectral F] in
theorem vecNorm_nonneg {x : Array F} (h : Vec.norm x ≤ Vec.norm x) : 0 ≤ Vec.norm x :=
  Scalar.Monotone.sqrt_nonneg h

omit [Spectral F] in
theorem residual?_nonneg {s s' : Projection.Scratch F} {x : Array F} {a : F}
    (h : proj.residual? s x = some (a, s')) (ha : a ≤ a) : 0 ≤ a := by
  unfold Projection.residual? at h
  split at h
  · simp only [Option.bind_eq_bind, Option.bind_eq_some_iff] at h
    obtain ⟨gap, -, h⟩ := h
    cases h
    exact vecNorm_nonneg ha
  · cases h
    exact Scalar.Monotone.zero_le_zero

omit [Spectral F] in
theorem rangeResidual?_nonneg {s s' : Projection.Scratch F} {g : Array F} {a : F}
    (h : proj.rangeResidual? s g = some (a, s')) (ha : a ≤ a) : 0 ≤ a := by
  unfold Projection.rangeResidual? at h
  split at h
  · simp only [Option.bind_eq_bind, Option.bind_eq_some_iff] at h
    obtain ⟨gap, -, ⟨rest, s''⟩, -, h⟩ := h
    cases h
    exact vecNorm_nonneg ha
  · cases h
    exact vecNorm_nonneg ha

theorem residuals?_nonneg {w : World σ F} {i : Nat} {r : F × F}
    (h : residuals? par init p w i = some r) : (r.1 ≤ r.1 → 0 ≤ r.1) ∧ (r.2 ≤ r.2 → 0 ≤ r.2) := by
  obtain ⟨proj, u, hp⟩ := prepare_of_residuals? h
  obtain ⟨s, ⟨q, t, t', -, hs⟩, rfl⟩ := (residuals?_eq_some hp).mp h
  obtain ⟨s₁, s₂, slope, s₃, hprimal, -, hdual⟩ := residuals_of_measure? (look_eq_ok.mp hs).2
  exact ⟨residual?_nonneg hprimal, rangeResidual?_nonneg hdual⟩

/-- The relative tolerance is left alone, or stays finite, or has no zero to be relative to. -/
def Tame (par par' : Params F) (init : Option (List (Array F))) (p : Problem σ F)
    (w : World σ F) : Prop :=
  ∀ r, residuals? par init p w 0 = some r →
    par'.epsRel = par.epsRel ∨ Scalar.isFinite par'.epsRel = true ∨ 0 < r.1 ∧ 0 < r.2

theorem ConvergesAt.looser (hm : par.SameMethod par') (hv : par.broken? = none)
    (hv' : par'.broken? = none) (hp : ∀ q ∈ p.proxes, q.Oblivious) {w w' : World σ F}
    (hw : w.state = w'.state) (hl : par.Looser par') (ht : Tame par par' init p w) {i : Nat}
    (h : ConvergesAt par init p w i) : ConvergesAt par' init p w' i := by
  obtain ⟨r₀, r, h₀, hr, hprimal, hdual⟩ := h
  obtain ⟨-, -, habs, hrel, -⟩ := Params.broken?_eq_none.mp hv
  obtain ⟨hfirst₁, hfirst₂⟩ := residuals?_nonneg h₀
  obtain ⟨hr₁, hr₂⟩ := residuals?_nonneg hr
  have htame := ht r₀ h₀
  refine ⟨r₀, r, ?_, ?_, ?_, ?_⟩
  · rw [← residuals?_congr hm hv hv' hp hw, h₀]
  · rw [← residuals?_congr hm hv hv' hp hw, hr]
  · refine Scalar.le_looser hr₁ hfirst₁ habs hl.epsAbs hrel hl.epsRel ?_ hprimal
    exact htame.imp_right (Or.imp_right And.left)
  · refine Scalar.le_looser hr₂ hfirst₂ habs hl.epsAbs hrel hl.epsRel ?_ hdual
    exact htame.imp_right (Or.imp_right And.right)

omit [Scalar.Monotone F] in
theorem history_congr (hm : par.SameMethod par') (hv : par.broken? = none)
    (hv' : par'.broken? = none) (hp : ∀ q ∈ p.proxes, q.Oblivious) {w w' v v' : World σ F}
    (hw : w.state = w'.state) {budget budget' : Nat} {a a' : Solution F}
    (h : solve budget par init p w = .ok (some a) v)
    (h' : solve budget' par' init p w' = .ok (some a') v') (hle : a'.iterations ≤ a.iterations) :
    a'.primal = a.primal.extract 0 a'.iterations ∧ a'.dual = a.dual.extract 0 a'.iterations := by
  obtain ⟨-, -, -, hps, hds, hall⟩ := history_of_solve h
  obtain ⟨-, -, -, hps', hds', hall'⟩ := history_of_solve h'
  have hsame : ∀ j < a'.iterations, a'.primal[j]? = a.primal[j]? ∧ a'.dual[j]? = a.dual[j]? := by
    intro j hj
    obtain ⟨r, hr, hprimal, hdual⟩ := hall j (Nat.lt_of_lt_of_le hj hle)
    obtain ⟨r', hr', hprimal', hdual'⟩ := hall' j hj
    rw [← residuals?_congr hm hv hv' hp hw, hr] at hr'
    cases hr'
    exact ⟨hprimal'.trans hprimal.symm, hdual'.trans hdual.symm⟩
  exact ⟨eq_extract hps' (hps ▸ hle) fun j hj => (hsame j hj).1,
    eq_extract hds' (hds ▸ hle) fun j hj => (hsame j hj).2⟩

theorem solve_of_looser (hm : par.SameMethod par') (hv : par.broken? = none)
    (hv' : par'.broken? = none) (hp : ∀ q ∈ p.proxes, q.Oblivious) {w w' v : World σ F}
    (hw : w.state = w'.state) (hl : par.Looser par') (ht : Tame par par' init p w)
    {budget budget' : Nat} {a : Solution F} (h : solve budget par init p w = .ok (some a) v)
    (hbudget : par'.maxIter = none → a.iterations ≤ budget') :
    ∃ a' v', solve budget' par' init p w' = .ok (some a') v' ∧ a'.iterations ≤ a.iterations := by
  obtain ⟨hfirst, hpos, hlimit, -⟩ := history_of_solve h
  obtain ⟨i, hi, hi'⟩ := exists_firstConvergesAt (hfirst.1.looser hm hv hv' hp hw hl ht)
  have hroom : i < par'.maxIter.getD budget' := by
    cases hmax : par'.maxIter with
    | none =>
      have := hbudget hmax
      rw [Option.getD_none]
      omega
    | some M' =>
      obtain ⟨M, hM, hle⟩ := hl.maxIter M' hmax
      rw [hM, Option.getD_some] at hlimit
      rw [Option.getD_some]
      omega
  obtain ⟨a', v', hsolve, hiter⟩ := solve_eq_some_of_firstConvergesAt hi' hroom
  exact ⟨a', v', hsolve, by omega⟩

/-- The limit and the tolerances choose where a run stops and change nothing else: the iterations
are the same, and so are the calls of the blocks as far as both runs go. -/
theorem limits_choose_where_to_stop {par par' : Params F} {init : Option (List (Array F))}
    {p : Problem σ F} {w w' : World σ F} (hm : par.SameMethod par') (hv : par.broken? = none)
    (hv' : par'.broken? = none) (hp : ∀ q ∈ p.proxes, q.Oblivious) (hw : w.state = w'.state) :
    (∀ i, Run.outcome (iteration par init p i w) = Run.outcome (iteration par' init p i w')) ∧
    (∀ i, residuals? par init p w i = residuals? par' init p w' i) ∧
    (∀ budget budget', ∃ calls calls' : List (Call F),
      solve budget par init p.recorded (w.listing #[]) =
        Run.listing calls.toArray (solve budget par init p w) ∧
      solve budget' par' init p.recorded (w'.listing #[]) =
        Run.listing calls'.toArray (solve budget' par' init p w') ∧
      (calls <+: calls' ∨ calls' <+: calls)) ∧
    (par.Looser par' → Tame par par' init p w → ∀ budget a v,
      solve budget par init p w = .ok (some a) v →
      ∀ budget', (par'.maxIter = none → a.iterations ≤ budget') →
      ∃ a' v', solve budget' par' init p w' = .ok (some a') v' ∧
        a'.iterations ≤ a.iterations ∧ a'.primal = a.primal.extract 0 a'.iterations ∧
        a'.dual = a.dual.extract 0 a'.iterations) := by
  refine ⟨fun i => iteration_alike hm hv hv' hp i w w' hw, residuals?_congr hm hv hv' hp hw,
    fun budget budget' => ?_, fun hl ht budget a v h budget' hbudget => ?_⟩
  · refine ⟨_, _, solve_recorded_nil budget w, solve_recorded_nil budget' w', ?_⟩
    exact prefix_or_prefix fun j c c' => getElem?_solveCalls_congr hm hv hv' hp hw
  · obtain ⟨a', v', h', hle⟩ := solve_of_looser hm hv hv' hp hw hl ht h hbudget
    exact ⟨a', v', h', hle, history_congr hm hv hv' hp hw h h' hle⟩

end Monotone

/-! ## An infinite tolerance -/

theorem drifting_oblivious : ∀ q ∈ drifting.proxes, q.Oblivious := by
  intro q hq
  rw [List.mem_singleton.mp hq]
  exact AbsSum.prox_oblivious 1 1

def loosely : Params Float :=
  { Params.standard with maxIter := none, epsAbs := 0.25, epsRel := 0.5, logPeriod := 3 }

theorem standard_looser_loosely : (Params.standard : Params Float).Looser loosely :=
  ⟨by decide +kernel, by decide +kernel, nofun⟩

theorem drifting_stops_earlier : ∃ a v a' v',
    solve 0 .standard (some [#[2.5]]) drifting (World.start () none) = .ok (some a) v ∧
      solve 4 loosely (some [#[2.5]]) drifting (World.start () (some .debug)) = .ok (some a') v' ∧
      a.iterations = 4 ∧ a'.iterations < 4 ∧ a'.dual = a.dual.extract 0 a'.iterations := by
  have hrun : (Run.value? (solve 0 .standard (some [#[2.5]]) drifting
      (World.start () none))).join.any (fun a => a.iterations = 4) = true := by decide +kernel
  have hrun' : (Run.value? (solve 4 loosely (some [#[2.5]]) drifting
      (World.start () (some .debug)))).join.all (fun a => a.iterations < 4) = true := by
    decide +kernel
  obtain ⟨a, ha, hiter⟩ := (Option.any_eq_true ..).mp hrun
  obtain ⟨v, hs⟩ := Run.value?_eq_some.mp (Option.join_eq_some_iff.mp ha)
  have hiter := of_decide_eq_true hiter
  have hm : (Params.standard : Params Float).SameMethod loosely := ⟨rfl, rfl, rfl, rfl, rfl⟩
  have hstate : (World.start () none : World Unit Float).state =
      (World.start () (some .debug) : World Unit Float).state := rfl
  obtain ⟨-, -, -, hlooser⟩ := limits_choose_where_to_stop hm (by decide +kernel)
    (by decide +kernel) drifting_oblivious hstate
  obtain ⟨a', v', hs', -, -, hdual⟩ := hlooser standard_looser_loosely
    (fun _ _ => Or.inr (Or.inl (by decide +kernel))) 0 a v hs 4 fun _ => hiter.le
  rw [hs'] at hrun'
  exact ⟨a, v, a', v', hs, hs', hiter, of_decide_eq_true hrun', hdual⟩

def briefly (epsRel : Float) : Params Float :=
  { Params.standard with maxIter := some 1, epsRel := epsRel }

/-- With an infinite relative tolerance a run misses the solution that it starts from: the first
residuals are zero, and the tolerance relative to them is not a number. -/
theorem infinite_tolerance_misses_zero :
    (briefly 1e-8).SameMethod (briefly (1 / 0)) ∧ (briefly 1e-8).Looser (briefly (1 / 0)) ∧
      (briefly 1e-8).broken? = none ∧ (briefly (1 / 0)).broken? = none ∧
      (∀ q ∈ drifting.proxes, q.Oblivious) ∧
      (∃ a v, solve 0 (briefly 1e-8) none drifting (World.start () none) = .ok (some a) v ∧
        a.iterations = 1) ∧
      ∃ v, solve 0 (briefly (1 / 0)) none drifting (World.start () none) =
        .error (.error .excessIter) v := by
  have hl : (briefly 1e-8).Looser (briefly (1 / 0)) :=
    ⟨by decide +kernel, by decide +kernel, fun M' hM => ⟨M', hM, Nat.le_refl M'⟩⟩
  have hrun : (Run.value? (solve 0 (briefly 1e-8) none drifting
      (World.start () none))).join.any (fun a => a.iterations = 1) = true := by decide +kernel
  have hrun' : Run.halt? (solve 0 (briefly (1 / 0)) none drifting (World.start () none)) =
      some (.error .excessIter) := by decide +kernel
  obtain ⟨a, ha, hiter⟩ := (Option.any_eq_true ..).mp hrun
  obtain ⟨v, hs⟩ := Run.value?_eq_some.mp (Option.join_eq_some_iff.mp ha)
  exact ⟨⟨rfl, rfl, rfl, rfl, rfl⟩, hl, by decide +kernel, by decide +kernel, drifting_oblivious,
    ⟨a, v, hs, of_decide_eq_true hiter⟩, Run.halt?_eq_some.mp hrun'⟩

end Solver

end Splitting
