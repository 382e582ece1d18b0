import Splitting.Proofs.Safety
import Splitting.Spectrum.Rotation

/-!
# The verdict of a run

A run ends well exactly in the first iteration whose residuals are within the tolerances, and for
want of iterations exactly if there is no such iteration up to the limit.
-/

namespace Splitting.Solver

variable {σ F : Type} [Scalar F] [Spectral F]

section

variable {par : Params F} {init : Option (List (Array F))} {p : Problem σ F} {w v : World σ F}

theorem solve_eq_some_of_firstConvergesAt {budget i : Nat} (h : FirstConvergesAt par init p w i)
    (hi : i < par.maxIter.getD budget) :
    ∃ a v, solve budget par init p w = .ok (some a) v ∧ a.iterations = i + 1 := by
  obtain ⟨r₀, r, -, hr, -⟩ := h.1
  obtain ⟨proj, u, hp⟩ := prepare_of_residuals? hr
  obtain ⟨s, ⟨q, t, t', hq, hs⟩, -⟩ := (residuals?_eq_some hp).mp hr
  have hsolve : solve budget par init p w =
      .ok (some (q.solution p.dims s)) (ended i s .converged t') :=
    solve_eq_some.mpr ⟨i, proj, u, q, t, s, t', hi, hp, hq, hs, h, rfl, rfl⟩
  exact ⟨_, _, hsolve, (solution_of_course hp hq hs).1⟩

/-- An iteration of an accepted problem ends well, or the operator of a block fails. -/
theorem iteration_cases (hd : defect? par init p = none) (hr : HasRoom par p.dims)
    (hs : p.Sound par.rho) (i : Nat) (w : World σ F) :
    (∃ s v, iteration par init p i w = .ok s v) ∨
      ∃ block q e v, p.proxes[block]? = some q ∧ Fails par.rho q e ∧
        iteration par init p i w = .error (.error (.ofProx block e)) v := by
  cases h : iteration par init p i w with
  | ok s v => exact Or.inl ⟨s, v, rfl⟩
  | error e v =>
    obtain ⟨block, q, e, hq, hfails, rfl⟩ := iteration_breaks hd hr hs h
    exact Or.inr ⟨block, q, e, v, hq, hfails, rfl⟩

end

/-- When a run stops, and what it answers then. -/
theorem solve_stops_at_first_convergence (budget : Nat) (par : Params F)
    (init : Option (List (Array F))) (p : Problem σ F) (w : World σ F) :
    (∀ k, (∃ a v, solve budget par init p w = .ok (some a) v ∧ a.iterations = k) ↔
      ∃ i, k = i + 1 ∧ FirstConvergesAt par init p w i ∧ k ≤ par.maxIter.getD budget) ∧
    (∀ a v, solve budget par init p w = .ok (some a) v →
      0 < a.iterations ∧ a.primal.size = a.iterations ∧ a.dual.size = a.iterations ∧
      (∀ j < a.iterations, ∃ r, residuals? par init p w j = some r ∧
        a.primal[j]? = some r.1 ∧ a.dual[j]? = some r.2) ∧
      a.blocks.map Array.size = p.dims ∧ AnswersAt par init p w (a.iterations - 1) a.blocks) ∧
    (∀ v, solve budget par init p w = .error (.error .excessIter) v ↔
      ∃ M s u, par.maxIter = some (M + 1) ∧ (∀ i < M + 1, ¬ ConvergesAt par init p w i) ∧
        iteration par init p M w = .ok s u ∧ v = ended M s .excessIter u) ∧
    (defect? par init p = none → HasRoom par p.dims → p.Sound par.rho → ∀ i,
      (∃ s v, iteration par init p i w = .ok s v) ∨
        ∃ block q e v, p.proxes[block]? = some q ∧ Fails par.rho q e ∧
          iteration par init p i w = .error (.error (.ofProx block e)) v) ∧
    (defect? par init p = none → HasRoom par p.dims → (∀ g ∈ p.couplings, g.Sound) →
      (∀ q ∈ p.proxes, q.Total par.rho) → ∀ i, ∃ s v, iteration par init p i w = .ok s v) := by
  refine ⟨fun k => ⟨?_, ?_⟩, fun a v h => ?_, fun v => ⟨?_, ?_⟩,
    fun hd hr hs i => iteration_cases hd hr hs i w,
    fun hd hr hs ht i => iteration_total hd hr hs ht i w⟩
  · rintro ⟨a, v, h, rfl⟩
    obtain ⟨i, proj, u, q, t, s, t', hi, hp, hq, hs, hc, rfl, -⟩ := solve_eq_some.mp h
    have hk := (solution_of_course hp hq hs).1
    exact ⟨i, hk, hc, by omega⟩
  · rintro ⟨i, rfl, hc, hi⟩
    exact solve_eq_some_of_firstConvergesAt hc hi
  · obtain ⟨i, proj, u, q, t, s, t', -, hp, hq, hs, -, rfl, -⟩ := solve_eq_some.mp h
    obtain ⟨hk, hps, hds, hall, hdims, hans⟩ := solution_of_course hp hq hs
    rw [hk]
    exact ⟨by omega, hps, hds, fun j hj => hall j (by omega), hdims, hans⟩
  · intro h
    obtain ⟨i, proj, u, q, t, s, t', hM, hp, hq, hs, hall, hv⟩ := solve_eq_excessIter.mp h
    refine ⟨i, s, t', hM, fun j hj => hall j (by omega), ?_, hv⟩
    exact iteration_eq_ok.mpr ⟨proj, u, q, t, hp, hq, hs⟩
  · rintro ⟨M, s, t', hM, hall, hi, hv⟩
    obtain ⟨proj, u, q, t, hp, hq, hs⟩ := iteration_eq_ok.mp hi
    exact solve_eq_excessIter.mpr
      ⟨M, proj, u, q, t, s, t', hM, hp, hq, hs, fun j hj => hall j (by omega), hv⟩

/-- One block without a coupling. Every iteration takes one from the magnitude of its entry. -/
def drifting : Problem Unit Float := ⟨[AbsSum.prox 1 1], [], #[]⟩

def upTo (limit : Nat) : Params Float := { Params.standard with maxIter := some limit }

-- From three on the entry comes to zero in the third iteration, and rests there in the fourth.
theorem drifting_stops_at_four :
    let w : World Unit Float := .start () none
    let init : Option (List (Array Float)) := some [#[3]]
    (∃ a v, solve 0 (upTo 4) init drifting w = .ok (some a) v ∧ a.iterations = 4 ∧
      a.dual.size = 4 ∧ FirstConvergesAt (upTo 4) init drifting w 3 ∧
      AnswersAt (upTo 4) init drifting w 3 a.blocks) ∧
    (∃ v, solve 0 (upTo 3) init drifting w = .error (.error .excessIter) v ∧
      ∀ i < 3, ¬ ConvergesAt (upTo 3) init drifting w i) ∧
    ∀ i, ∃ s v, iteration (upTo 4) init drifting i w = .ok s v := by
  intro w init
  have hrun : (Run.value? (solve 0 (upTo 4) init drifting w)).join.any
      (fun a => a.iterations = 4) = true := by decide +kernel
  have hrun' : Run.halt? (solve 0 (upTo 3) init drifting w) = some (.error .excessIter) := by
    decide +kernel
  obtain ⟨a, ha, hiter⟩ := (Option.any_eq_true ..).mp hrun
  obtain ⟨v, hs⟩ := Run.value?_eq_some.mp (Option.join_eq_some_iff.mp ha)
  obtain ⟨v', hs'⟩ := Run.halt?_eq_some.mp hrun'
  have hiter := of_decide_eq_true hiter
  obtain ⟨hstops, hanswer, -, -, htotal⟩ :=
    solve_stops_at_first_convergence 0 (upTo 4) init drifting w
  obtain ⟨-, -, hexceeds, -⟩ := solve_stops_at_first_convergence 0 (upTo 3) init drifting w
  obtain ⟨i, hi, hfirst, -⟩ := (hstops 4).mp ⟨a, v, hs, hiter⟩
  obtain rfl : i = 3 := by omega
  obtain ⟨-, -, hdual, -, -, hblocks⟩ := hanswer a v hs
  rw [hiter] at hdual hblocks
  obtain ⟨M, -, -, hM, hnever, -⟩ := (hexceeds v').mp hs'
  obtain rfl : M = 2 := by simpa [upTo] using hM
  have hdrifting : ∀ q ∈ drifting.proxes, q.Total (upTo 4).rho := by
    intro q hq
    rw [List.mem_singleton.mp hq]
    exact AbsSum.prox_total 1 1 _
  exact ⟨⟨a, v, hs, hiter, hdual, hfirst, hblocks⟩, ⟨v', hs', hnever⟩,
    htotal (by decide +kernel) (by decide) (fun _ hg => absurd hg List.not_mem_nil) hdrifting⟩

end Splitting.Solver
