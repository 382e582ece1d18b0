import Splitting.Proofs.Real.Pinned
import Splitting.Proofs.Real.Rearranged

/-!
# Solves in any order, in exact arithmetic

The order in which the blocks of a problem are listed changes neither how a solve ends nor what it
finds.
-/

namespace Splitting

namespace Solver

variable {σ : Type} {p : Problem σ ℝ} {is : List ℕ} {P : σ → Prop}

/-! ## Whole runs -/

section Whole

variable (his : is.Perm (List.range p.proxes.length))
include his

theorem startPoint_matched {init : Option (List (Array ℝ))}
    (hinit : init.bind p.initDefect? = none) :
    Matched (places p.dims) (labels p.dims is)
      (startPoint p.dims init) (startPoint (p.arranged is).dims (init.map (pick is))) := by
  have hdims : is.Perm (List.range p.dims.length) := p.length_dims ▸ his
  cases init with
  | none =>
    have hzeros := matched_zeros (places_perm hdims).length_eq
    rw [length_places] at hzeros
    unfold startPoint
    rwa [Option.map_none, Problem.total_dims_arranged his]
  | some vs =>
    have hsizes : vs.map Array.size = p.dims := Problem.initDefect?_eq_none.mp hinit
    exact ⟨valueAt vs, stack_eq_reading hsizes,
      stack_pick hsizes fun l hl => lt_of_mem_perm hdims hl⟩

theorem begin_matched {init : Option (List (Array ℝ))} (hinit : init.bind p.initDefect? = none)
    (par : Params ℝ) (proj : Projection ℝ) :
    SameProgress (places p.dims) (labels p.dims is) proj.rhs.size
      (begin par p.dims proj init)
      (begin par (p.arranged is).dims (proj.arranged is) (init.map (pick is))) := by
  refine ⟨rfl, startPoint_matched his hinit, rfl, proj.fresh_sized, ?_, rfl, rfl, rfl⟩
  unfold begin
  split
  · exact .some Anderson.sameState_initial
  · exact .none

theorem solve_matched [Spectral ℝ] {par : Params ℝ} (hshape : p.shapeDefect? = none)
    (hl : ∀ g ∈ p.couplings, g.IsLinear) (h : p.Independent par.rho P)
    {init : Option (List (Array ℝ))} (hinit : init.bind p.initDefect? = none) (budget : ℕ) :
    Run.Tied (World.Linked fun s s' => s = s' ∧ P s)
      (Option.Rel fun a b => b = a.arranged is) (solve budget par init p)
      (solve budget par (init.map (pick is)) (p.arranged is)) := by
  have hdims : is.Perm (List.range p.dims.length) := p.length_dims ▸ his
  have hcouplings : p.couplings.length = p.dims.length ∨ p.couplings = [] := by
    obtain ⟨-, hlength, -⟩ := Problem.shapeDefect?_eq_none.mp hshape
    rw [p.length_dims]
    exact hlength.imp id And.left
  have hproj := Projection.ofCouplings?_matched hcouplings
    (Projection.partsLinear_of_shape hl hshape) hdims par.epsZero
  unfold solve
  rw [← p.dims_arranged is] at hproj
  refine Run.tied_bind
    (prepare_tied (defect?_arranged his hshape hinit).symm hproj (hasRoom_arranged his).symm) ?_
  rintro proj _ ⟨hover, -, hrange, rfl⟩ -
  exact iterate_tied (fun q r hq => turn_matched h hover hrange hdims hq) _
    (begin_matched his hinit par proj)

end Whole

/-! ## Operators that count their calls -/

def counting (n : ℕ) : Prox ℕ ℝ where
  dim := n
  eval _ v := fun w => .ok (v.map fun e => e + w.state) (w.withState (w.state + 1))

theorem counting_oblivious (n : ℕ) : (counting n).Oblivious := by
  refine fun t v => Run.alike_iff.mpr fun w w' (h : w.state = w'.state) => ?_
  simp only [counting, h]
  exact ⟨rfl, rfl⟩

theorem counting_total (n : ℕ) (t : ℝ) : (counting n).Total t :=
  fun v w hv => ⟨_, _, rfl, by simpa using hv⟩

/-- A single equation for two blocks, each with a count of its own calls. -/
noncomputable def tally : Problem (Array ℕ) ℝ where
  proxes := [(counting 1).slot 0, (counting 2).slot 1]
  couplings := [.scaledIdentity 1 1, .ofMatrix (.ofFn (.general 1 2) fun _ _ => 1)]
  rhs := #[1]

theorem tally_independent (t : ℝ) : tally.Independent t fun s => s.size = 2 where
  neverFails := List.forall_mem_cons.mpr ⟨(counting_total 1 t).slot zero_lt_two,
    List.forall_mem_singleton.mpr ((counting_total 2 t).slot one_lt_two)⟩
  oblivious := List.forall_mem_cons.mpr ⟨(counting_oblivious 1).slot 0,
    List.forall_mem_singleton.mpr ((counting_oblivious 2).slot 1)⟩
  separate := List.pairwise_pair.mpr
    (Prox.slot_commutes (counting_oblivious 1) (counting_oblivious 2) zero_ne_one)

theorem tally_isLinear : ∀ g ∈ tally.couplings, g.IsLinear :=
  List.forall_mem_cons.mpr ⟨Operator.isLinear_scaledIdentity 1 1,
    List.forall_mem_singleton.mpr (Operator.isLinear_ofMatrix _)⟩

theorem tally_feasible : tally.Feasible [#[1], #[0, 0]] := by
  refine ⟨rfl, fun r hr => ?_⟩
  obtain rfl : r = 0 := Nat.lt_one_iff.mp hr
  show (∑ c ∈ Finset.range 1, (Operator.scaledIdentity 1 1).coeff 0 c * (#[1] : Array ℝ).getD c 0) +
    ((∑ c ∈ Finset.range 2, (Operator.ofMatrix (.ofFn (.general 1 2) fun _ _ => 1)).coeff 0 c *
      (#[0, 0] : Array ℝ).getD c 0) + 0) = (#[1] : Array ℝ).getD 0 0
  rw [Operator.sum_coeff_scaledIdentity 1 zero_lt_one]
  simp [Finset.sum_range_succ]

theorem counting_first {n l : ℕ} (t : ℝ) {v : Array ℝ} (hv : v.size = n) {w : World (Array ℕ) ℝ}
    (hw : w.state[l]? = some 0) :
    ∃ u, ((counting n).slot l).apply t v n w = .ok v u ∧ u.state = w.state.setIfInBounds l 1 := by
  have hcall : (counting n).eval t v (w.withState 0) = .ok v (w.withState 1) := by
    simp [counting, World.withState]
  exact ⟨_, apply_eq_ok.mpr ⟨hv, rfl, Prox.slot_eval_eq_ok.mpr ⟨0, _, hw, hcall, rfl⟩, hv⟩, rfl⟩

theorem tally_proxPoints (t : ℝ) {w : World (Array ℕ) ℝ} (hw : w.state = #[0, 0]) :
    ∃ v, proxPoints t 0 #[1, 0, 0] tally.proxes 0 0 #[] w = .ok #[1, 0, 0] v := by
  have hfirst : w.state[0]? = some 0 := by rw [hw]; rfl
  obtain ⟨u, hu, hs⟩ := counting_first (v := #[1]) t rfl hfirst
  have hsecond : u.state[1]? = some 0 := by rw [hs, hw]; rfl
  obtain ⟨u', hu', -⟩ := counting_first (v := #[0, 0]) t rfl hsecond
  exact ⟨u', proxPoints_eq_ok.mpr ⟨[#[1], #[0, 0]], .cons hu (.cons hu' (.nil _ _)), rfl⟩⟩

/-- Acceleration is on, and at most three iterations are made. -/
noncomputable def restlessly : Params ℝ := { plainly 0 with maxIter := some 3, anderson := true }

theorem restlessly_broken? : restlessly.broken? = none :=
  Params.broken?_eq_none.mpr ⟨by simp [restlessly], zero_lt_one, le_rfl, le_rfl, Nat.one_ne_zero,
    le_rfl⟩

theorem tally_defect? : defect? restlessly (some [#[1], #[0, 0]]) tally = none := by
  refine defect?_eq_none.mpr ⟨restlessly_broken?, rfl, ?_⟩
  rintro _ ⟨⟩
  rfl

theorem tally_iteration [Spectral ℝ] :
    ∃ s v, iteration restlessly (some [#[1], #[0, 0]]) tally 0 (.start #[0, 0] none) = .ok s v ∧
      s.measure.primal = 0 ∧ s.measure.dual = 0 := by
  have hsound : ∀ g ∈ tally.couplings, g.Sound := fun g hg => (tally_isLinear g hg).sound
  have hroom : HasRoom restlessly tally.dims := ⟨fun _ => by decide, by decide⟩
  obtain ⟨proj, u, hp⟩ := prepare_total tally_defect? hroom hsound (.start #[0, 0] none)
  have hlin := (linear_of_prepare tally_isLinear hp).2.2
  obtain ⟨-, hfits, hbegin⟩ := fits_of_prepare hsound hp
  have hu : (opened restlessly 0 u).state = #[0, 0] := by
    obtain ⟨-, -, -, rfl⟩ := prepare_eq_ok.mp hp
    simp only [state_opened, World.state_note]
    rfl
  have hv : (begin restlessly tally.dims proj (some [#[1], #[0, 0]])).v = #[1, 0, 0] := rfl
  obtain ⟨v, hprox⟩ := tally_proxPoints restlessly.rho hu
  obtain ⟨m, hm, -⟩ := measure?_total hfits restlessly.rho hbegin.scratch hbegin.v hbegin.v
  have hs : look restlessly tally.proxes proj
      (begin restlessly tally.dims proj (some [#[1], #[0, 0]])) u = .ok ⟨#[1, 0, 0], m⟩ v :=
    look_eq_ok.mpr ⟨hprox, hm⟩
  obtain ⟨hprimal, hdual, -⟩ := look_vec hlin rfl hbegin hs
  have hfeas : proj.coupling (total tally.dims) (vec (total tally.dims) #[1, 0, 0]) =
      vec proj.rhs.size proj.rhs := (feasible_iff tally_isLinear hp rfl).mp tally_feasible
  refine ⟨_, v, iteration_eq_ok.mpr ⟨proj, u, _, u, hp, rfl, hs⟩, ?_, ?_⟩
  · rw [hprimal, hfeas, sub_self, norm_zero]
  · rw [hdual, hv, sub_self, smul_zero, Projection.unreached_eq, map_zero, sub_zero, norm_zero]

section Answers

variable [Spectral ℝ] {par : Params ℝ}

theorem answer_of_initDefect? (hpar : par.broken? = none) (hshape : p.shapeDefect? = none)
    {vs : List (Array ℝ)} {d : Defect} (hd : p.initDefect? vs = some d) (budget : ℕ)
    (w : World σ ℝ) : Run.answer (solve budget par (some vs) p w) = .error (.error d.error) := by
  have hdefect : defect? par (some vs) p = some d := by
    unfold defect?
    rw [hpar, hshape]
    exact hd
  unfold solve
  rw [Run.bind_apply, prepare_of_defect hdefect w]
  rfl

/-- The order of the blocks does not matter: a solve from a starting point that fits ends in the
same way after the same iterations, and an answer has the same blocks in the other order. A starting
point that does not fit is refused in both orders, for the first block that it does not fit. -/
theorem blocks_in_any_order (hpar : par.broken? = none) (hshape : p.shapeDefect? = none)
    (hl : ∀ g ∈ p.couplings, g.IsLinear) (h : p.Independent par.rho P)
    (his : is.Perm (List.range p.proxes.length)) (budget : ℕ) {w w' : World σ ℝ}
    (hw : w.state = w'.state) (hP : P w.state) :
    (∀ init : Option (List (Array ℝ)), init.bind p.initDefect? = none →
      Run.answer (solve budget par (init.map (pick is)) (p.arranged is) w') =
        (Run.answer (solve budget par init p w)).map (Option.map (Solution.arranged is))) ∧
    (∀ vs : List (Array ℝ), vs.length = p.proxes.length → p.initDefect? vs ≠ none →
      ∃ l len dim l' len' dim', p.FirstMisfit vs l len dim ∧
        (p.arranged is).FirstMisfit (pick is vs) l' len' dim' ∧
        Run.answer (solve budget par (some vs) p w) =
          .error (.error (.initMismatch l len dim)) ∧
        Run.answer (solve budget par (some (pick is vs)) (p.arranged is) w') =
          .error (.error (.initMismatch l' len' dim'))) ∧
    ∀ vs vs' : List (Array ℝ), vs.length ≠ p.proxes.length → vs'.Perm vs →
      Run.answer (solve budget par (some vs) p w) =
        .error (.error (.initCount p.proxes.length vs.length)) ∧
      Run.answer (solve budget par (some vs') (p.arranged is) w') =
        .error (.error (.initCount p.proxes.length vs.length)) := by
  have hshape' := Problem.shapeDefect?_arranged his hshape
  have hcount : (p.arranged is).proxes.length = p.proxes.length := (pick_perm his).length_eq
  refine ⟨fun init hinit => ?_, fun vs hlen hdefect => ?_, fun vs vs' hlen hperm => ?_⟩
  · obtain ⟨a, b, u, u', ha, hb, hab, -⟩ | ⟨e, u, u', ha, hb, -⟩ :=
      (solve_matched his hshape hl h hinit budget w w' ⟨hw, hP⟩).cases
    · rw [ha, hb]
      cases hab with
      | none => rfl
      | some hab =>
        rw [hab]
        rfl
    · rw [ha, hb]
      rfl
  · obtain ⟨l, len, dim, hd, hfirst⟩ := Problem.exists_firstMisfit hlen hdefect
    have hlen' : (pick is vs).length = (p.arranged is).proxes.length :=
      (pick_perm (hlen ▸ his)).length_eq.trans (hlen.trans hcount.symm)
    obtain ⟨l', len', dim', hd', hfirst'⟩ := Problem.exists_firstMisfit hlen'
      (mt (Problem.initDefect?_arranged his hlen).mp hdefect)
    exact ⟨l, len, dim, l', len', dim', hfirst, hfirst',
      answer_of_initDefect? hpar hshape hd budget w,
      answer_of_initDefect? hpar hshape' hd' budget w'⟩
  · have hd : p.initDefect? vs = some (.initCount p.proxes.length vs.length) := if_pos hlen
    have hd' : (p.arranged is).initDefect? vs' = some (.initCount p.proxes.length vs.length) := by
      rw [← hcount, ← hperm.length_eq] at hlen ⊢
      exact if_pos hlen
    exact ⟨answer_of_initDefect? hpar hshape hd budget w,
      answer_of_initDefect? hpar hshape' hd' budget w'⟩

end Answers

theorem tally_in_both_orders :
    let _ : Spectral ℝ := .exact
    let w : World (Array ℕ) ℝ := .start #[0, 0] none
    restlessly.broken? = none ∧ tally.shapeDefect? = none ∧ (∀ g ∈ tally.couplings, g.IsLinear) ∧
      tally.Independent restlessly.rho (fun s => s.size = 2) ∧
      ∃ a, Run.answer (solve 0 restlessly (some [#[1], #[0, 0]]) tally w) = .ok (some a) ∧
        Run.answer (solve 0 restlessly (some [#[0, 0], #[1]]) (tally.arranged [1, 0]) w) =
          .ok (some (a.arranged [1, 0])) := by
  let _ : Spectral ℝ := .exact
  have hshape : tally.shapeDefect? = none := rfl
  have hstart : (World.start #[0, 0] none : World (Array ℕ) ℝ).state.size = 2 := rfl
  obtain ⟨hfit, -, -⟩ := blocks_in_any_order restlessly_broken? hshape tally_isLinear
    (tally_independent restlessly.rho) (List.Perm.swap 0 1 []) 0 rfl hstart
  have hsame := hfit (some [#[1], #[0, 0]]) rfl
  obtain ⟨s, v, hs, hprimal, hdual⟩ := tally_iteration
  have hlimit : 0 < restlessly.maxIter.getD 0 := by simp [restlessly]
  obtain ⟨a, u, ha, -⟩ := solve_eq_some_of_firstConvergesAt
    (firstConvergesAt_of_residuals_zero hs hprimal hdual) hlimit
  rw [ha] at hsame
  exact ⟨restlessly_broken?, hshape, tally_isLinear, tally_independent _, a, by rw [ha]; rfl,
    hsame⟩

noncomputable def uncoupled : Problem Unit ℝ where
  proxes := [AbsSum.prox 1 1, AbsSum.prox 2 1]
  couplings := []
  rhs := #[]

theorem uncoupled_independent (t : ℝ) : uncoupled.Independent t fun _ => True where
  neverFails := by
    have hnever : ∀ n, (AbsSum.prox n 1 : Prox Unit ℝ).NeverFails t fun _ => True :=
      fun n v w hv _ => ⟨_, w, rfl, by simpa using hv, trivial⟩
    exact List.forall_mem_cons.mpr ⟨hnever 1, List.forall_mem_singleton.mpr (hnever 2)⟩
  oblivious := List.forall_mem_cons.mpr ⟨AbsSum.prox_oblivious 1 1,
    List.forall_mem_singleton.mpr (AbsSum.prox_oblivious 2 1)⟩
  separate := List.pairwise_pair.mpr (AbsSum.prox_commutes 1 2 1 1)

theorem standard_broken? : (Params.standard : Params ℝ).broken? = none := by
  refine Params.broken?_eq_none.mpr ⟨?_, zero_lt_one, ?_, ?_, ?_, ?_⟩ <;>
    norm_num [Params.standard]

/-- A refusal names the block and the length that it wants, so it is not the same in every order. -/
theorem refusal_names_block :
    let _ : Spectral ℝ := .exact
    let w : World Unit ℝ := .start () none
    let answer := Run.answer (solve 0 .standard (some [#[], #[]]) uncoupled w)
    let answer' := Run.answer
      (solve 0 .standard (some (pick [1, 0] [#[], #[]])) (uncoupled.arranged [1, 0]) w)
    (Params.standard : Params ℝ).broken? = none ∧ uncoupled.shapeDefect? = none ∧
      (∀ g ∈ uncoupled.couplings, g.IsLinear) ∧
      uncoupled.Independent Params.standard.rho (fun _ => True) ∧
      [1, 0].Perm (List.range uncoupled.proxes.length) ∧
      answer = .error (.error (.initMismatch 0 0 1)) ∧
      answer' = .error (.error (.initMismatch 0 0 2)) ∧
      answer' ≠ answer.map (Option.map (Solution.arranged [1, 0])) := by
  let _ : Spectral ℝ := .exact
  have hd : uncoupled.initDefect? [#[], #[]] = some (.initMismatch 0 0 1) := rfl
  have hd' : (uncoupled.arranged [1, 0]).initDefect? (pick [1, 0] [#[], #[]]) =
      some (.initMismatch 0 0 2) := rfl
  have hanswer := answer_of_initDefect? standard_broken? rfl hd 0 (.start () none)
  have hanswer' := answer_of_initDefect? standard_broken? rfl hd' 0 (.start () none)
  refine ⟨standard_broken?, rfl, by simp [uncoupled], uncoupled_independent _,
    List.Perm.swap 0 1 [], hanswer, hanswer', ?_⟩
  rw [hanswer, hanswer']
  simp [Except.map, Defect.error]

end Solver

end Splitting
