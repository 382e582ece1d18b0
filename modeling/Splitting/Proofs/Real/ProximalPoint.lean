import Splitting.Proofs.Real.AnyOrder
import Splitting.Proofs.Real.Fejer
import Splitting.Proofs.Refusal
import Splitting.Proofs.Separate

/-!
# Problems without coupling

Without a coupling there is nothing to project onto, and the method is the proximal-point method on
each block: the next point of a block is the proximal point of the last one.
-/

namespace Splitting

namespace Solver

/-! ## What is measured -/

theorem measure?_of_inactive {p : Projection ℝ} (ha : p.active = false) {rho : ℝ} (hrho : 0 < rho)
    (s : Projection.Scratch ℝ) {n : ℕ} {v x : Array ℝ} (hv : v.size = n) (hx : x.size = n) :
    ∃ m, measure? p rho s v x = some m ∧ m.image = x ∧ m.primal = 0 ∧
      m.dual = ‖vec n v - vec n x‖ / rho := by
  obtain ⟨r, hr, hsr⟩ := Vec.sub?_total (x := v) (y := Vec.scale Scalar.two x) (by simp [hv, hx])
  obtain ⟨g, hg, hsg⟩ := Vec.sub?_total (x := r) (y := x) (by rw [hsr, Vec.size_scale])
  obtain ⟨f, hf, hsf⟩ := Vec.sub?_total (x := g) (y := v) (by rw [hsg, hx, hv])
  obtain ⟨l, hl, hsl⟩ := Vec.sub?_total (x := x) (y := v) (by rw [hx, hv])
  refine ⟨⟨f, g, 0, Vec.norm (Vec.scale (Scalar.recip rho) l), s⟩,
    by simp [measure?, Projection.project?, Projection.residual?, Projection.rangeResidual?, ha, hr,
      hg, hf, hl], ?_, rfl, ?_⟩
  · refine eq_of_vec_eq (hsf.trans hv) hx ?_
    have htwo : (Scalar.two : ℝ) = 2 := one_add_one_eq_two
    rw [vec_sub? hf, vec_sub? hg, vec_sub? hr, vec_scale, htwo, two_smul]
    abel
  · have hrecip : (Scalar.recip rho : ℝ) = 1 / rho := rfl
    rw [norm_eq (n := n) (by rw [Vec.size_scale, hsl, hv]), vec_scale, vec_sub? hl, norm_smul,
      hrecip, Real.norm_of_nonneg (one_div_nonneg.mpr hrho.le), one_div_mul_eq_div]

/-! ## One iteration -/

section Course

variable {τ : Type} {par : Params ℝ} {qs : List (Prox τ ℝ)} {ss : Array τ} {vs : List (Array ℝ)}
  {proj : Projection ℝ}

/-- Before iteration `i` the blocks are where their operators alone lead in `i` calls. -/
structure Alone (par : Params ℝ) (qs : List (Prox τ ℝ)) (ss : Array τ) (vs : List (Array ℝ)) (i : ℕ)
    (q : Progress ℝ) (t : World (Array τ) ℝ) (xs : List (Array ℝ)) : Prop where
  v : q.v = stack xs
  plain : q.acceleration = none
  blocks : Separately par.rho qs ss vs i xs t.state
  lasting : AllLasting par.rho qs t.state

/-- What an iteration sees that starts from `xs`, with the answers `ys`. -/
structure Looks (par : Params ℝ) (qs : List (Prox τ ℝ)) (s : Sight ℝ) (xs ys : List (Array ℝ)) :
    Prop where
  x : s.x = stack ys
  image : s.measure.image = stack ys
  primal : s.measure.primal = 0
  dual : s.measure.dual = ‖vec (total (qs.map Prox.dim)) (stack xs) -
    vec (total (qs.map Prox.dim)) (stack ys)‖ / par.rho

theorem Alone.look (hrho : 0 < par.rho) (hobl : ∀ q ∈ qs, q.Oblivious) (ha : proj.active = false)
    {i : ℕ} {q : Progress ℝ} {t : World (Array τ) ℝ} {xs : List (Array ℝ)}
    (h : Alone par qs ss vs i q t xs) :
    ∃ s v ys, look par (Problem.decoupled qs).proxes proj q t = .ok s v ∧
      Answers par.rho q.v (Problem.decoupled qs).proxes 0 (opened par q.iter t) ys v ∧
      Looks par qs s xs ys ∧ Separately par.rho qs ss vs (i + 1) ys v.state ∧
      AllLasting par.rho qs v.state := by
  have hdims : (Problem.decoupled qs).proxes.map Prox.dim = qs.map Prox.dim :=
    Problem.dims_decoupled qs
  have hsize : q.v.size = total (qs.map Prox.dim) := by rw [h.v, size_stack, h.blocks.sizes]
  have hfits : 0 + total ((Problem.decoupled qs).proxes.map Prox.dim) ≤ q.v.size := by
    rw [hdims, hsize, Nat.zero_add]
  have hopened : AllLasting par.rho qs (opened par q.iter t).state := by
    rw [state_opened]
    exact h.lasting
  obtain ⟨ys, v, hys, hlast⟩ :=
    Answers.exists_of_neverFails (fun _ => neverFails_allLasting) hfits hopened
  have hsizes : (stack ys).size = total (qs.map Prox.dim) := by
    rw [size_stack, hys.sizes, hdims]
  obtain ⟨m, hm, himage, hprimal, hdual⟩ :=
    measure?_of_inactive ha hrho q.scratch hsize hsizes
  have hlook : Solver.look par (Problem.decoupled qs).proxes proj q t = .ok ⟨stack ys, m⟩ v :=
    look_eq_ok.mpr ⟨proxPoints_eq_ok.mpr ⟨ys, hys, by rw [Array.empty_append]⟩, hm⟩
  have hnext : Separately par.rho qs ss vs (i + 1) ys v.state := by
    refine Separately.next (w := opened par q.iter t) hobl ?_ (h.v ▸ hys)
    rw [state_opened]
    exact h.blocks
  rw [h.v] at hdual
  exact ⟨_, v, ys, hlook, hys, ⟨rfl, himage, hprimal, hdual⟩, hnext, hlast⟩

variable [Spectral ℝ]

theorem Alone.pass (hrho : 0 < par.rho) (hobl : ∀ q ∈ qs, q.Oblivious) (ha : proj.active = false)
    {i : ℕ} {q : Progress ℝ} {t : World (Array τ) ℝ} {xs : List (Array ℝ)}
    (h : Alone par qs ss vs i q t xs) :
    ∃ r v ys, pass par (Problem.decoupled qs).proxes proj q t = .ok r v ∧
      Alone par qs ss vs (i + 1) r v ys := by
  obtain ⟨s, u, ys, hlook, -, hsees, hblocks, hlast⟩ := h.look hrho hobl ha
  have hnext : nextPoint? par s.measure q.acceleration = some (s.measure.image, none, none) := by
    rw [h.plain]
    rfl
  refine ⟨_, _, ys, pass_eq_ok.mpr ⟨s, u, _, _, _, hlook, hnext, rfl, rfl⟩, hsees.image, rfl,
    ?_, ?_⟩
  · rw [reported, Option.elim_none, World.state_note]
    exact hblocks
  · rw [reported, Option.elim_none, World.state_note]
    exact hlast

theorem Alone.course (hrho : 0 < par.rho) (hobl : ∀ q ∈ qs, q.Oblivious) (ha : proj.active = false)
    {b : Progress ℝ} {u : World (Array τ) ℝ} (h : Alone par qs ss vs 0 b u vs) (i : ℕ) :
    ∃ q t xs, course par (Problem.decoupled qs).proxes proj i b u = .ok q t ∧
      Alone par qs ss vs i q t xs := by
  induction i with
  | zero => exact ⟨b, u, vs, rfl, h⟩
  | succ i ih =>
    obtain ⟨q, t, xs, hq, halone⟩ := ih
    obtain ⟨r, v, ys, hr, hnext⟩ := halone.pass hrho hobl ha
    exact ⟨r, v, ys, course_succ_eq_ok.mpr ⟨q, t, hq, hr⟩, hnext⟩

end Course

/-! ## Whole runs -/

section Run

variable {τ : Type} [Spectral ℝ] {par : Params ℝ} {init : Option (List (Array ℝ))}
  {qs : List (Prox τ ℝ)} {w : World (Array τ) ℝ}

theorem exists_alone (hacc : Accepted par init (Problem.decoupled qs))
    (hroom : HasRoom par (Problem.decoupled qs).dims) (hplain : par.anderson = false)
    (hlast : AllLasting par.rho qs w.state) :
    ∃ proj u, prepare par init (Problem.decoupled qs) w = .ok proj u ∧ proj.active = false ∧
      Alone par qs w.state (starts qs init) 0
        (begin par (Problem.decoupled qs).dims proj init) u (starts qs init) := by
  have hd := defect?_eq_none_iff_accepted.mpr hacc
  obtain ⟨proj, u, hp⟩ := prepare_total hd hroom
    (fun g hg => absurd hg (List.not_mem_nil (a := g))) w
  obtain ⟨-, hproj, -, hu⟩ := prepare_eq_ok.mp hp
  have hstate : u.state = w.state := by rw [hu]; simp only [World.state_note]
  have hsizes : (starts qs init).map Array.size = qs.map Prox.dim := by
    cases init with
    | none => simp [starts, Function.comp_def]
    | some vs =>
      rw [← Problem.dims_decoupled]
      exact hacc.start vs rfl
  refine ⟨proj, u, hp, ?_, startPoint_decoupled, by simp [begin, hplain], ?_, hstate ▸ hlast⟩
  · have hrhs := (Projection.parts_of_ofCouplings? hproj).2
    simp [Projection.active, hrhs, Problem.decoupled]
  · rw [hstate]
    exact .start hlast hsizes

/-- Iteration `i` starts where the operators alone lead in `i` calls, and calls each of them once
more. -/
theorem own_iteration (hacc : Accepted par init (Problem.decoupled qs))
    (hroom : HasRoom par (Problem.decoupled qs).dims) (hplain : par.anderson = false)
    (hobl : ∀ q ∈ qs, q.Oblivious) (hlast : AllLasting par.rho qs w.state) (i : ℕ) :
    ∃ xs ys, OwnPoints par.rho init qs w.state i xs ∧
      OwnPoints par.rho init qs w.state (i + 1) ys ∧
      StartsFrom par init (Problem.decoupled qs) w i (stack xs) ∧
      AnswersAt par init (Problem.decoupled qs) w i ys ∧
      residuals? par init (Problem.decoupled qs) w i =
        some (0, ‖vec (total (qs.map Prox.dim)) (stack xs) -
          vec (total (qs.map Prox.dim)) (stack ys)‖ / par.rho) := by
  obtain ⟨proj, u, hp, hactive, hbegin⟩ := exists_alone hacc hroom hplain hlast
  obtain ⟨q, t, xs, hq, halone⟩ := hbegin.course hacc.params.rho hobl hactive i
  obtain ⟨s, v, ys, hlook, hys, hsees, hblocks, -⟩ := halone.look hacc.params.rho hobl hactive
  refine ⟨xs, ys, ⟨_, halone.blocks⟩, ⟨_, hblocks⟩, ⟨proj, u, q, t, hp, hq, halone.v⟩,
    ⟨proj, u, q, t, v, hp, hq, hys⟩, ?_⟩
  refine (residuals?_eq_some hp).mpr ⟨s, ⟨q, t, v, hq, hlook⟩, ?_⟩
  rw [hsees.primal, hsees.dual]

/-- Without a coupling a run is the proximal-point method on each block by itself. The point of a
block before iteration `i` is what its operator makes of its starting vector in `i` calls, and so
are the blocks of an answer after as many calls as it counts iterations. The primal residuals are
zero, and the dual ones the steps over `rho`. -/
theorem decoupled_run_is_proximal_point (hacc : Accepted par init (Problem.decoupled qs))
    (hroom : HasRoom par (Problem.decoupled qs).dims) (hplain : par.anderson = false)
    (hobl : ∀ q ∈ qs, q.Oblivious) (hlast : AllLasting par.rho qs w.state) :
    let p := Problem.decoupled qs
    let n := total (qs.map Prox.dim)
    (∀ i, ∃ xs ys, OwnPoints par.rho init qs w.state i xs ∧
      OwnPoints par.rho init qs w.state (i + 1) ys ∧
      StartsFrom par init p w i (stack xs) ∧ AnswersAt par init p w i ys ∧
      residuals? par init p w i =
        some (0, ‖vec n (stack xs) - vec n (stack ys)‖ / par.rho)) ∧
    ∀ budget a v, solve budget par init p w = .ok (some a) v →
      OwnPoints par.rho init qs w.state a.iterations a.blocks ∧
      a.primal = Array.replicate a.iterations 0 ∧ a.dual.size = a.iterations ∧
      ∀ i < a.iterations, ∃ xs ys, OwnPoints par.rho init qs w.state i xs ∧
        OwnPoints par.rho init qs w.state (i + 1) ys ∧
        a.dual[i]? = some (‖vec n (stack xs) - vec n (stack ys)‖ / par.rho) := by
  intro p n
  have hiteration := own_iteration hacc hroom hplain hobl hlast
  refine ⟨hiteration, fun budget a v ha => ?_⟩
  obtain ⟨i, proj, u, q, t, s, t', -, hp, hq, hs, -, rfl, -⟩ := solve_eq_some.mp ha
  obtain ⟨hk, hprimal, hdual, hall, -, hans⟩ := solution_of_course hp hq hs
  rw [hk]
  refine ⟨?_, ?_, hdual, fun j hj => ?_⟩
  · obtain ⟨xs, ys, -, hown, -, hys, -⟩ := hiteration i
    rwa [hans.unique hys]
  · refine Array.ext (by simp [hprimal]) fun j hj hj' => ?_
    obtain ⟨r, hr, hrp, -⟩ := hall j (by omega)
    obtain ⟨xs, ys, -, -, -, -, hres⟩ := hiteration j
    cases hr.symm.trans hres
    rw [Array.getElem?_eq_getElem hj] at hrp
    simpa using hrp
  · obtain ⟨r, hr, -, hrd⟩ := hall j (by omega)
    obtain ⟨xs, ys, hx, hy, -, -, hres⟩ := hiteration j
    cases hr.symm.trans hres
    exact ⟨xs, ys, hx, hy, hrd⟩

end Run

def counters : List (Prox ℕ ℝ) := [counting 1, counting 2]

theorem counting_repeated (n : ℕ) (t : ℝ) (k : ℕ) :
    (counting n).repeated t (Vec.zeros n) k (.start 0 none) =
      .ok (Array.replicate n (∑ i ∈ Finset.range k, (i : ℝ))) (.start k none) := by
  induction k with
  | zero =>
    rw [Finset.sum_range_zero]
    rfl
  | succ k ih =>
    refine Prox.repeated_succ_eq_ok.mpr ⟨_, _, ih, apply_eq_ok.mpr ⟨?_, rfl, ?_, ?_⟩⟩
    · exact Array.size_replicate
    · simp [counting, World.start, World.withState, Finset.sum_range_succ]
    · exact Array.size_replicate

theorem counters_accepted : Accepted (plainly 0) none (Problem.decoupled counters) where
  params := Params.broken?_eq_none_iff_valid.mp (plainly_broken? le_rfl)
  shaped := ⟨by simp [Problem.decoupled, counters], Or.inl ⟨rfl, rfl⟩⟩
  start := by simp

theorem counters_run_by_themselves :
    let _ : Spectral ℝ := .exact
    let w : World (Array ℕ) ℝ := .start #[0, 0] none
    Accepted (plainly 0) none (Problem.decoupled counters) ∧
      HasRoom (plainly 0) (Problem.decoupled counters).dims ∧ (plainly 0).anderson = false ∧
      (∀ q ∈ counters, q.Oblivious) ∧ AllLasting (plainly 0).rho counters w.state ∧
      StartsFrom (plainly 0) none (Problem.decoupled counters) w 3 #[3, 3, 3] := by
  let _ : Spectral ℝ := .exact
  let w : World (Array ℕ) ℝ := .start #[0, 0] none
  have hroom : HasRoom (plainly 0) (Problem.decoupled counters).dims := by
    rw [Problem.dims_decoupled]
    exact ⟨by simp [plainly], by decide⟩
  have hobl : ∀ q ∈ counters, q.Oblivious :=
    List.forall_mem_cons.mpr ⟨counting_oblivious 1,
      List.forall_mem_singleton.mpr (counting_oblivious 2)⟩
  have hlast : AllLasting (plainly 0).rho counters w.state := by
    intro l q hq
    rcases l with _ | _ | l
    · obtain rfl : counting 1 = q := Option.some.inj hq
      exact ⟨0, rfl, (counting_total 1 _).lasting 0⟩
    · obtain rfl : counting 2 = q := Option.some.inj hq
      exact ⟨0, rfl, (counting_total 2 _).lasting 0⟩
    · exact absurd hq (by simp [counters])
  refine ⟨counters_accepted, hroom, rfl, hobl, hlast, ?_⟩
  obtain ⟨hrun, -⟩ := decoupled_run_is_proximal_point counters_accepted hroom rfl hobl hlast
  obtain ⟨xs, -, ⟨ss', hown⟩, -, hstart, -⟩ := hrun 3
  have hsum : ∑ i ∈ Finset.range 3, (i : ℝ) = 3 := by norm_num [Finset.sum_range_succ]
  have hblock : ∀ (l n : ℕ), counters[l]? = some (counting n) → w.state[l]? = some 0 →
      (starts counters none)[l]? = some (Vec.zeros n) →
      xs[l]? = some (Array.replicate n 3) := by
    intro l n hl hzero hzeros
    obtain ⟨s, v, x, u, hs, hv, hx, hrep, -⟩ := hown.block l _ hl
    cases hzero.symm.trans hs
    cases hzeros.symm.trans hv
    rw [counting_repeated, hsum] at hrep
    cases hrep
    exact hx
  have hlen : xs.length = 2 := by simpa [counters] using congrArg List.length hown.sizes
  obtain ⟨x, y, rfl⟩ := List.length_eq_two.mp hlen
  cases hblock 0 1 rfl rfl rfl
  cases hblock 1 2 rfl rfl rfl
  exact hstart

end Solver

end Splitting
