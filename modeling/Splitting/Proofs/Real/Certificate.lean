import Splitting.Proofs.Real.Pinned

/-!
# What a converged run proves

The last iteration carries a multiplier that bounds how far its points are from the optimum, by the
two residuals. The bound needs nothing of the weight, and nothing of how the point was reached.
-/

namespace Splitting

def objective : List (Array ℝ → WithTop ℝ) → List (Array ℝ) → WithTop ℝ
  | f :: fs, x :: xs => f x + objective fs xs
  | _, _ => 0

/-- Against feasible points the slope `s` is as good as its unreached part, up to the gap at `x`. -/
theorem Projection.inner_slope_ge (p : Projection ℝ) {n : ℕ} (s x z : EuclideanSpace ℝ (Fin n))
    (hz : p.coupling n z = vec p.rhs.size p.rhs) :
    -(‖p.weight (p.coupling n s)‖ * ‖p.coupling n x - vec p.rhs.size p.rhs‖ +
        ‖p.unreached n s‖ * ‖z - x‖) ≤ inner ℝ s (z - x) := by
  have hsplit : inner ℝ s (z - x) =
      inner ℝ (p.unreached n s) (z - x) -
        inner ℝ (p.weight (p.coupling n s)) (p.coupling n x - vec p.rhs.size p.rhs) := by
    rw [unreached, inner_sub_left, inner_transposed, map_sub, hz, inner_sub_right,
      inner_sub_right, inner_sub_right]
    ring
  have h₁ := abs_le.mp (abs_real_inner_le_norm (p.unreached n s) (z - x))
  have h₂ := abs_le.mp (abs_real_inner_le_norm (p.weight (p.coupling n s))
    (p.coupling n x - vec p.rhs.size p.rhs))
  rw [hsplit]
  linarith [h₁.1, h₂.2]

namespace Solver

variable {σ : Type}

theorem Answers.objective_le {ps : List (Prox σ ℝ)} {fs : List (Array ℝ → WithTop ℝ)}
    (hf : List.Forall₂ Prox.IsProxOf ps fs) {rho : ℝ} (hrho : 0 < rho) {v : Array ℝ} {start : ℕ}
    {xs : List (Array ℝ)} {w w' : World σ ℝ} (h : Answers rho v ps start w xs w')
    {zs : List (Array ℝ)} (hz : zs.map Array.size = ps.map Prox.dim) :
    objective fs xs +
      (∑ i ∈ Finset.range (total (ps.map Prox.dim)), 1 / rho *
        ((v.getD (start + i) 0 - (stack xs).getD i 0) *
          ((stack zs).getD i 0 - (stack xs).getD i 0)) : ℝ) ≤ objective fs zs := by
  induction h generalizing fs zs with
  | nil =>
    cases hf
    simp [objective]
  | @cons p ps start x xs w u w' hx _ ih =>
    cases hf with
    | @cons _ f _ fs hp hf =>
      cases zs with
      | nil => simp at hz
      | cons z zs =>
        obtain ⟨hzs, hrest⟩ := List.cons.inj hz
        obtain ⟨hv, -, heval, hxs⟩ := apply_eq_ok.mp hx
        have hblock := hp.ge rho _ _ _ _ hrho hv heval hxs z hzs
        rw [real_inner_smul_left, inner_sub_sub, Finset.mul_sum] at hblock
        have htail := ih hf hrest
        have hsum := sum_append hxs hzs (stack xs) (stack zs) (total (ps.map Prox.dim))
          fun i a b => 1 / rho * ((v.getD (start + i) 0 - a) * (b - a))
        simp only [List.map_cons, total_cons, stack_cons, objective]
        rw [hsum]
        have hfirst := Projection.sum_extract hv
          fun i a => 1 / rho * ((a - x.getD i 0) * (z.getD i 0 - x.getD i 0))
        rw [hfirst] at hblock
        simp only [Nat.add_assoc] at htail
        rw [WithTop.coe_add, add_add_add_comm]
        exact add_le_add hblock htail

/-- The multiplier at the answer `x` to the point `v`. -/
noncomputable def multiplier (proj : Projection ℝ) (rho : ℝ) (n : ℕ) (v x : Array ℝ) :
    EuclideanSpace ℝ (Fin proj.rhs.size) :=
  proj.weight (proj.coupling n ((1 / rho) • (vec n v - vec n x)))

theorem Answers.objective_inner_le {ps : List (Prox σ ℝ)} {fs : List (Array ℝ → WithTop ℝ)}
    (hf : List.Forall₂ Prox.IsProxOf ps fs) {rho : ℝ} (hrho : 0 < rho) {v : Array ℝ}
    {xs : List (Array ℝ)} {w w' : World σ ℝ} (h : Answers rho v ps 0 w xs w')
    {zs : List (Array ℝ)} (hz : zs.map Array.size = ps.map Prox.dim) {n : ℕ}
    (hn : total (ps.map Prox.dim) = n) :
    objective fs xs + (inner ℝ ((1 / rho) • (vec n v - vec n (stack xs)))
      (vec n (stack zs) - vec n (stack xs)) : ℝ) ≤ objective fs zs := by
  have hle := h.objective_le hf hrho hz
  rw [real_inner_smul_left, inner_sub_sub, Finset.mul_sum, ← hn]
  simpa only [Nat.zero_add] using hle

theorem objective_le_of_look {par : Params ℝ} {proxes : List (Prox σ ℝ)}
    {fs : List (Array ℝ → WithTop ℝ)} (hf : List.Forall₂ Prox.IsProxOf proxes fs)
    (hrho : 0 < par.rho) {proj : Projection ℝ} {n : ℕ} (h : proj.Linear n)
    (hn : total (proxes.map Prox.dim) = n) {q : Progress ℝ} (hq : q.Sized n proj.rhs.size)
    {w v : World σ ℝ} {s : Sight ℝ} (hs : look par proxes proj q w = .ok s v)
    {zs : List (Array ℝ)} (hz : zs.map Array.size = proxes.map Prox.dim)
    (hfeas : proj.coupling n (vec n (stack zs)) = vec proj.rhs.size proj.rhs) :
    objective fs (cut s.x (proxes.map Prox.dim) 0) ≤ objective fs zs +
      (‖multiplier proj par.rho n q.v s.x‖ * s.measure.primal +
        s.measure.dual * ‖vec n (stack zs) - vec n s.x‖ : ℝ) := by
  obtain ⟨xs, hxs, hx⟩ := proxPoints_eq_ok.mp (look_eq_ok.mp hs).1
  rw [Array.empty_append] at hx
  obtain ⟨hprimal, hdual, -, -⟩ := look_vec h hn hq hs
  have hle := hxs.objective_inner_le hf hrho hz hn
  have hge := proj.inner_slope_ge ((1 / par.rho) • (vec n q.v - vec n s.x)) (vec n s.x)
    (vec n (stack zs)) hfeas
  rw [← hx] at hle
  rw [← hprimal, ← hdual] at hge
  have hcut : cut s.x (proxes.map Prox.dim) 0 = xs := by rw [hx, ← hxs.sizes, cut_stack]
  set e : ℝ := inner ℝ ((1 / par.rho) • (vec n q.v - vec n s.x)) (vec n (stack zs) - vec n s.x)
  rw [hcut]
  calc objective fs xs = objective fs xs + (e : WithTop ℝ) + ((-e : ℝ) : WithTop ℝ) := by
        rw [add_assoc, ← WithTop.coe_add, add_neg_cancel, WithTop.coe_zero, add_zero]
    _ ≤ objective fs zs + ((-e : ℝ) : WithTop ℝ) := by gcongr
    _ ≤ _ := by
        gcongr
        exact WithTop.coe_le_coe.mpr (neg_le.mp hge)

theorem residuals_eq_zero_of_converges {par : Params ℝ} {proxes : List (Prox σ ℝ)}
    {proj : Projection ℝ} {n : ℕ} (h : proj.Linear n) (hn : total (proxes.map Prox.dim) = n)
    {q : Progress ℝ} (hq : q.Sized n proj.rhs.size) {w v : World σ ℝ} {s : Sight ℝ}
    (hs : look par proxes proj q w = .ok s v) (hc : Converges par q s) (habs : par.epsAbs = 0)
    (hrel : par.epsRel = 0) : s.measure.primal = 0 ∧ s.measure.dual = 0 := by
  obtain ⟨hprimal, hdual, -, -⟩ := look_vec h hn hq hs
  unfold Converges converged at hc
  rw [habs, hrel] at hc
  obtain ⟨h₁, h₂⟩ := (Bool.and_eq_true _ _).mp hc
  have h₁ := of_decide_eq_true h₁
  have h₂ := of_decide_eq_true h₂
  have hz₁ : (0 : ℝ) + 0 * (q.reference s.measure).1 = 0 := by ring
  have hz₂ : (0 : ℝ) + 0 * (q.reference s.measure).2 = 0 := by ring
  have hnn₁ : 0 ≤ s.measure.primal := by rw [hprimal]; exact norm_nonneg _
  have hnn₂ : 0 ≤ s.measure.dual := by rw [hdual]; exact norm_nonneg _
  exact ⟨le_antisymm (h₁.trans_eq hz₁) hnn₁, le_antisymm (h₂.trans_eq hz₂) hnn₂⟩

section

variable [Spectral ℝ]

/-- A converged run is as good as any feasible point, up to its residuals; with no tolerance it is
feasible and optimal. -/
theorem converged_solution_certificate {budget : ℕ} {par : Params ℝ}
    {init : Option (List (Array ℝ))} {p : Problem σ ℝ} {w v : World σ ℝ} {a : Solution ℝ}
    {fs : List (Array ℝ → WithTop ℝ)} (hl : ∀ g ∈ p.couplings, g.IsLinear)
    (hf : List.Forall₂ Prox.IsProxOf p.proxes fs)
    (h : solve budget par init p w = .ok (some a) v) :
    (∃ proj u q t s t', prepare par init p w = .ok proj u ∧
      course par p.proxes proj (a.iterations - 1) (begin par p.dims proj init) u = .ok q t ∧
      look par p.proxes proj q t = .ok s t' ∧ proj.rhs = p.rhs ∧
      ∃ mu, mu = multiplier proj par.rho (total p.dims) q.v s.x ∧ ∀ zs, p.Feasible zs →
        objective fs a.blocks ≤ objective fs zs +
          (‖mu‖ * a.primal.getD (a.iterations - 1) 0 + a.dual.getD (a.iterations - 1) 0 *
            ‖vec (total p.dims) (stack zs) - vec (total p.dims) (stack a.blocks)‖ : ℝ)) ∧
    (par.epsAbs = 0 → par.epsRel = 0 →
      p.Feasible a.blocks ∧ ∀ zs, p.Feasible zs → objective fs a.blocks ≤ objective fs zs) := by
  obtain ⟨i, proj, u, q, t, s, t', -, hp, hq, hs, hc, rfl, -⟩ := solve_eq_some.mp h
  obtain ⟨hk, -, -, -, hdims, -⟩ := solution_of_course hp hq hs
  obtain ⟨-, hrhs, hlin⟩ := linear_of_prepare hl hp
  obtain ⟨-, -, hbegin⟩ := fits_of_prepare (fun g hg => (hl g hg).sound) hp
  have hsized := course_sized rfl hlin.toFits hbegin hq
  obtain ⟨-, hrho, -⟩ := Params.broken?_eq_none.mp (broken?_of_defect? (prepare_eq_ok.mp hp).1)
  have hlast : ∀ zs, p.Feasible zs → objective fs (q.solution p.dims s).blocks ≤
      objective fs zs + (‖multiplier proj par.rho (total p.dims) q.v s.x‖ * s.measure.primal +
        s.measure.dual * ‖vec (total p.dims) (stack zs) - vec (total p.dims) s.x‖ : ℝ) :=
    fun zs hz => objective_le_of_look hf hrho hlin rfl hsized hs hz.sizes
      ((feasible_iff hl hp hz.sizes).mp hz)
  obtain ⟨hps, hds, -⟩ := course_history hq rfl rfl
  have hprimal : (q.solution p.dims s).primal.getD i 0 = s.measure.primal :=
    getD_push_size hps _ _
  have hdual : (q.solution p.dims s).dual.getD i 0 = s.measure.dual :=
    getD_push_size hds _ _
  have hstack : stack (q.solution p.dims s).blocks = s.x := stack_blocks hs
  rw [hk, Nat.add_sub_cancel, hprimal, hdual, hstack]
  refine ⟨⟨proj, u, q, t, s, t', hp, hq, hs, hrhs, _, rfl, hlast⟩, fun habs hrel => ?_⟩
  obtain ⟨h₁, h₂⟩ := residuals_eq_zero_of_converges hlin rfl hsized hs
    ((converges_iff hp hq hs).mpr hc.1) habs hrel
  obtain ⟨hgap, -⟩ := look_vec hlin rfl hsized hs
  constructor
  · rw [feasible_iff hl hp hdims, hstack]
    rw [h₁] at hgap
    exact sub_eq_zero.mp (norm_eq_zero.mp hgap.symm)
  · intro zs hz
    have hle := hlast zs hz
    rwa [h₁, h₂, mul_zero, zero_mul, add_zero, WithTop.coe_zero, add_zero] at hle

end

theorem pinned_solution_certificate :
    ∃ a v, @solve Unit ℝ _ Spectral.exact 1 (plainly 0) (some [AbsSum.lifted (1 * 1) #[1]])
        (pinned 1 #[1]) (World.start () none) = .ok (some a) v ∧
      (pinned 1 #[1] : Problem Unit ℝ).Feasible a.blocks ∧
      ∀ zs, (pinned 1 #[1] : Problem Unit ℝ).Feasible zs →
        objective [fun x => (AbsSum.value 1 1 x : WithTop ℝ)] a.blocks ≤
          objective [fun x => (AbsSum.value 1 1 x : WithTop ℝ)] zs := by
  let _ : Spectral ℝ := .exact
  have hfirst := pinned_converges (σ := Unit) (h := #[1]) exactSpectrum_exact zero_le_one
    (plainly_broken? le_rfl) rfl (plainly_hasRoom 0) (World.start () none)
  have hbudget : 0 < (plainly 0).maxIter.getD 1 := zero_lt_one
  obtain ⟨a, v, hsolve, -⟩ := solve_eq_some_of_firstConvergesAt hfirst hbudget
  obtain ⟨-, hexact⟩ := converged_solution_certificate pinned_isLinear
    (pinned_isProxOf zero_le_one) hsolve
  obtain ⟨hfeas, hopt⟩ := hexact rfl rfl
  exact ⟨a, v, hsolve, hfeas, hopt⟩

end Solver

end Splitting
