import Splitting.Proofs.Real.Contraction
import Splitting.Proofs.Verdict

/-!
# A problem with one feasible point

The sum of magnitudes, where the coupling pins every entry. Its answer is known beforehand, and so
is a point at which a run settles.
-/

namespace Splitting

/-! ## Where shrinking leads to -/

namespace AbsSum

/-- Moves every entry away from zero. -/
noncomputable def lifted (thr : ℝ) (h : Array ℝ) : Array ℝ :=
  h.map fun e => if e < 0 then e - thr else e + thr

@[simp] theorem size_lifted (thr : ℝ) (h : Array ℝ) : (lifted thr h).size = h.size := by
  simp [lifted]

theorem shrink_lift {thr : ℝ} (h : 0 ≤ thr) (e : ℝ) :
    shrink thr (if e < 0 then e - thr else e + thr) = e := by
  show (if (if e < 0 then e - thr else e + thr) < 0
    then -max (|if e < 0 then e - thr else e + thr| - thr) 0
    else max (|if e < 0 then e - thr else e + thr| - thr) 0) = e
  rcases lt_or_ge e 0 with he | he
  · rw [if_pos he, if_pos (by linarith), abs_of_neg (by linarith), max_eq_left (by linarith)]
    ring
  · have hpos : 0 ≤ e + thr := add_nonneg he h
    rw [if_neg (not_lt.mpr he), if_neg (not_lt.mpr hpos), abs_of_nonneg hpos, add_sub_cancel_right,
      max_eq_left he]

theorem map_shrink_lifted {thr : ℝ} (h : 0 ≤ thr) (x : Array ℝ) :
    (lifted thr x).map (shrink thr) = x := by
  unfold lifted
  rw [Array.map_map]
  refine Array.ext (by simp) fun i hi hi' => ?_
  rw [Array.getElem_map]
  exact shrink_lift h _

end AbsSum

/-! ## The problem -/

variable {σ : Type}

/-- Minimise `alpha (|x₁| + … + |xₙ|)` subject to `x = h`. -/
noncomputable def pinned (alpha : ℝ) (h : Array ℝ) : Problem σ ℝ where
  proxes := [AbsSum.prox h.size alpha]
  couplings := [.scaledIdentity h.size 1]
  rhs := h

section Pinned

variable {alpha : ℝ} {h : Array ℝ}

theorem pinned_isLinear : ∀ g ∈ (pinned alpha h : Problem σ ℝ).couplings, g.IsLinear := by
  intro g hg
  rw [List.mem_singleton.mp hg]
  exact Operator.isLinear_scaledIdentity h.size 1

theorem pinned_total (t : ℝ) : ∀ q ∈ (pinned alpha h : Problem σ ℝ).proxes, q.Total t := by
  intro q hq
  rw [List.mem_singleton.mp hq]
  exact AbsSum.prox_total h.size alpha t

theorem pinned_firm (ha : 0 ≤ alpha) {t : ℝ} (ht : 0 < t) :
    ∀ q ∈ (pinned alpha h : Problem σ ℝ).proxes, q.FirmlyNonexpansive t := by
  intro q hq
  rw [List.mem_singleton.mp hq]
  exact AbsSum.firmlyNonexpansive ha ht h.size

theorem pinned_isProxOf (ha : 0 ≤ alpha) :
    List.Forall₂ Prox.IsProxOf (pinned alpha h : Problem σ ℝ).proxes
      [fun x => (AbsSum.value h.size alpha x : WithTop ℝ)] :=
  .cons (AbsSum.isProxOf ha h.size) .nil

theorem pinned_coupled {z : Array ℝ} {r : ℕ} (hr : r < h.size) :
    (pinned alpha h : Problem σ ℝ).coupled [z] r = z.getD r 0 := by
  show (∑ c ∈ Finset.range h.size,
    (Operator.scaledIdentity h.size 1).coeff r c * z.getD c 0) + 0 = _
  rw [add_zero, Operator.sum_coeff_scaledIdentity 1 hr, one_mul]

theorem pinned_feasible : (pinned alpha h : Problem σ ℝ).Feasible [h] :=
  ⟨rfl, fun _ hr => pinned_coupled hr⟩

theorem pinned_coupledNorm (z : Array ℝ) :
    (pinned alpha h : Problem σ ℝ).coupledNorm [z] = ‖vec h.size z‖ := by
  show √(∑ r ∈ Finset.range h.size, (pinned alpha h : Problem σ ℝ).coupled [z] r ^ 2) = _
  rw [EuclideanSpace.norm_eq,
    ← Fin.sum_univ_eq_sum_range fun r => (pinned alpha h : Problem σ ℝ).coupled [z] r ^ 2]
  congr 1
  refine Finset.sum_congr rfl fun r _ => ?_
  rw [pinned_coupled r.isLt, Real.norm_eq_abs, sq_abs, vec_apply]

theorem pinned_bounded (zs : List (Array ℝ))
    (hz : zs.map Array.size = (pinned alpha h : Problem σ ℝ).dims) :
    (pinned alpha h : Problem σ ℝ).coupledNorm zs ≤
      1 * ‖vec (total (pinned alpha h : Problem σ ℝ).dims) (Solver.stack zs)‖ := by
  obtain ⟨z, rfl⟩ : ∃ z, zs = [z] := by
    have hlen := congrArg List.length hz
    rw [List.length_map] at hlen
    exact List.length_eq_one_iff.mp hlen
  rw [pinned_coupledNorm, Solver.stack_cons, Solver.stack_nil, Array.append_empty, one_mul]
  exact le_rfl

theorem pinned_shapeDefect? : (pinned alpha h : Problem σ ℝ).shapeDefect? = none := by
  refine Problem.shapeDefect?_eq_none.mpr ⟨by simp [pinned], Or.inl rfl, ?_⟩
  intro q g hm
  cases List.mem_singleton.mp hm
  exact ⟨rfl, rfl⟩

end Pinned

namespace Solver

variable {par : Params ℝ} {alpha : ℝ} {h : Array ℝ}

theorem pinned_answer (ha : 0 ≤ alpha) (hrho : 0 < par.rho) {proj : Projection ℝ} {q : Progress ℝ}
    {w v : World σ ℝ} {s : Sight ℝ} (hv : q.v = AbsSum.lifted (par.rho * alpha) h)
    (hs : look par (pinned alpha h : Problem σ ℝ).proxes proj q w = .ok s v) : s.x = h := by
  obtain ⟨xs, hxs, hx⟩ := proxPoints_eq_ok.mp (look_eq_ok.mp hs).1
  cases hxs with
  | cons hx₁ hrest =>
    cases hrest
    obtain ⟨hsize, -, heval, -⟩ := apply_eq_ok.mp hx₁
    cases heval
    have hwhole : q.v.extract 0 (0 + h.size) = q.v := by
      rw [Nat.zero_add, hv, ← AbsSum.size_lifted (par.rho * alpha) h]
      exact Array.extract_size
    rw [hx, Array.empty_append, stack_cons, stack_nil, Array.append_empty]
    show (q.v.extract 0 (0 + h.size)).map (AbsSum.shrink (par.rho * alpha)) = h
    rw [hwhole, hv]
    exact AbsSum.map_shrink_lifted (mul_nonneg hrho.le ha) h

theorem pinned_settles [Spectral ℝ] {init : Option (List (Array ℝ))} {proj : Projection ℝ}
    {w₀ u : World σ ℝ} (hp : prepare par init (pinned alpha h) w₀ = .ok proj u)
    (hrep : proj.Reproduces h.size) {q : Progress ℝ} (hq : q.Sized h.size proj.rhs.size)
    {w v : World σ ℝ} {s : Sight ℝ}
    (hs : look par (pinned alpha h : Problem σ ℝ).proxes proj q w = .ok s v) (hx : s.x = h) :
    s.measure.primal = 0 ∧ s.measure.dual = 0 ∧ s.measure.image = q.v := by
  have hlin : proj.Linear h.size := (linear_of_prepare pinned_isLinear hp).2.2
  obtain ⟨hprimal, hdual, hres, himage⟩ := look_vec hlin rfl hq hs
  have hsizes := sizes_of_measure? (look_eq_ok.mp hs).2
  rw [hq.v] at hsizes
  have hfeas : proj.coupling h.size (vec h.size h) = vec proj.rhs.size proj.rhs := by
    have hf := (feasible_iff pinned_isLinear hp rfl).mp pinned_feasible
    rw [stack_cons, stack_nil, Array.append_empty] at hf
    exact hf
  have hgap := hrep.gap_eq hfeas (vec h.size s.x) ((2 : ℝ) • vec h.size s.x - vec h.size q.v)
  have hslope := hrep.unreached_slope hfeas (vec h.size q.v) (vec h.size s.x)
  rw [← hres] at hgap hslope
  rw [hx, hfeas, sub_self] at hgap hprimal
  have hzero : vec h.size s.measure.residual = 0 := by
    have hdims : [s.measure.residual].map Array.size = (pinned alpha h : Problem σ ℝ).dims := by
      rw [List.map_cons, hsizes.2]
      rfl
    have hnorm := norm_coupling_eq pinned_isLinear hp hdims
    rw [stack_cons, stack_nil, Array.append_empty, pinned_coupledNorm] at hnorm
    have hvanish : ‖proj.coupling h.size (vec h.size s.measure.residual)‖ = 0 := by
      rw [← hgap, norm_zero]
    exact norm_eq_zero.mp (hnorm.symm.trans hvanish)
  refine ⟨by rw [hprimal, norm_zero], ?_, ?_⟩
  · rw [hdual, Projection.unreached_smul, hslope, hzero, Projection.unreached_eq, map_zero,
      sub_zero, smul_zero, norm_zero]
  · rw [hzero, sub_zero] at himage
    exact eq_of_vec_eq hsizes.1 hq.v himage

theorem pinned_defect? (hpar : par.broken? = none) {init : Option (List (Array ℝ))}
    (hinit : ∀ vs, init = some vs → vs.map Array.size = [h.size]) :
    defect? par init (pinned alpha h : Problem σ ℝ) = none :=
  defect?_eq_none.mpr ⟨hpar, pinned_shapeDefect?, hinit⟩

section Run

variable [Spectral ℝ]

theorem pinned_iteration (hexact : ExactSpectrum) (ha : 0 ≤ alpha) (hpar : par.broken? = none)
    (hzero : par.epsZero = 0) (hroom : HasRoom par [h.size]) (w : World σ ℝ) :
    ∃ s v, iteration par (some [AbsSum.lifted (par.rho * alpha) h]) (pinned alpha h) 0 w = .ok s v ∧
      s.measure.primal = 0 ∧ s.measure.dual = 0 ∧
      s.measure.image = stack [AbsSum.lifted (par.rho * alpha) h] := by
  have hsound : ∀ g ∈ (pinned alpha h : Problem σ ℝ).couplings, g.Sound :=
    fun g hg => (pinned_isLinear g hg).sound
  obtain ⟨-, hrho, -⟩ := Params.broken?_eq_none.mp hpar
  have hinit : ∀ vs, some [AbsSum.lifted (par.rho * alpha) h] = some vs →
      vs.map Array.size = [h.size] := by
    rintro _ ⟨⟩
    rw [List.map_cons, AbsSum.size_lifted]
    rfl
  obtain ⟨proj, u, hp⟩ := prepare_total (pinned_defect? hpar hinit) hroom hsound w
  obtain ⟨-, hproj, -⟩ := prepare_eq_ok.mp hp
  obtain ⟨-, hfits, hbegin⟩ := fits_of_prepare hsound hp
  have hrep : proj.Reproduces h.size := by
    refine Projection.reproduces_of_exact hexact hzero.ge (linear_of_prepare pinned_isLinear hp).2.2
      hproj fun gram _ => ?_
    rw [hzero]
    exact Projection.cutoffClear_zero gram h.size
  obtain ⟨s, v, hs⟩ := look_total (pinned_total par.rho) rfl hfits hbegin u
  have hstart : (begin par (pinned alpha h : Problem σ ℝ).dims proj
      (some [AbsSum.lifted (par.rho * alpha) h])).v = AbsSum.lifted (par.rho * alpha) h :=
    Array.empty_append
  have hx := pinned_answer ha hrho hstart hs
  obtain ⟨hprimal, hdual, himage⟩ := pinned_settles hp hrep hbegin hs hx
  exact ⟨s, v, iteration_eq_ok.mpr ⟨proj, u, _, u, hp, rfl, hs⟩, hprimal, hdual, himage⟩

theorem pinned_converges (hexact : ExactSpectrum) (ha : 0 ≤ alpha) (hpar : par.broken? = none)
    (hzero : par.epsZero = 0) (hroom : HasRoom par [h.size]) (w : World σ ℝ) :
    FirstConvergesAt par (some [AbsSum.lifted (par.rho * alpha) h]) (pinned alpha h) w 0 := by
  obtain ⟨s, v, hs, hprimal, hdual, -⟩ := pinned_iteration hexact ha hpar hzero hroom w
  exact firstConvergesAt_of_residuals_zero hs hprimal hdual

end Run

/-- No limit, no acceleration, and an absolute tolerance only. -/
noncomputable def plainly (epsAbs : ℝ) : Params ℝ where
  maxIter := none
  rho := 1
  epsAbs := epsAbs
  epsRel := 0
  anderson := false
  memory := 1
  lambda := 0
  epsZero := 0
  logPeriod := 0

theorem plainly_broken? {epsAbs : ℝ} (h : 0 ≤ epsAbs) : (plainly epsAbs).broken? = none := by
  refine Params.broken?_eq_none.mpr ⟨?_, zero_lt_one, h, le_rfl, Nat.one_ne_zero, le_rfl⟩
  simp [plainly]

theorem plainly_hasRoom (epsAbs : ℝ) : HasRoom (plainly epsAbs) [1] := by
  refine ⟨?_, by decide⟩
  simp [plainly]

end Solver

end Splitting
