import Splitting.Proofs.Real.Pinned

/-!
# Runs come to an end

Without acceleration every iteration brings the point closer to any fixed point. As long as the
residuals are not within the tolerances it does so by a fixed amount, so they are after a number of
iterations that is known beforehand.
-/

namespace Splitting

namespace Solver

variable {σ : Type}

/-- What the convergence of a run rests on, for a bound on the coupling. -/
structure Regular (par : Params ℝ) (p : Problem σ ℝ) (proj : Projection ℝ) (bound : ℝ) : Prop where
  linear : proj.Linear (total p.dims)
  reproduces : proj.Reproduces (total p.dims)
  reachable : ∃ z, proj.coupling (total p.dims) z = vec proj.rhs.size proj.rhs
  firm : ∀ q ∈ p.proxes, q.FirmlyNonexpansive par.rho
  rho : 0 < par.rho
  bounded : ∀ g : Array ℝ, g.size = total p.dims →
    ‖proj.coupling (total p.dims) (vec (total p.dims) g)‖ ≤
      bound * ‖vec (total p.dims) g‖

section Regular

variable {par : Params ℝ} {p : Problem σ ℝ} {proj : Projection ℝ} {bound : ℝ}

theorem Regular.residuals_le (h : Regular par p proj bound) {q : Progress ℝ}
    (hq : q.Sized (total p.dims) proj.rhs.size) {w v : World σ ℝ} {s : Sight ℝ}
    (hs : look par p.proxes proj q w = .ok s v) :
    s.measure.primal ≤ max (1 / par.rho) bound * ‖vec (total p.dims) s.measure.residual‖ ∧
      s.measure.dual ≤ max (1 / par.rho) bound * ‖vec (total p.dims) s.measure.residual‖ := by
  obtain ⟨z, hz⟩ := h.reachable
  obtain ⟨hprimal, hdual, hres, -⟩ := look_vec h.linear rfl hq hs
  have hsize : s.measure.residual.size = total p.dims := by
    rw [(sizes_of_measure? (look_eq_ok.mp hs).2).2, hq.v]
  have hgap := h.reproduces.gap_eq hz (vec (total p.dims) s.x)
    ((2 : ℝ) • vec (total p.dims) s.x - vec (total p.dims) q.v)
  have hslope := h.reproduces.unreached_slope hz (vec (total p.dims) q.v)
    (vec (total p.dims) s.x)
  rw [← hres] at hgap hslope
  have hrho : 0 ≤ 1 / par.rho := (one_div_pos.mpr h.rho).le
  constructor
  · rw [hprimal]
    rw [hgap]
    calc _ ≤ bound * ‖vec (total p.dims) s.measure.residual‖ := h.bounded _ hsize
      _ ≤ _ := by
        gcongr
        exact le_max_right _ _
  · rw [hdual, Projection.unreached_smul, hslope, norm_smul, Real.norm_of_nonneg hrho]
    calc _ ≤ 1 / par.rho * ‖vec (total p.dims) s.measure.residual‖ := by
          gcongr
          exact h.reproduces.norm_unreached_le _
      _ ≤ _ := by
        gcongr
        exact le_max_left _ _

theorem Regular.descends (h : Regular par p proj bound) {q f : Progress ℝ}
    (hq : q.Sized (total p.dims) proj.rhs.size) (hf : f.Sized (total p.dims) proj.rhs.size)
    {w v w' v' : World σ ℝ} {s t : Sight ℝ} (hs : look par p.proxes proj q w = .ok s v)
    (ht : look par p.proxes proj f w' = .ok t v') (hfix : t.measure.image = f.v)
    (heps : 0 < par.epsAbs) (hlarge : par.epsAbs < s.measure.primal ∨ par.epsAbs < s.measure.dual) :
    par.epsAbs ^ 2 + max (1 / par.rho) bound ^ 2 *
        ‖vec (total p.dims) s.measure.image - vec (total p.dims) f.v‖ ^ 2 <
      max (1 / par.rho) bound ^ 2 * ‖vec (total p.dims) q.v - vec (total p.dims) f.v‖ ^ 2 := by
  obtain ⟨hprimal, hdual⟩ := h.residuals_le hq hs
  have hclose := norm_sq_image_sub_fixed_le h.linear h.reproduces.orthogonal h.firm rfl hq hf hs ht
    hfix
  have hsmall : par.epsAbs < max (1 / par.rho) bound *
      ‖vec (total p.dims) s.measure.residual‖ := by
    rcases hlarge with hlarge | hlarge <;> linarith
  have hsq : par.epsAbs ^ 2 < max (1 / par.rho) bound ^ 2 *
      ‖vec (total p.dims) s.measure.residual‖ ^ 2 := by
    rw [← mul_pow]
    exact pow_lt_pow_left₀ hsmall heps.le two_ne_zero
  have hscaled := mul_le_mul_of_nonneg_left hclose (sq_nonneg (max (1 / par.rho) bound))
  rw [mul_add] at hscaled
  linarith

end Regular

/-! ## Along a run -/

section

variable [Spectral ℝ]

/-- From `vs` an iteration that is not accelerated leads back to `vs`. -/
def IsFixedPoint (par : Params ℝ) (p : Problem σ ℝ) (vs : List (Array ℝ)) : Prop :=
  ∃ w s v, iteration par (some vs) p 0 w = .ok s v ∧ s.measure.image = stack vs

section Run

variable {par : Params ℝ} {init : Option (List (Array ℝ))} {p : Problem σ ℝ}
  {proj : Projection ℝ} {bound : ℝ} {w u : World σ ℝ}

theorem exists_look_of_start {vs : List (Array ℝ)} {w₀ v : World σ ℝ} {s : Sight ℝ}
    (h : iteration par (some vs) p 0 w₀ = .ok s v) (hl : ∀ g ∈ p.couplings, g.IsLinear)
    (hproj : Projection.ofCouplings? p.couplings p.dims p.rhs par.epsZero = some proj) :
    ∃ f w', f.v = stack vs ∧ f.Sized (total p.dims) proj.rhs.size ∧
      look par p.proxes proj f w' = .ok s v := by
  obtain ⟨proj', u', q, t, hp, hq, hs⟩ := iteration_eq_ok.mp h
  obtain ⟨rfl, -⟩ := Run.pure_eq_ok.mp hq
  obtain ⟨-, hproj', -⟩ := prepare_eq_ok.mp hp
  rw [hproj] at hproj'
  cases hproj'
  obtain ⟨-, -, hsized⟩ := fits_of_prepare (fun g hg => (hl g hg).sound) hp
  exact ⟨_, t, rfl, hsized, hs⟩

theorem IsFixedPoint.exists_look {vs : List (Array ℝ)} (h : IsFixedPoint par p vs)
    (hl : ∀ g ∈ p.couplings, g.IsLinear) (hp : prepare par init p w = .ok proj u) :
    ∃ f w' t v', f.v = stack vs ∧ f.Sized (total p.dims) proj.rhs.size ∧
      look par p.proxes proj f w' = .ok t v' ∧ t.measure.image = f.v := by
  obtain ⟨w₀, s, v, hi, himage⟩ := h
  obtain ⟨f, t, hf, hsized, hs⟩ := exists_look_of_start hi hl (prepare_eq_ok.mp hp).2.1
  exact ⟨f, t, s, v, hf, hsized, hs, by rw [hf, himage]⟩

theorem large_of_not_convergesAt (hl : ∀ g ∈ p.couplings, g.IsLinear)
    (hp : prepare par init p w = .ok proj u) {i : ℕ} {q : Progress ℝ} {t t' : World σ ℝ}
    {s : Sight ℝ} (hq : course par p.proxes proj i (begin par p.dims proj init) u = .ok q t)
    (hs : look par p.proxes proj q t = .ok s t') (h : ¬ ConvergesAt par init p w i) :
    par.epsAbs < s.measure.primal ∨ par.epsAbs < s.measure.dual := by
  obtain ⟨-, -, hlin⟩ := linear_of_prepare hl hp
  obtain ⟨-, -, hbegin⟩ := fits_of_prepare (fun g hg => (hl g hg).sound) hp
  obtain ⟨-, -, -, hrel, -⟩ :=
    Params.broken?_eq_none.mp (broken?_of_defect? (prepare_eq_ok.mp hp).1)
  have hi : Sees par p.proxes proj (begin par p.dims proj init) u i s := ⟨q, t, t', hq, hs⟩
  obtain ⟨s₀, h₀⟩ : ∃ s₀, Sees par p.proxes proj (begin par p.dims proj init) u 0 s₀ := by
    cases i with
    | zero => exact ⟨s, hi⟩
    | succ i => exact Sees.of_course hq (Nat.succ_pos i)
  obtain ⟨q₀, t₀, t₁, hq₀, hs₀⟩ := id h₀
  obtain ⟨hprimal, hdual, -, -⟩ := look_vec hlin rfl (course_sized rfl hlin.toFits hbegin hq₀) hs₀
  have hnn₁ : 0 ≤ par.epsRel * s₀.measure.primal := by
    rw [hprimal]
    exact mul_nonneg hrel (norm_nonneg _)
  have hnn₂ : 0 ≤ par.epsRel * s₀.measure.dual := by
    rw [hdual]
    exact mul_nonneg hrel (norm_nonneg _)
  by_contra hsmall
  obtain ⟨h₁, h₂⟩ := not_or.mp hsmall
  have hle₁ : s.measure.primal ≤ par.epsAbs + par.epsRel * s₀.measure.primal := by linarith
  have hle₂ : s.measure.dual ≤ par.epsAbs + par.epsRel * s₀.measure.dual := by linarith
  refine h ((converges_iff hp hq hs).mp ?_)
  unfold Converges converged
  rw [course_reference hq rfl h₀ hi]
  exact (Bool.and_eq_true _ _).mpr ⟨decide_eq_true hle₁, decide_eq_true hle₂⟩

theorem Regular.course_descends (h : Regular par p proj bound)
    (hl : ∀ g ∈ p.couplings, g.IsLinear) (hp : prepare par init p w = .ok proj u)
    (ha : par.anderson = false) (heps : 0 < par.epsAbs) {f : Progress ℝ}
    (hf : f.Sized (total p.dims) proj.rhs.size) {w' v' : World σ ℝ} {t : Sight ℝ}
    (ht : look par p.proxes proj f w' = .ok t v') (hfix : t.measure.image = f.v) {n : ℕ}
    (hn : ∀ i < n, ¬ ConvergesAt par init p w i) {q : Progress ℝ} {v : World σ ℝ}
    (hq : course par p.proxes proj n (begin par p.dims proj init) u = .ok q v) :
    n * par.epsAbs ^ 2 + max (1 / par.rho) bound ^ 2 *
        ‖vec (total p.dims) q.v - vec (total p.dims) f.v‖ ^ 2 ≤
      max (1 / par.rho) bound ^ 2 *
        ‖vec (total p.dims) (startPoint p.dims init) - vec (total p.dims) f.v‖ ^ 2 := by
  obtain ⟨-, -, hbegin⟩ := fits_of_prepare (fun g hg => (hl g hg).sound) hp
  have hplain : (begin par p.dims proj init).acceleration = none := by simp [begin, ha]
  induction n generalizing q v with
  | zero =>
    obtain ⟨rfl, -⟩ := Run.pure_eq_ok.mp hq
    rw [Nat.cast_zero, zero_mul, zero_add]
    exact le_refl _
  | succ n ih =>
    obtain ⟨r, x, hr, hpass⟩ := course_succ_eq_ok.mp hq
    obtain ⟨s, y, hs, hv, -⟩ := pass_plain (course_plain hplain hr) hpass
    have hprev := ih (fun i hi => hn i (by omega)) hr
    have hlarge := large_of_not_convergesAt hl hp hr hs (hn n (by omega))
    have hstep := h.descends (course_sized rfl h.linear.toFits hbegin hr) hf hs ht hfix heps hlarge
    rw [hv, Nat.cast_succ, add_mul, one_mul]
    linarith

theorem regular_of_prepare (hexact : ExactSpectrum) (hl : ∀ g ∈ p.couplings, g.IsLinear)
    (hp : prepare par init p w = .ok proj u) (hzero : 0 ≤ par.epsZero)
    (hclear : ∀ gram, Projection.gram? (p.couplings.zip p.dims) p.rhs.size = some gram →
      Projection.CutoffClear par.epsZero gram p.rhs.size)
    (hrange : ∃ zs, p.Feasible zs) (hfirm : ∀ q ∈ p.proxes, q.FirmlyNonexpansive par.rho)
    (hbound : ∀ zs, zs.map Array.size = p.dims →
      p.coupledNorm zs ≤ bound * ‖vec (total p.dims) (stack zs)‖) :
    Regular par p proj bound := by
  obtain ⟨hd, hproj, -⟩ := prepare_eq_ok.mp hp
  obtain ⟨-, hrhs, hlin⟩ := linear_of_prepare hl hp
  obtain ⟨-, hrho, -⟩ := Params.broken?_eq_none.mp (broken?_of_defect? hd)
  obtain ⟨zs, hz⟩ := hrange
  refine ⟨hlin, Projection.reproduces_of_exact hexact hzero hlin hproj hclear,
    ⟨_, (feasible_iff hl hp hz.sizes).mp hz⟩, hfirm, hrho, fun g hg => ?_⟩
  have hsizes : (cut g p.dims 0).map Array.size = p.dims := map_size_cut (by omega)
  have hle := hbound _ hsizes
  rwa [← norm_coupling_eq hl hp hsizes, stack_cut hg.symm] at hle

/-- An iteration converges before the distances that are gained add up to more than there was. -/
theorem Regular.exists_convergesAt (h : Regular par p proj bound)
    (hl : ∀ g ∈ p.couplings, g.IsLinear) (hp : prepare par init p w = .ok proj u)
    (ha : par.anderson = false) (heps : 0 < par.epsAbs) (htotal : ∀ q ∈ p.proxes, q.Total par.rho)
    {f : Progress ℝ} (hf : f.Sized (total p.dims) proj.rhs.size) {w' v' : World σ ℝ} {t : Sight ℝ}
    (ht : look par p.proxes proj f w' = .ok t v') (hfix : t.measure.image = f.v) {K : ℕ}
    (hK : 1 ≤ K)
    (henough : max (1 / par.rho) bound ^ 2 * ‖vec (total p.dims) (startPoint p.dims init) -
      vec (total p.dims) f.v‖ ^ 2 ≤ K * par.epsAbs ^ 2) :
    ∃ i < K, ConvergesAt par init p w i := by
  obtain ⟨-, -, hbegin⟩ := fits_of_prepare (fun g hg => (hl g hg).sound) hp
  by_contra hnone
  have hnone : ∀ i < K, ¬ ConvergesAt par init p w i := fun i hi hc => hnone ⟨i, hi, hc⟩
  obtain ⟨n, rfl⟩ : ∃ n, K = n + 1 := ⟨K - 1, by omega⟩
  obtain ⟨q, x, hq⟩ := course_total htotal rfl h.linear.toFits hbegin n u
  have hsized := course_sized rfl h.linear.toFits hbegin hq
  obtain ⟨s, y, hs⟩ := look_total htotal rfl h.linear.toFits hsized x
  have hlarge := large_of_not_convergesAt hl hp hq hs (hnone n (by omega))
  have hsofar := h.course_descends hl hp ha heps hf ht hfix (fun i hi => hnone i (by omega)) hq
  -- the last iteration gains strictly more than its share
  have hlast := h.descends hsized hf hs ht hfix heps hlarge
  rw [Nat.cast_succ, add_mul, one_mul] at henough
  have hnn := mul_nonneg (sq_nonneg (max (1 / par.rho) bound))
    (sq_nonneg ‖vec (total p.dims) s.measure.image - vec (total p.dims) f.v‖)
  linarith

end Run

/-- A run without acceleration converges within any number of iterations that makes up for the
distance of its start from a fixed point. -/
theorem solve_converges_within (hexact : ExactSpectrum) {budget K : ℕ} {par : Params ℝ}
    {init : Option (List (Array ℝ))} {p : Problem σ ℝ} {w : World σ ℝ} {vs : List (Array ℝ)}
    {bound : ℝ} (hd : defect? par init p = none) (hroom : HasRoom par p.dims)
    (ha : par.anderson = false) (hzero : 0 ≤ par.epsZero) (heps : 0 < par.epsAbs)
    (hl : ∀ g ∈ p.couplings, g.IsLinear)
    (hclear : ∀ gram, Projection.gram? (p.couplings.zip p.dims) p.rhs.size = some gram →
      Projection.CutoffClear par.epsZero gram p.rhs.size)
    (hrange : ∃ zs, p.Feasible zs) (htotal : ∀ q ∈ p.proxes, q.Total par.rho)
    (hfirm : ∀ q ∈ p.proxes, q.FirmlyNonexpansive par.rho) (hfix : IsFixedPoint par p vs)
    (hbound : ∀ zs, zs.map Array.size = p.dims →
      p.coupledNorm zs ≤ bound * ‖vec (total p.dims) (stack zs)‖)
    (hK : 1 ≤ K)
    (henough : max (1 / par.rho) bound ^ 2 * ‖vec (total p.dims) (startPoint p.dims init) -
      vec (total p.dims) (stack vs)‖ ^ 2 ≤ K * par.epsAbs ^ 2)
    (hbudget : K ≤ par.maxIter.getD budget) :
    ∃ a v, solve budget par init p w = .ok (some a) v ∧ a.iterations ≤ K := by
  obtain ⟨proj, u, hp⟩ := prepare_total hd hroom (fun g hg => (hl g hg).sound) w
  have hreg := regular_of_prepare hexact hl hp hzero hclear hrange hfirm hbound
  obtain ⟨f, w', t, v', hfv, hf, ht, himage⟩ := hfix.exists_look hl hp
  rw [← hfv] at henough
  have hconv := hreg.exists_convergesAt hl hp ha heps htotal hf ht himage hK henough
  classical
  obtain ⟨hi, hc⟩ := Nat.find_spec hconv
  have hfirst : FirstConvergesAt par init p w (Nat.find hconv) :=
    ⟨hc, fun j hj hcj => Nat.find_min hconv hj ⟨by omega, hcj⟩⟩
  obtain ⟨a, v, hsolve, hk⟩ :=
    solve_eq_some_of_firstConvergesAt hfirst (lt_of_lt_of_le hi hbudget)
  exact ⟨a, v, hsolve, by omega⟩

theorem pinned_isFixedPoint {par : Params ℝ} {alpha : ℝ} {h : Array ℝ} (hexact : ExactSpectrum)
    (ha : 0 ≤ alpha) (hpar : par.broken? = none) (hzero : par.epsZero = 0)
    (hroom : HasRoom par [h.size]) (w : World σ ℝ) :
    IsFixedPoint par (pinned alpha h : Problem σ ℝ) [AbsSum.lifted (par.rho * alpha) h] := by
  obtain ⟨s, v, hs, -, -, himage⟩ := pinned_iteration hexact ha hpar hzero hroom w
  exact ⟨w, s, v, hs, himage⟩

end

theorem pinned_solve_converges :
    ∃ a v, @solve Unit ℝ _ Spectral.exact 4 (plainly 1) none (pinned 1 #[1]) (World.start () none) =
      .ok (some a) v ∧ a.iterations ≤ 4 := by
  let _ : Spectral ℝ := .exact
  have hpar : (plainly 1).broken? = none := plainly_broken? zero_le_one
  have hfix : IsFixedPoint (plainly 1) (pinned 1 #[1] : Problem Unit ℝ)
      [AbsSum.lifted (1 * 1) #[1]] :=
    pinned_isFixedPoint exactSpectrum_exact zero_le_one hpar rfl (plainly_hasRoom 1)
      (World.start () none)
  have hsquare : ‖vec 1 (startPoint [1] none) -
      vec 1 (stack [AbsSum.lifted (1 * 1) #[1]])‖ ^ 2 = 4 := by
    rw [EuclideanSpace.real_norm_sq_eq]
    simp [startPoint, AbsSum.lifted, Vec.zeros]
    norm_num
  have henough : max (1 / (plainly 1).rho) 1 ^ 2 * ‖vec 1 (startPoint [1] none) -
      vec 1 (stack [AbsSum.lifted (1 * 1) #[1]])‖ ^ 2 ≤ (4 : ℕ) * (plainly 1).epsAbs ^ 2 := by
    rw [hsquare]
    simp [plainly]
  exact solve_converges_within exactSpectrum_exact (pinned_defect? hpar fun vs h => by cases h)
    (plainly_hasRoom 1) rfl le_rfl zero_lt_one pinned_isLinear
    (fun gram _ => Projection.cutoffClear_zero gram 1) ⟨_, pinned_feasible⟩ (pinned_total 1)
    (pinned_firm zero_le_one zero_lt_one) hfix pinned_bounded (by decide) henough le_rfl

end Solver

end Splitting
