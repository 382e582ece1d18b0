import Splitting.Proofs.Real.Pinned

/-!
# Residuals and fixed points

The step of an iteration falls into two orthogonal parts. One is the dual residual times the step
size, the other is what the pseudo-inverse makes of the gap. So both residuals vanish exactly at the
fixed points of the iteration.
-/

namespace Splitting

open LinearMap (adjoint)

/-! ## The parts of a step -/

namespace Projection

variable {p : Projection ℝ} {n : ℕ}

theorem residual_eq_add (p : Projection ℝ) (v x : EuclideanSpace ℝ (Fin n)) :
    x - p.nearest n ((2 : ℝ) • x - v) =
      p.unreached n (v - x) +
        p.transposed n (p.weight (p.coupling n x - vec p.rhs.size p.rhs)) := by
  have hgap : p.coupling n ((2 : ℝ) • x - v) - vec p.rhs.size p.rhs =
      (p.coupling n x - vec p.rhs.size p.rhs) - p.coupling n (v - x) := by
    rw [two_smul, map_sub, map_sub, map_add]
    abel
  rw [nearest, unreached, hgap, map_sub, map_sub, two_smul]
  abel

theorem Reproduces.inner_unreached (h : p.Reproduces n) (u : EuclideanSpace ℝ (Fin n))
    (y : EuclideanSpace ℝ (Fin p.rhs.size)) :
    inner ℝ (p.unreached n u) (p.transposed n y) = 0 := by
  have hkernel : p.coupling n (p.unreached n u) = 0 := by
    rw [unreached, map_sub, h u, sub_self]
  rw [real_inner_comm, inner_transposed, hkernel, inner_zero_right]

theorem Reproduces.norm_sq_residual (h : p.Reproduces n) (v x : EuclideanSpace ℝ (Fin n)) :
    ‖x - p.nearest n ((2 : ℝ) • x - v)‖ ^ 2 = ‖p.unreached n (v - x)‖ ^ 2 +
      ‖p.transposed n (p.weight (p.coupling n x - vec p.rhs.size p.rhs))‖ ^ 2 := by
  rw [residual_eq_add, norm_add_sq_real, h.inner_unreached]
  ring

end Projection

namespace Solver

variable {σ : Type}

/-! ## One iteration -/

section Look

variable {par : Params ℝ} {proxes : List (Prox σ ℝ)} {proj : Projection ℝ} {n : ℕ}
  {q : Progress ℝ} {w u : World σ ℝ} {s : Sight ℝ}

/-- Pythagoras for the step of an iteration. -/
theorem norm_sq_residual_look (hlin : proj.Linear n) (hrep : proj.Reproduces n)
    (hn : total (proxes.map Prox.dim) = n) (hrho : 0 < par.rho) (hq : q.Sized n proj.rhs.size)
    (hs : look par proxes proj q w = .ok s u) :
    ‖vec n s.measure.residual‖ ^ 2 = par.rho ^ 2 * s.measure.dual ^ 2 +
      ‖proj.transposed n
        (proj.weight (proj.coupling n (vec n s.x) - vec proj.rhs.size proj.rhs))‖ ^ 2 := by
  obtain ⟨-, hdual, hres, -⟩ := look_vec hlin hn hq hs
  have hscaled : ‖proj.unreached n (vec n q.v - vec n s.x)‖ = par.rho * s.measure.dual := by
    rw [hdual, Projection.unreached_smul, norm_smul, Real.norm_of_nonneg (one_div_pos.mpr hrho).le,
      ← mul_assoc, mul_one_div_cancel hrho.ne', one_mul]
  rw [hres, hrep.norm_sq_residual, hscaled, mul_pow]

theorem residuals_eq_zero_iff (hlin : proj.Linear n) (hrep : proj.Reproduces n)
    (hn : total (proxes.map Prox.dim) = n) (hrho : 0 < par.rho) (hq : q.Sized n proj.rhs.size)
    {z : EuclideanSpace ℝ (Fin n)} (hz : proj.coupling n z = vec proj.rhs.size proj.rhs)
    (hs : look par proxes proj q w = .ok s u) :
    s.measure.primal = 0 ∧ s.measure.dual = 0 ↔ s.measure.image = q.v := by
  obtain ⟨hprimal, -, hres, himage⟩ := look_vec hlin hn hq hs
  have hsplit := norm_sq_residual_look hlin hrep hn hrho hq hs
  have hsizes := (sizes_of_measure? (look_eq_ok.mp hs).2)
  rw [hq.v] at hsizes
  have hfixed : s.measure.image = q.v ↔ vec n s.measure.residual = 0 := by
    constructor
    · intro he
      rw [he] at himage
      exact sub_eq_self.mp himage.symm
    · intro he
      rw [he, sub_zero] at himage
      exact eq_of_vec_eq hsizes.1 hq.v himage
  rw [hfixed]
  constructor
  · rintro ⟨hp, hd⟩
    have hgap : proj.coupling n (vec n s.x) - vec proj.rhs.size proj.rhs = 0 := by
      rw [← norm_eq_zero, ← hprimal, hp]
    rw [hd, hgap, map_zero, map_zero, norm_zero] at hsplit
    have hzero : ‖vec n s.measure.residual‖ ^ 2 = 0 := by
      rw [hsplit]
      ring
    exact norm_eq_zero.mp (pow_eq_zero_iff two_ne_zero |>.mp hzero)
  · intro he
    constructor
    · -- the gap is the image of the step
      rw [hprimal, hrep.gap_eq hz (vec n s.x) ((2 : ℝ) • vec n s.x - vec n q.v), ← hres, he,
        map_zero, norm_zero]
    · rw [he, norm_zero] at hsplit
      have hsq : par.rho ^ 2 * s.measure.dual ^ 2 = 0 := by
        have hrest := sq_nonneg ‖proj.transposed n
          (proj.weight (proj.coupling n (vec n s.x) - vec proj.rhs.size proj.rhs))‖
        have hfirst := mul_nonneg (sq_nonneg par.rho) (sq_nonneg s.measure.dual)
        linarith
      rcases mul_eq_zero.mp hsq with h | h
      · exact absurd (pow_eq_zero_iff two_ne_zero |>.mp h) hrho.ne'
      · exact pow_eq_zero_iff two_ne_zero |>.mp h

end Look

/-! ## A run from a fixed point -/

section Run

variable [Spectral ℝ]

theorem solve_of_fixed_point {par : Params ℝ} {p : Problem σ ℝ} {proj : Projection ℝ}
    (hl : ∀ g ∈ p.couplings, g.IsLinear)
    (hproj : Projection.ofCouplings? p.couplings p.dims p.rhs par.epsZero = some proj)
    (hrep : proj.Reproduces (total p.dims)) {z : EuclideanSpace ℝ (Fin (total p.dims))}
    (hz : proj.coupling (total p.dims) z = vec proj.rhs.size proj.rhs) {budget : ℕ}
    (hbudget : 0 < budget) {vs : List (Array ℝ)} {w u : World σ ℝ} {s : Sight ℝ}
    (hs : iteration par (some vs) p 0 w = .ok s u) (hfix : s.measure.image = stack vs) :
    ∃ a v, solve budget par (some vs) p w = .ok (some a) v ∧ a.iterations = 1 := by
  obtain ⟨proj', t, q, t', hp, hq, hlook⟩ := iteration_eq_ok.mp hs
  obtain ⟨rfl, rfl⟩ := Run.pure_eq_ok.mp hq
  obtain ⟨hd, hproj', -⟩ := prepare_eq_ok.mp hp
  obtain rfl : proj = proj' := Option.some.inj (hproj.symm.trans hproj')
  obtain ⟨-, hrho, -⟩ := Params.broken?_eq_none.mp (broken?_of_defect? hd)
  obtain ⟨-, -, hlin⟩ := linear_of_prepare hl hp
  obtain ⟨-, -, hsized⟩ := fits_of_prepare (fun g hg => (hl g hg).sound) hp
  obtain ⟨hprimal, hdual⟩ := (residuals_eq_zero_iff hlin hrep rfl hrho hsized hz hlook).mpr hfix
  have hfirst := firstConvergesAt_of_residuals_zero hs hprimal hdual
  exact solve_eq_some_of_firstConvergesAt hfirst (Params.limit_pos (broken?_of_defect? hd) hbudget)

/-- The residuals of an iteration measure its step, in two orthogonal parts. So they vanish exactly
at the fixed points, and a run from one of these ends at once. -/
theorem residuals_characterise_fixed_points (hexact : ExactSpectrum) {p : Problem σ ℝ}
    {epsZero : ℝ} (hshape : p.shapeDefect? = none) (hl : ∀ g ∈ p.couplings, g.IsLinear)
    (hzero : 0 ≤ epsZero)
    (hclear : ∀ gram, Projection.gram? (p.couplings.zip p.dims) p.rhs.size = some gram →
      Projection.CutoffClear epsZero gram p.rhs.size) :
    ∃ proj W, Projection.ofCouplings? p.couplings p.dims p.rhs epsZero = some proj ∧
      Projection.IsPseudoInverse (p.coupling ∘ₗ adjoint p.coupling) W ∧
      (∀ par q w s u, 0 < par.rho → q.Sized (total p.dims) p.rhs.size →
        look par p.proxes proj q w = .ok s u →
        ‖vec (total p.dims) s.measure.residual‖ ^ 2 = par.rho ^ 2 * s.measure.dual ^ 2 +
            ‖adjoint p.coupling
              (W (p.coupling (vec (total p.dims) s.x) - vec p.rhs.size p.rhs))‖ ^ 2 ∧
          (vec p.rhs.size p.rhs ∈ LinearMap.range p.coupling →
            (s.measure.primal = 0 ∧ s.measure.dual = 0 ↔ s.measure.image = q.v))) ∧
      (vec p.rhs.size p.rhs ∈ LinearMap.range p.coupling → ∀ par budget vs w s u,
        par.epsZero = epsZero → 0 < budget → iteration par (some vs) p 0 w = .ok s u →
        s.measure.image = stack vs →
        ∃ a v, solve budget par (some vs) p w = .ok (some a) v ∧ a.iterations = 1) := by
  obtain ⟨proj, hproj⟩ :=
    Projection.ofCouplings?_total (fun g hg => (hl g hg).sound) hshape epsZero
  obtain ⟨hparts, hrhs, hlin⟩ := linear_of_ofCouplings? hl hshape hproj
  have hinv := Projection.isPseudoInverse_weight hexact hzero hlin hproj hclear
  have hrep := Projection.reproduces_of_exact hexact hzero hlin hproj hclear
  -- the coupling of the projection is that of the problem
  obtain ⟨parts, rhs, pinv⟩ := proj
  dsimp only at hparts hrhs
  subst hparts hrhs
  refine ⟨_, _, hproj, hinv, fun par q w s u hrho hq hs => ⟨?_, ?_⟩, ?_⟩
  · have hsplit := norm_sq_residual_look hlin hrep rfl hrho hq hs
    rw [← Projection.adjoint_coupling] at hsplit
    exact hsplit
  · rintro ⟨z, hz⟩
    exact residuals_eq_zero_iff hlin hrep rfl hrho hq hz hs
  · rintro ⟨z, hz⟩ par budget vs w s u rfl hbudget hs hfix
    exact solve_of_fixed_point hl hproj hrep hz hbudget hs hfix

end Run

theorem pinned_fixed_point_ends :
    ∃ a v, @solve Unit ℝ _ Spectral.exact 1 (plainly 1) (some [AbsSum.lifted (1 * 1) #[1]])
      (pinned 1 #[1]) (World.start () none) = .ok (some a) v ∧ a.iterations = 1 := by
  let _ : Spectral ℝ := .exact
  obtain ⟨s, v, hs, -, -, himage⟩ := pinned_iteration (h := #[1]) exactSpectrum_exact zero_le_one
    (plainly_broken? zero_le_one) rfl (plainly_hasRoom 1) (World.start () none)
  have hshape : (pinned 1 #[1] : Problem Unit ℝ).shapeDefect? = none := pinned_shapeDefect?
  obtain ⟨proj, W, -, -, -, hsolve⟩ := residuals_characterise_fixed_points exactSpectrum_exact
    hshape pinned_isLinear le_rfl fun gram _ => Projection.cutoffClear_zero gram 1
  exact hsolve (pinned_feasible.mem_range hshape) (plainly 1) 1 _ _ _ _ rfl Nat.one_pos hs himage

end Solver

end Splitting
