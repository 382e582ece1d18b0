import Splitting.Proofs.Real.Convergence

/-!
# Runs without acceleration never move away

Whatever is cut off from the eigenvalues, and whether or not the right-hand side is in reach, the
residual of an iteration is no longer than that of the one before, and no point of a run is farther
from a fixed point than the one before.
-/

namespace Splitting

namespace Solver

section Runs

variable {σ : Type} [Spectral ℝ] {par : Params ℝ} {p : Problem σ ℝ}

section Pass

variable {proj : Projection ℝ} (hlin : proj.Linear (total p.dims))
  (horth : proj.Orthogonal (total p.dims)) (hf : ∀ q ∈ p.proxes, q.FirmlyNonexpansive par.rho)
include hlin horth hf

/-! ## One iteration -/

theorem norm_residual_le_of_pass {q r : Progress ℝ} (hq : q.Sized (total p.dims) proj.rhs.size)
    (hplain : q.acceleration = none) {w v x : World σ ℝ}
    (hpass : pass par p.proxes proj q w = .ok r v) {t : Sight ℝ}
    (ht : look par p.proxes proj r v = .ok t x) :
    ∃ s u, look par p.proxes proj q w = .ok s u ∧
      ‖vec (total p.dims) t.measure.residual‖ ≤ ‖vec (total p.dims) s.measure.residual‖ := by
  obtain ⟨s, u, hs, hv, -⟩ := pass_plain hplain hpass
  have hr := pass_sized rfl hlin.toFits hq hpass
  have hclose := norm_sq_image_sub_le hlin horth hf rfl hq hr hs ht
  obtain ⟨-, -, -, himage⟩ := look_vec hlin rfl hq hs
  obtain ⟨-, -, -, himage'⟩ := look_vec hlin rfl hr ht
  rw [himage', hv, sub_sub_cancel, himage, sub_sub_cancel] at hclose
  refine ⟨s, u, hs, le_of_sq_le_sq ?_ (norm_nonneg _)⟩
  linarith [sq_nonneg
    ‖vec (total p.dims) s.measure.residual - vec (total p.dims) t.measure.residual‖]

theorem norm_sub_fixed_le_of_pass {q r f : Progress ℝ}
    (hq : q.Sized (total p.dims) proj.rhs.size) (hplain : q.acceleration = none)
    {w v w' v' : World σ ℝ} (hpass : pass par p.proxes proj q w = .ok r v)
    (hfs : f.Sized (total p.dims) proj.rhs.size) {t : Sight ℝ}
    (ht : look par p.proxes proj f w' = .ok t v') (hfix : t.measure.image = f.v) :
    ‖vec (total p.dims) r.v - vec (total p.dims) f.v‖ ≤
      ‖vec (total p.dims) q.v - vec (total p.dims) f.v‖ := by
  obtain ⟨s, u, hs, hv, -⟩ := pass_plain hplain hpass
  have hclose := norm_sq_image_sub_fixed_le hlin horth hf rfl hq hfs hs ht hfix
  rw [← hv] at hclose
  refine le_of_sq_le_sq ?_ (norm_nonneg _)
  linarith [sq_nonneg ‖vec (total p.dims) s.measure.residual‖]

/-! ## Along a run -/

variable {b : Progress ℝ} (hb : b.Sized (total p.dims) proj.rhs.size)
  (hplain : b.acceleration = none)
include hb hplain

theorem course_residual_le {i j : ℕ} (hij : i ≤ j) {q : Progress ℝ} {u t v : World σ ℝ}
    {s : Sight ℝ} (hq : course par p.proxes proj j b u = .ok q t)
    (hs : look par p.proxes proj q t = .ok s v) :
    ∃ r, Sees par p.proxes proj b u i r ∧
      ‖vec (total p.dims) s.measure.residual‖ ≤ ‖vec (total p.dims) r.measure.residual‖ := by
  induction j generalizing q t s v with
  | zero =>
    obtain rfl : i = 0 := Nat.le_zero.mp hij
    exact ⟨s, ⟨q, t, v, hq, hs⟩, le_refl _⟩
  | succ j ih =>
    rcases Nat.le_succ_iff.mp hij with hle | rfl
    · obtain ⟨m, x, hm, hpass⟩ := course_succ_eq_ok.mp hq
      obtain ⟨s', y, hs', hstep⟩ := norm_residual_le_of_pass hlin horth hf
        (course_sized rfl hlin.toFits hb hm) (course_plain hplain hm) hpass hs
      obtain ⟨r, hr, hrest⟩ := ih hle hm hs'
      exact ⟨r, hr, hstep.trans hrest⟩
    · exact ⟨s, ⟨q, t, v, hq, hs⟩, le_refl _⟩

theorem course_distance_le {f : Progress ℝ} (hfs : f.Sized (total p.dims) proj.rhs.size)
    {w' v' : World σ ℝ} {t : Sight ℝ} (ht : look par p.proxes proj f w' = .ok t v')
    (hfix : t.measure.image = f.v) {i j : ℕ} (hij : i ≤ j) {q : Progress ℝ} {u v : World σ ℝ}
    (hq : course par p.proxes proj j b u = .ok q v) :
    ∃ r x, course par p.proxes proj i b u = .ok r x ∧
      ‖vec (total p.dims) q.v - vec (total p.dims) f.v‖ ≤
        ‖vec (total p.dims) r.v - vec (total p.dims) f.v‖ := by
  induction j generalizing q v with
  | zero =>
    obtain rfl : i = 0 := Nat.le_zero.mp hij
    exact ⟨q, v, hq, le_refl _⟩
  | succ j ih =>
    rcases Nat.le_succ_iff.mp hij with hle | rfl
    · obtain ⟨m, x, hm, hpass⟩ := course_succ_eq_ok.mp hq
      have hstep := norm_sub_fixed_le_of_pass hlin horth hf (course_sized rfl hlin.toFits hb hm)
        (course_plain hplain hm) hpass hfs ht hfix
      obtain ⟨r, y, hr, hrest⟩ := ih hle hm
      exact ⟨r, y, hr, hstep.trans hrest⟩
    · exact ⟨q, v, hq, le_refl _⟩

end Pass

/-! ## Runs of a problem -/

/-- Iteration `i` of a run starts from `x`. -/
def StartsFrom (par : Params ℝ) (init : Option (List (Array ℝ))) (p : Problem σ ℝ) (w : World σ ℝ)
    (i : ℕ) (x : Array ℝ) : Prop :=
  ∃ proj u q t, prepare par init p w = .ok proj u ∧
    course par p.proxes proj i (begin par p.dims proj init) u = .ok q t ∧ q.v = x

theorem orthogonal_of_prepare (hexact : ExactSpectrum) (hl : ∀ g ∈ p.couplings, g.IsLinear)
    (hzero : 0 ≤ par.epsZero) {init : Option (List (Array ℝ))} {proj : Projection ℝ}
    {w u : World σ ℝ} (hp : prepare par init p w = .ok proj u) :
    proj.Linear (total p.dims) ∧ proj.Orthogonal (total p.dims) := by
  obtain ⟨-, -, hlin⟩ := linear_of_prepare hl hp
  exact ⟨hlin, Projection.orthogonal_of_exact hexact hzero hlin (prepare_eq_ok.mp hp).2.1⟩

/-- Iterations bring points closer by what their residuals differ. So without acceleration the
residuals of a run, and its distances to a fixed point, never grow. -/
theorem plain_run_nonexpansive (hexact : ExactSpectrum) (hl : ∀ g ∈ p.couplings, g.IsLinear)
    (hzero : 0 ≤ par.epsZero) (hf : ∀ q ∈ p.proxes, q.FirmlyNonexpansive par.rho) :
    (∀ vs vs' w w' s s' v v', iteration par (some vs) p 0 w = .ok s v →
      iteration par (some vs') p 0 w' = .ok s' v' →
      ‖vec (total p.dims) s.measure.image - vec (total p.dims) s'.measure.image‖ ^ 2 +
          ‖vec (total p.dims) s.measure.residual - vec (total p.dims) s'.measure.residual‖ ^ 2 ≤
        ‖vec (total p.dims) (stack vs) - vec (total p.dims) (stack vs')‖ ^ 2) ∧
    (par.anderson = false → ∀ init w j,
      (∀ s v, iteration par init p j w = .ok s v → ∀ i ≤ j,
        ∃ s' v', iteration par init p i w = .ok s' v' ∧
          ‖vec (total p.dims) s.measure.residual‖ ≤ ‖vec (total p.dims) s'.measure.residual‖) ∧
      (∀ x, StartsFrom par init p w j x → ∀ vs, IsFixedPoint par p vs → ∀ i ≤ j,
        ∃ y, StartsFrom par init p w i y ∧
          ‖vec (total p.dims) x - vec (total p.dims) (stack vs)‖ ≤
            ‖vec (total p.dims) y - vec (total p.dims) (stack vs)‖)) ∧
    ((∀ q ∈ p.proxes, q.Total par.rho) → HasRoom par p.dims → ∀ init, defect? par init p = none →
      ∀ w i, ∃ s v, iteration par init p i w = .ok s v) := by
  have hsound : ∀ g ∈ p.couplings, g.Sound := fun g hg => (hl g hg).sound
  refine ⟨?_, fun hplain init w j => ⟨?_, ?_⟩, fun ht hroom init hd w i =>
    iteration_total hd hroom hsound ht i w⟩
  · intro vs vs' w w' s s' v v' hs hs'
    obtain ⟨proj, u, q, t, hp, -, -⟩ := iteration_eq_ok.mp hs
    obtain ⟨hlin, horth⟩ := orthogonal_of_prepare hexact hl hzero hp
    have hproj := (prepare_eq_ok.mp hp).2.1
    obtain ⟨f, x, hfv, hfs, hlook⟩ := exists_look_of_start hs hl hproj
    obtain ⟨f', x', hfv', hfs', hlook'⟩ := exists_look_of_start hs' hl hproj
    have hclose := norm_sq_image_sub_le hlin horth hf rfl hfs hfs' hlook hlook'
    rwa [hfv, hfv'] at hclose
  · intro s v hs i hi
    obtain ⟨proj, u, q, t, hp, hq, hlook⟩ := iteration_eq_ok.mp hs
    obtain ⟨hlin, horth⟩ := orthogonal_of_prepare hexact hl hzero hp
    obtain ⟨-, -, hbegin⟩ := fits_of_prepare hsound hp
    obtain ⟨s', ⟨r, x, y, hr, hlook'⟩, hle⟩ := course_residual_le hlin horth hf hbegin
      (by simp [begin, hplain]) hi hq hlook
    exact ⟨s', y, iteration_eq_ok.mpr ⟨proj, u, r, x, hp, hr, hlook'⟩, hle⟩
  · rintro x ⟨proj, u, q, t, hp, hq, rfl⟩ vs hfix i hi
    obtain ⟨hlin, horth⟩ := orthogonal_of_prepare hexact hl hzero hp
    obtain ⟨-, -, hbegin⟩ := fits_of_prepare hsound hp
    obtain ⟨f, w', s, v', hfv, hfs, hlook, himage⟩ := hfix.exists_look hl hp
    obtain ⟨r, y, hr, hle⟩ := course_distance_le hlin horth hf hbegin (by simp [begin, hplain])
      hfs hlook himage hi hq
    rw [hfv] at hle
    exact ⟨r.v, ⟨proj, u, r, y, hp, hr, rfl⟩, hle⟩

end Runs

/-- A tolerance with which the coupling of the pinned problem is cut off. -/
noncomputable def coarsely : Params ℝ := { plainly 1 with epsZero := 1 }

theorem pinned_run_nonexpansive :
    let _ : Spectral ℝ := .exact
    let w : World Unit ℝ := .start () none
    (∃ s v s' v', iteration coarsely none (pinned 1 #[1]) 0 w = .ok s v ∧
      iteration coarsely none (pinned 1 #[1]) 3 w = .ok s' v' ∧
      ‖vec 1 s'.measure.residual‖ ≤ ‖vec 1 s.measure.residual‖) ∧
    ∃ x, StartsFrom (plainly 1) none (pinned 1 #[1]) w 3 x ∧ ‖vec 1 x - vec 1 #[2]‖ ≤ 2 := by
  let _ : Spectral ℝ := .exact
  let w : World Unit ℝ := .start () none
  have hfirm : ∀ q ∈ (pinned 1 #[1] : Problem Unit ℝ).proxes, q.FirmlyNonexpansive 1 :=
    pinned_firm zero_le_one zero_lt_one
  have hcoarse : coarsely.broken? = none :=
    Params.broken?_eq_none.mpr ⟨by simp [coarsely, plainly], zero_lt_one, zero_le_one, le_rfl,
      Nat.one_ne_zero, le_rfl⟩
  have hpar : (plainly 1).broken? = none := plainly_broken? zero_le_one
  constructor
  · have hzero : 0 ≤ coarsely.epsZero := zero_le_one
    obtain ⟨-, hrun, hsome⟩ :=
      plain_run_nonexpansive exactSpectrum_exact pinned_isLinear hzero hfirm
    obtain ⟨s', v', hs'⟩ := hsome (pinned_total 1) (plainly_hasRoom 1) none
      (pinned_defect? hcoarse fun vs h => by cases h) w 3
    obtain ⟨s, v, hs, hle⟩ := (hrun rfl none w 3).1 s' v' hs' 0 (Nat.zero_le 3)
    exact ⟨s, v, s', v', hs, hs', hle⟩
  · have hzero : 0 ≤ (plainly 1).epsZero := le_rfl
    obtain ⟨-, hrun, hsome⟩ :=
      plain_run_nonexpansive exactSpectrum_exact pinned_isLinear hzero hfirm
    obtain ⟨s, v, hs⟩ := hsome (pinned_total 1) (plainly_hasRoom 1) none
      (pinned_defect? hpar fun vs h => by cases h) w 3
    obtain ⟨proj, u, q, t, hp, hq, -⟩ := iteration_eq_ok.mp hs
    have hfix : IsFixedPoint (plainly 1) (pinned 1 #[1] : Problem Unit ℝ)
        [AbsSum.lifted ((plainly 1).rho * 1) #[1]] :=
      pinned_isFixedPoint exactSpectrum_exact zero_le_one hpar rfl (plainly_hasRoom 1) w
    obtain ⟨y, ⟨_, _, q₀, _, _, hq₀, rfl⟩, hle⟩ :=
      (hrun rfl none w 3).2 q.v ⟨proj, u, q, t, hp, hq, rfl⟩ _ hfix 0 (Nat.zero_le 3)
    obtain ⟨rfl, -⟩ := Run.pure_eq_ok.mp hq₀
    have hpoint : stack [AbsSum.lifted ((plainly 1).rho * 1) #[1]] = #[2] := by
      simp [AbsSum.lifted, plainly]
      norm_num
    have hstart : ‖vec 1 (startPoint [1] none) - vec 1 #[2]‖ = 2 := by
      rw [EuclideanSpace.norm_eq]
      simp [startPoint, Vec.zeros]
    rw [hpoint] at hle
    exact ⟨q.v, ⟨proj, u, q, t, hp, hq, rfl⟩, hle.trans hstart.le⟩

end Solver

end Splitting
