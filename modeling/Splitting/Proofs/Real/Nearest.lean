import Splitting.Proofs.Real.PseudoInverse
import Splitting.Proofs.Acceptance

/-!
# The projection is the nearest point

With the pseudo-inverse of `A Aᵀ` as weight, `A Aᵀ W` and `Aᵀ W A` are the orthogonal projections
onto the ranges of `A` and of `Aᵀ`. So projecting gives the nearest of the points that `A` takes
closest to the right-hand side, whether or not it takes any there.
-/

namespace Splitting

open LinearMap (adjoint)

namespace Projection

/-! ## Orthogonal projections from the pseudo-inverse -/

section Range

variable {E G : Type} [NormedAddCommGroup E] [InnerProductSpace ℝ E] [FiniteDimensional ℝ E]
  [NormedAddCommGroup G] [InnerProductSpace ℝ G] [FiniteDimensional ℝ G]
  {a : E →ₗ[ℝ] G} {w : G →ₗ[ℝ] G}

theorem IsPseudoInverse.starProjection_range (h : IsPseudoInverse (a ∘ₗ adjoint a) w) (y : G) :
    (LinearMap.range a).starProjection y = a (adjoint a (w y)) := by
  refine Submodule.eq_starProjection_of_mem_of_inner_eq_zero ⟨_, rfl⟩ ?_
  rintro _ ⟨u, rfl⟩
  have hsymm : inner ℝ (a (adjoint a (w y))) (a u) = inner ℝ y (a u) :=
    calc inner ℝ (a (adjoint a (w y))) (a u)
        = inner ℝ y (a (adjoint a (w (a u)))) := h.symmetric_right y (a u)
      _ = inner ℝ y (a u) := by rw [h.apply_range]
  rw [inner_sub_left, hsymm, sub_self]

theorem IsPseudoInverse.starProjection_range_adjoint (h : IsPseudoInverse (a ∘ₗ adjoint a) w)
    (u : E) : (LinearMap.range (adjoint a)).starProjection u = adjoint a (w (a u)) := by
  refine Submodule.eq_starProjection_of_mem_of_inner_eq_zero ⟨_, rfl⟩ ?_
  rintro _ ⟨y, rfl⟩
  rw [LinearMap.adjoint_inner_right, map_sub, h.apply_range, sub_self, inner_zero_left]

theorem IsPseudoInverse.adjoint_apply_eq_zero (h : IsPseudoInverse (a ∘ₗ adjoint a) w) {y : G}
    (hy : (LinearMap.range a).starProjection y = 0) : adjoint a (w y) = 0 := by
  rw [h.starProjection_range] at hy
  rw [← inner_self_eq_zero (𝕜 := ℝ), LinearMap.adjoint_inner_left, hy, inner_zero_right]

theorem norm_sub_starProjection (k : Submodule ℝ E) (u : E) :
    ‖u - k.starProjection u‖ = Metric.infDist u k := by
  rw [Submodule.starProjection_minimal, Metric.infDist_eq_iInf]
  exact iInf_congr fun x => (dist_eq_norm u x).symm

end Range

/-! ## The nearest point -/

variable {p : Projection ℝ} {n : ℕ}

/-- `P h`: what `A` reaches closest to the right-hand side. -/
noncomputable def target (p : Projection ℝ) (n : ℕ) : EuclideanSpace ℝ (Fin p.rhs.size) :=
  (LinearMap.range (p.coupling n)).starProjection (vec p.rhs.size p.rhs)

theorem target_of_mem_range (h : vec p.rhs.size p.rhs ∈ LinearMap.range (p.coupling n)) :
    p.target n = vec p.rhs.size p.rhs :=
  Submodule.starProjection_eq_self_iff.mpr h

structure Nearest (p : Projection ℝ) (n : ℕ) (v x : Array ℝ) : Prop where
  size : x.size = n
  coupling : p.coupling n (vec n x) = p.target n
  norm_le : ∀ z, p.coupling n z = p.target n → ‖vec n x - vec n v‖ ≤ ‖z - vec n v‖

/-- Projecting finds the nearest point and leaves it where it is, and the range residual is the
distance to the range of `Aᵀ`. -/
structure Euclidean (p : Projection ℝ) (n : ℕ) : Prop where
  project : ∀ s v, s.Sized p.rhs.size → v.size = n →
    ∃ x s', p.project? s v = some (x, s') ∧ p.Nearest n v x ∧
      ∀ t, t.Sized p.rhs.size → ∃ t', p.project? t x = some (x, t')
  rangeResidual : ∀ s g, s.Sized p.rhs.size → g.size = n →
    ∃ s', p.rangeResidual? s g =
      some (Metric.infDist (vec n g) (LinearMap.range (adjoint (p.coupling n))), s')

section PseudoInverse

variable (h : IsPseudoInverse (p.coupling n ∘ₗ adjoint (p.coupling n)) p.weight)
include h

theorem target_eq :
    p.target n = p.coupling n (p.transposed n (p.weight (vec p.rhs.size p.rhs))) := by
  rw [target, h.starProjection_range, adjoint_coupling]

theorem coupling_nearest (u : EuclideanSpace ℝ (Fin n)) :
    p.coupling n (p.nearest n u) = p.target n := by
  have hrange := h.apply_range u
  rw [adjoint_coupling] at hrange
  rw [target_eq h, nearest, map_sub, map_sub, map_sub, map_sub, hrange]
  abel

theorem norm_nearest_sub_le {z : EuclideanSpace ℝ (Fin n)} (hz : p.coupling n z = p.target n)
    (u : EuclideanSpace ℝ (Fin n)) : ‖p.nearest n u - u‖ ≤ ‖z - u‖ := by
  -- the step to the projection is in the range of `Aᵀ`, so orthogonal to the kernel of `A`
  set y := p.weight (p.coupling n u - vec p.rhs.size p.rhs)
  have hstep : p.nearest n u - u = -p.transposed n y := by
    rw [nearest]
    abel
  have horth : inner ℝ (z - p.nearest n u) (p.nearest n u - u) = 0 := by
    rw [hstep, inner_neg_right, real_inner_comm, inner_transposed, map_sub, hz, coupling_nearest h,
      sub_self, inner_zero_right, neg_zero]
  have hsplit : z - u = (z - p.nearest n u) + (p.nearest n u - u) := by abel
  have hsq := norm_add_sq_eq_norm_sq_add_norm_sq_of_inner_eq_zero _ _ horth
  rw [← hsplit] at hsq
  refine le_of_sq_le_sq ?_ (norm_nonneg _)
  nlinarith [mul_self_nonneg ‖z - p.nearest n u‖]

theorem nearest_eq_self {x : EuclideanSpace ℝ (Fin n)} (hx : p.coupling n x = p.target n) :
    p.nearest n x = x := by
  have hgap : (LinearMap.range (p.coupling n)).starProjection
      (p.coupling n x - vec p.rhs.size p.rhs) = 0 := by
    rw [map_sub, hx]
    exact sub_eq_zero.mpr (Submodule.starProjection_eq_self_iff.mpr
      (Submodule.starProjection_apply_mem _ _))
  have hzero := h.adjoint_apply_eq_zero hgap
  rw [adjoint_coupling] at hzero
  rw [nearest, hzero, sub_zero]

theorem norm_unreached (u : EuclideanSpace ℝ (Fin n)) :
    ‖p.unreached n u‖ = Metric.infDist u (LinearMap.range (adjoint (p.coupling n))) := by
  rw [← norm_sub_starProjection, h.starProjection_range_adjoint, adjoint_coupling]
  rfl

end PseudoInverse

theorem euclidean_of_linear (hlin : p.Linear n)
    (h : IsPseudoInverse (p.coupling n ∘ₗ adjoint (p.coupling n)) p.weight) : p.Euclidean n := by
  constructor
  · intro s v hs hv
    obtain ⟨x, s', hx, hsize, -⟩ := project?_total hlin.toFits hs hv
    have hvec := project?_vec hlin hs hv hx
    have hcoupling := coupling_nearest h (vec n v)
    refine ⟨x, s', hx, ⟨hsize, by rw [hvec, hcoupling], fun z hz => ?_⟩, fun t ht => ?_⟩
    · rw [hvec]
      exact norm_nearest_sub_le h hz _
    · obtain ⟨y, t', hy, hsy, -⟩ := project?_total hlin.toFits ht hsize
      have hsame : y = x := by
        refine eq_of_vec_eq hsy hsize ?_
        rw [project?_vec hlin ht hsize hy, hvec, nearest_eq_self h hcoupling]
      exact ⟨t', by rw [hy, hsame]⟩
  · intro s g hs hg
    obtain ⟨r, s', hr, -⟩ := rangeResidual?_total hlin.toFits hs hg
    exact ⟨s', by rw [hr, rangeResidual?_vec hlin hs hg hr, norm_unreached h]⟩

/-! ## Without operators -/

section Idle

variable (h : p.parts = [])
include h

theorem coupling_eq_zero : p.coupling n = 0 := by
  refine LinearMap.ext fun x => ?_
  ext r
  rw [coupling, linearOf_apply, h]
  simp [stackCoeff]

theorem target_eq_zero : p.target n = 0 := by
  obtain ⟨u, hu⟩ := Submodule.starProjection_apply_mem (LinearMap.range (p.coupling n))
    (vec p.rhs.size p.rhs)
  rw [target, ← hu, coupling_eq_zero h, LinearMap.zero_apply]

theorem euclidean_of_idle : p.Euclidean n := by
  have hidle : p.active = false := by simp [active, h]
  constructor
  · intro s v _ hv
    have hstay : ∀ t, p.project? t v = some (v, t) := fun t => by simp [project?, hidle]
    refine ⟨v, s, hstay s, ⟨hv, ?_, fun z _ => ?_⟩, fun t _ => ⟨t, hstay t⟩⟩
    · rw [coupling_eq_zero h, target_eq_zero h, LinearMap.zero_apply]
    · rw [sub_self, norm_zero]
      exact norm_nonneg _
  · intro s g _ hg
    refine ⟨s, ?_⟩
    rw [coupling_eq_zero h, map_zero, LinearMap.range_zero, Submodule.bot_coe,
      Metric.infDist_singleton, dist_zero_right, ← norm_eq hg]
    simp [rangeResidual?, hidle]

end Idle

/-! ## Projecting -/

section Couplings

variable [Spectral ℝ] {gs : List (Operator ℝ)} {dims : List ℕ} {rhs : Array ℝ} {epsZero : ℝ}

theorem linear_of_partsLinear (hne : gs ≠ []) (hlen : gs.length = dims.length)
    (hlin : PartsLinear (gs.zip dims) rhs.size)
    (hp : ofCouplings? gs dims rhs epsZero = some p) : p.Linear (total dims) := by
  obtain ⟨p', hp', hparts, hrhs, hshape⟩ := ofCouplings?_of_partsFit hlin.fit epsZero
  rw [hp] at hp'
  cases hp'
  refine ⟨⟨?_, fun _ => ?_, ?_⟩, ?_, fun ha => ?_⟩
  · rw [hparts, hrhs]
    exact hlin.fit
  · rw [hparts, List.map_snd_zip hlen.ge]
  · rw [hrhs]
    exact hshape
  · rw [hparts, hrhs]
    exact hlin
  · have hzip : gs.zip dims ≠ [] := by
      intro h
      rcases List.zip_eq_nil_iff.mp h with h | h
      · exact hne h
      · rw [h] at hlen
        exact hne (List.length_eq_zero_iff.mp hlen)
    simpa [active, hparts, hzip] using ha

/-- With exact eigenvalues, none of which is cut off wrongly, the projection is the Euclidean one,
for operators of any rank and whether or not the right-hand side is in reach. -/
theorem exists_euclidean (hexact : ExactSpectrum) (hlen : gs.length = dims.length ∨ gs = [])
    (hlin : PartsLinear (gs.zip dims) rhs.size) (hzero : 0 ≤ epsZero)
    (hclear : ∀ gram, gram? (gs.zip dims) rhs.size = some gram →
      CutoffClear epsZero gram rhs.size) :
    ∃ p, ofCouplings? gs dims rhs epsZero = some p ∧ p.parts = gs.zip dims ∧ p.rhs = rhs ∧
      p.Euclidean (total dims) ∧
      (vec p.rhs.size p.rhs ∈ LinearMap.range (p.coupling (total dims)) →
        p.target (total dims) = vec p.rhs.size p.rhs) := by
  obtain ⟨p, hp, hparts, hrhs, -⟩ := ofCouplings?_of_partsFit hlin.fit epsZero
  refine ⟨p, hp, hparts, hrhs, ?_, target_of_mem_range⟩
  rcases eq_or_ne gs [] with rfl | hne
  · exact euclidean_of_idle hparts
  · have hl := linear_of_partsLinear hne (hlen.resolve_right hne) hlin hp
    exact euclidean_of_linear hl (isPseudoInverse_weight hexact hzero hl hp hclear)

end Couplings

/-- One entry in two equal rows: only vectors of two equal entries are in reach. -/
noncomputable def twin : Operator ℝ := .ofMatrix (.ofFn (.general 2 1) fun _ _ => 1)

theorem coeff_twin {r : ℕ} (hr : r < 2) : twin.coeff r 0 = 1 := by
  have hcell : (r, 0) ∈ (Shape.general 2 1).cells := Shape.mem_cells_general.mpr ⟨hr, one_pos⟩
  rw [twin, Operator.coeff_ofMatrix _ hr one_pos, Matrix.entry_ofFn hcell]

section Twin

variable (w : Matrix ℝ)

theorem coupling_twin (u : EuclideanSpace ℝ (Fin 1)) (r : Fin 2) :
    coupling ⟨[(twin, 1)], #[1, 0], w⟩ 1 u r = u 0 := by
  show ∑ c : Fin 1, stackCoeff [(twin, 1)] r c * u c = u 0
  rw [Fin.sum_univ_one, stackCoeff_of_lt (by simp)]
  simp [coeff_twin r.isLt]

theorem target_twin : target ⟨[(twin, 1)], #[1, 0], w⟩ 1 = vec 2 #[1 / 2, 1 / 2] := by
  refine Submodule.eq_starProjection_of_mem_of_inner_eq_zero ⟨vec 1 #[1 / 2], ?_⟩ ?_
  · ext r
    rw [coupling_twin]
    fin_cases r <;> rfl
  · rintro _ ⟨u, rfl⟩
    rw [inner_eq_sum]
    show ∑ r : Fin 2, (vec 2 #[1, 0] - vec 2 #[1 / 2, 1 / 2]) r *
      coupling ⟨[(twin, 1)], #[1, 0], w⟩ 1 u r = 0
    rw [Fin.sum_univ_two, coupling_twin, coupling_twin]
    simp [vec]
    ring

end Twin

theorem twin_nearest :
    let _ : Spectral ℝ := .exact
    ∃ p s, ofCouplings? [twin] [1] #[1, 0] 0 = some p ∧
      p.project? p.fresh #[7] = some (#[1 / 2], s) := by
  let _ : Spectral ℝ := .exact
  have hlin : PartsLinear ([twin].zip [1]) (#[1, 0] : Array ℝ).size := by
    intro g n hg
    cases List.mem_singleton.mp hg
    exact ⟨Operator.isLinear_ofMatrix _, rfl, rfl⟩
  obtain ⟨p, hp, hparts, hrhs, heuclid, -⟩ := exists_euclidean exactSpectrum_exact (.inl rfl) hlin
    (le_refl (0 : ℝ)) (fun gram _ => cutoffClear_zero gram _)
  obtain ⟨x, s, hx, hnear, -⟩ := heuclid.project p.fresh #[7] (fresh_sized p) rfl
  refine ⟨p, s, hp, ?_⟩
  obtain ⟨parts, rhs, w⟩ := p
  cases hparts
  cases hrhs
  have hhalf : x.getD 0 0 = 1 / 2 :=
    calc x.getD 0 0 = coupling ⟨[(twin, 1)], #[1, 0], w⟩ 1 (vec 1 x) 0 :=
          (coupling_twin w (vec 1 x) 0).symm
      _ = target ⟨[(twin, 1)], #[1, 0], w⟩ 1 0 := congrArg (fun y => y 0) hnear.coupling
      _ = 1 / 2 := by rw [target_twin]; rfl
  have hsame : x = #[1 / 2] := by
    refine eq_of_vec_eq (n := 1) hnear.size rfl (vec_ext fun i => ?_)
    rw [Fin.fin_one_eq_zero i]
    exact hhalf
  rw [hx, hsame]

end Projection

end Splitting
