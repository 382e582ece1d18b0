import Splitting.Proofs.Real.FixedPoint

/-!
# Blocks that have to agree

The coupling `x₁ - x₂ = 0` of two blocks with the same number of entries. Its Gram matrix is twice
the identity, so half the identity is its weight. An iteration has settled where both blocks answer
the same, from points that lie as far to one side of it as to the other.
-/

namespace Splitting

namespace Projection

/-- The coupling asks two blocks of `n` entries to agree. -/
structure Agreement (p : Projection ℝ) (n : ℕ) : Prop where
  parts : p.parts = [(.scaledIdentity n 1, n), (.scaledIdentity n (-1), n)]
  rhs : p.rhs = Vec.zeros n

namespace Agreement

variable {p : Projection ℝ} {n : ℕ}

theorem size_rhs (h : p.Agreement n) : p.rhs.size = n := by
  rw [h.rhs, Vec.size_zeros]

theorem vec_rhs (h : p.Agreement n) : vec p.rhs.size p.rhs = 0 := by
  have hzero : ∀ r, p.rhs.getD r 0 = 0 := fun r => by
    rw [h.rhs]
    simp [Vec.zeros, Array.getD]
  exact vec_ext fun r => hzero r

theorem coord_coupling (h : p.Agreement n) (u : EuclideanSpace ℝ (Fin (n + n))) {r : ℕ}
    (hr : r < n) : coord (p.coupling (n + n) u) r = coord u r - coord u (n + r) := by
  have hsecond : ∑ i ∈ Finset.range n,
      stackCoeff [(.scaledIdentity n (-1), n)] r i * coord u (n + i) = -1 * coord u (n + r) := by
    rw [← Operator.sum_coeff_scaledIdentity (-1) hr fun i => coord u (n + i)]
    refine Finset.sum_congr rfl fun i hi => ?_
    rw [stackCoeff_of_lt (Finset.mem_range.mp hi)]
  unfold coupling
  rw [coord_linearOf (by rw [h.size_rhs]; exact hr), h.parts, sum_stackCoeff_cons, hsecond,
    Operator.sum_coeff_scaledIdentity 1 hr]
  ring

theorem coord_transposed (h : p.Agreement n) (y : EuclideanSpace ℝ (Fin p.rhs.size)) {i : ℕ}
    (hi : i < n) : coord (p.transposed (n + n) y) i = coord y i ∧
      coord (p.transposed (n + n) y) (n + i) = -coord y i := by
  have hcomm : ∀ factor, ∀ r ∈ Finset.range n,
      (Operator.scaledIdentity n factor).coeff r i * coord y r =
        (Operator.scaledIdentity n factor).coeff i r * coord y r := by
    intro factor r hr
    have hr := Finset.mem_range.mp hr
    rw [Operator.coeff_scaledIdentity factor hr hi, Operator.coeff_scaledIdentity factor hi hr]
    simp only [eq_comm]
  have hrows : ∀ f : ℕ → ℝ, ∑ r ∈ Finset.range p.rhs.size, f r = ∑ r ∈ Finset.range n, f r :=
    fun f => by rw [h.size_rhs]
  unfold transposed
  constructor
  · rw [coord_linearOf (by omega), h.parts, hrows]
    simp only [stackCoeff_of_lt hi]
    rw [Finset.sum_congr rfl (hcomm 1), Operator.sum_coeff_scaledIdentity 1 hi, one_mul]
  · rw [coord_linearOf (by omega), h.parts, hrows]
    simp only [stackCoeff_add, stackCoeff_of_lt hi]
    rw [Finset.sum_congr rfl (hcomm (-1)), Operator.sum_coeff_scaledIdentity (-1) hi, neg_one_mul]

theorem coupling_transposed (h : p.Agreement n) (y : EuclideanSpace ℝ (Fin p.rhs.size)) :
    p.coupling (n + n) (p.transposed (n + n) y) = (2 : ℝ) • y := by
  refine coord_ext fun r hr => ?_
  rw [h.size_rhs] at hr
  obtain ⟨hfirst, hsecond⟩ := h.coord_transposed y hr
  rw [h.coord_coupling _ hr, hfirst, hsecond, coord_smul]
  ring

theorem weight_eq [Spectral ℝ] (hexact : ExactSpectrum) (h : p.Agreement n)
    (hlin : p.Linear (n + n)) {gs : List (Operator ℝ)} {dims : List ℕ} {rhs : Array ℝ}
    {epsZero : ℝ} (hp : ofCouplings? gs dims rhs epsZero = some p)
    (hclear : ∀ gram, gram? (gs.zip dims) rhs.size = some gram →
      CutoffClear epsZero gram rhs.size) (y : EuclideanSpace ℝ (Fin p.rhs.size)) :
    p.weight y = (1 / 2 : ℝ) • y := by
  cases ha : p.active with
  | false =>
    have := hlin.subsingleton ha
    exact Subsingleton.elim _ _
  | true =>
    rcases eq_or_ne y 0 with rfl | hy
    · rw [map_zero, smul_zero]
    obtain ⟨gram, hg, rfl⟩ := gram?_of_active hp ha
    obtain ⟨gram', hg', hshape⟩ := gram?_total hlin.parts
    obtain rfl : gram = gram' := Option.some.inj (hg.symm.trans hg')
    have htwice : linearOf rhs.size rhs.size gram.entry y = (2 : ℝ) • y := by
      have hgram := h.coupling_transposed y
      rw [← adjoint_coupling] at hgram
      rw [gram?_linear hlin.linear (hlin.total ha) hg]
      exact hgram
    have hcut := hclear gram hg 2 y hy htwice two_pos
    have hweight := hexact _ gram hshape epsZero (cutoffRecip (cutoff epsZero gram)) 2 y htwice
    unfold cutoffRecip at hweight
    rw [if_pos hcut] at hweight
    exact hweight

section Weight

variable (h : p.Agreement n) (hw : ∀ y, p.weight y = (1 / 2 : ℝ) • y)

include h hw

theorem reproduces : p.Reproduces (n + n) := by
  intro u
  rw [hw, map_smul, map_smul, h.coupling_transposed, smul_smul, one_div_mul_cancel two_ne_zero,
    one_smul]

theorem coord_unreached (u : EuclideanSpace ℝ (Fin (n + n))) {i : ℕ} (hi : i < n) :
    coord (p.unreached (n + n) u) i = (coord u i + coord u (n + i)) / 2 ∧
      coord (p.unreached (n + n) u) (n + i) = (coord u i + coord u (n + i)) / 2 := by
  obtain ⟨hfirst, hsecond⟩ := h.coord_transposed (p.weight (p.coupling (n + n) u)) hi
  have hgap : coord (p.weight (p.coupling (n + n) u)) i =
      1 / 2 * (coord u i - coord u (n + i)) := by
    rw [hw, coord_smul, h.coord_coupling u hi]
  unfold unreached
  rw [coord_sub, coord_sub, hfirst, hsecond, hgap]
  constructor <;> ring

theorem unreached_eq_zero_iff (u : EuclideanSpace ℝ (Fin (n + n))) :
    p.unreached (n + n) u = 0 ↔ ∀ i < n, coord u i + coord u (n + i) = 0 := by
  have hzero : ∀ r, coord (0 : EuclideanSpace ℝ (Fin (n + n))) r = 0 := fun r => by simp [coord]
  constructor
  · intro hu i hi
    have hmean := (h.coord_unreached hw u hi).1
    rw [hu, hzero] at hmean
    linarith
  · intro hu
    refine coord_ext fun r hr => ?_
    rw [hzero]
    rcases Nat.lt_or_ge r n with hlt | hge
    · rw [(h.coord_unreached hw u hlt).1, hu r hlt, zero_div]
    · obtain ⟨i, rfl⟩ := Nat.exists_eq_add_of_le hge
      have hi : i < n := by omega
      rw [(h.coord_unreached hw u hi).2, hu i hi, zero_div]

end Weight

end Agreement

end Projection

namespace Solver

variable {σ : Type} {par : Params ℝ} {proxes : List (Prox σ ℝ)} {proj : Projection ℝ} {n : ℕ}
  {q : Progress ℝ} {w u : World σ ℝ} {s : Sight ℝ}

section Agreement

variable (h : proj.Agreement n) (hlin : proj.Linear (n + n))
  (hn : total (proxes.map Prox.dim) = n + n) (hq : q.Sized (n + n) proj.rhs.size)
  (hs : look par proxes proj q w = .ok s u)

include h hlin hn hq hs

theorem primal_eq_zero_iff :
    s.measure.primal = 0 ↔ ∀ i < n, s.x.getD i 0 = s.x.getD (n + i) 0 := by
  obtain ⟨hprimal, -⟩ := look_vec hlin hn hq hs
  have hentry : ∀ i < n, coord (proj.coupling (n + n) (vec (n + n) s.x)) i =
      s.x.getD i 0 - s.x.getD (n + i) 0 := by
    intro i hi
    rw [h.coord_coupling _ hi, coord_vec (by omega), coord_vec (by omega)]
  rw [hprimal, h.vec_rhs, sub_zero, norm_eq_zero]
  constructor
  · intro hx i hi
    have hi' := hentry i hi
    rw [hx] at hi'
    have hzero : coord (0 : EuclideanSpace ℝ (Fin proj.rhs.size)) i = 0 := by simp [coord]
    linarith
  · intro hx
    refine coord_ext fun i hi => ?_
    rw [h.size_rhs] at hi
    rw [hentry i hi, hx i hi, sub_self]
    simp [coord]

theorem dual_eq_zero_iff (hw : ∀ y, proj.weight y = (1 / 2 : ℝ) • y) (hrho : 0 < par.rho) :
    s.measure.dual = 0 ↔ ∀ i < n,
      (q.v.getD i 0 - s.x.getD i 0) + (q.v.getD (n + i) 0 - s.x.getD (n + i) 0) = 0 := by
  obtain ⟨-, hdual, -⟩ := look_vec hlin hn hq hs
  rw [hdual, Projection.unreached_smul, norm_smul, mul_eq_zero, norm_eq_zero, norm_eq_zero,
    or_iff_right (one_div_pos.mpr hrho).ne', h.unreached_eq_zero_iff hw]
  refine forall₂_congr fun i hi => ?_
  rw [coord_sub, coord_sub, coord_vec (by omega), coord_vec (by omega), coord_vec (by omega),
    coord_vec (by omega)]

theorem settled_iff (hw : ∀ y, proj.weight y = (1 / 2 : ℝ) • y) (hrho : 0 < par.rho) :
    s.measure.image = q.v ↔ ∀ i < n, s.x.getD i 0 = s.x.getD (n + i) 0 ∧
      (q.v.getD i 0 - s.x.getD i 0) + (q.v.getD (n + i) 0 - s.x.getD (n + i) 0) = 0 := by
  have hz : proj.coupling (n + n) 0 = vec proj.rhs.size proj.rhs := by
    rw [map_zero, h.vec_rhs]
  rw [← residuals_eq_zero_iff hlin (h.reproduces hw) hn hrho hq hz hs,
    primal_eq_zero_iff h hlin hn hq hs, dual_eq_zero_iff h hlin hn hq hs hw hrho]
  exact ⟨fun ⟨hx, hv⟩ i hi => ⟨hx i hi, hv i hi⟩,
    fun hall => ⟨fun i hi => (hall i hi).1, fun i hi => (hall i hi).2⟩⟩

end Agreement

end Solver

end Splitting
