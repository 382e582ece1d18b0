import Splitting.Proofs.Real.Vector
import Splitting.Proofs.Acceptance

/-!
# Linear operators in exact arithmetic

An operator is read off the unit vectors. The identity, and every matrix, is a linear map with its
adjoint, in either layout.
-/

namespace Splitting

open LinearMap (adjoint)

/-! ## Matrices -/

theorem sumBelow_eq (n : ℕ) (f : ℕ → ℝ) : Vec.sumBelow n f = ∑ i ∈ Finset.range n, f i := by
  unfold Vec.sumBelow
  induction n with
  | zero => simp
  | succ n ih =>
    rw [Nat.fold_succ, ih, Finset.sum_range_succ]

theorem linearOf_eq_zero {n m : ℕ} (h : m = 0 ∨ n = 0) (a : ℕ → ℕ → ℝ)
    (x : EuclideanSpace ℝ (Fin n)) : linearOf n m a x = 0 := by
  ext r
  rcases h with rfl | rfl
  · exact r.elim0
  · rw [linearOf_apply, Fin.sum_univ_zero]
    rfl

theorem vec_mapIdx {n m : ℕ} {a : ℕ → ℕ → ℝ} {dot : ℕ → ℝ} {x y : Array ℝ} (alpha beta : ℝ)
    (hdot : ∀ r, dot r = ∑ c ∈ Finset.range n, a r c * x.getD c 0) (hy : y.size = m) :
    vec m (y.mapIdx fun r e => alpha * dot r + beta * e) =
      alpha • linearOf n m a (vec n x) + beta • vec m y := by
  refine vec_ext fun i => ?_
  have hi : i < y.size := by have := i.isLt; omega
  rw [PiLp.add_apply, PiLp.smul_apply, PiLp.smul_apply, linearOf_vec, vec_apply, smul_eq_mul,
    smul_eq_mul, getD_of_lt (by simpa using hi), getD_of_lt hi, ← hdot]
  exact Array.getElem_mapIdx ..

theorem Matrix.mulAdd?_vec {a : Matrix ℝ} {alpha beta : ℝ} {x y z : Array ℝ}
    (hy : y.size = a.rows) (h : a.mulAdd? alpha x beta y = some z) :
    vec a.rows z = alpha • linearOf a.cols a.rows a.entry (vec a.cols x) + beta • vec a.rows y := by
  unfold mulAdd? at h
  split at h
  · rename_i h0
    cases h
    rw [linearOf_eq_zero h0, smul_zero, zero_add, vec_scale]
  · split at h
    · cases h
      exact vec_mapIdx alpha beta (fun r => by rw [rowDot_eq_sumBelow, sumBelow_eq]) hy
    · cases h

theorem Matrix.mulAddTransposed?_vec {a : Matrix ℝ} {alpha beta : ℝ} {x y z : Array ℝ}
    (hy : y.size = a.cols) (h : a.mulAddTransposed? alpha x beta y = some z) :
    vec a.cols z = alpha • linearOf a.rows a.cols (fun c r => a.entry r c) (vec a.rows x) +
      beta • vec a.cols y := by
  unfold mulAddTransposed? at h
  split at h
  · rename_i h0
    cases h
    rw [linearOf_eq_zero h0.symm, smul_zero, zero_add, vec_scale]
  · split at h
    · cases h
      exact vec_mapIdx alpha beta (fun c => by rw [colDot_eq_sumBelow, sumBelow_eq]) hy
    · cases h

/-! ## Operators -/

theorem Projection.getD_unit {m r : ℕ} (hr : r < m) (c : ℕ) :
    (unit m c : Array ℝ).getD r 0 = if r = c then 1 else 0 := by
  have hs : (unit m c : Array ℝ).size = m := by simp [unit]
  rw [getD_of_lt (by omega)]
  unfold unit
  rw [Array.getElem_setIfInBounds (by simpa using hr)]
  simp only [Vec.zeros, Array.getElem_replicate, eq_comm]

namespace Operator

/-- What the operator makes of a unit vector. -/
noncomputable def coeff (g : Operator ℝ) (r c : ℕ) : ℝ :=
  ((g.apply 1 (Projection.unit g.cols c) 0 (Vec.zeros g.rows)).getD #[]).getD r 0

noncomputable def linear (g : Operator ℝ) :
    EuclideanSpace ℝ (Fin g.cols) →ₗ[ℝ] EuclideanSpace ℝ (Fin g.rows) :=
  linearOf g.cols g.rows g.coeff

/-- The operator is a linear map, with its adjoint. -/
structure IsLinear (g : Operator ℝ) : Prop where
  apply : ∀ alpha x beta y, x.size = g.cols → y.size = g.rows →
    ∃ z, g.apply alpha x beta y = some z ∧ z.size = g.rows ∧
      vec g.rows z = alpha • g.linear (vec g.cols x) + beta • vec g.rows y
  applyTransposed : ∀ alpha x beta y, x.size = g.rows → y.size = g.cols →
    ∃ z, g.applyTransposed alpha x beta y = some z ∧ z.size = g.cols ∧
      vec g.cols z = alpha • adjoint g.linear (vec g.rows x) + beta • vec g.cols y

theorem IsLinear.sound {g : Operator ℝ} (h : g.IsLinear) : g.Sound := by
  constructor
  · intro alpha x beta y hx hy
    obtain ⟨z, hz, hs, -⟩ := h.apply alpha x beta y hx hy
    exact ⟨z, hz, hs⟩
  · intro alpha x beta y hx hy
    obtain ⟨z, hz, hs, -⟩ := h.applyTransposed alpha x beta y hx hy
    exact ⟨z, hz, hs⟩

theorem IsLinear.apply_getD {g : Operator ℝ} (h : g.IsLinear) {alpha beta : ℝ} {x y z : Array ℝ}
    (hx : x.size = g.cols) (hy : y.size = g.rows) (hz : g.apply alpha x beta y = some z) {r : ℕ}
    (hr : r < g.rows) :
    z.getD r 0 =
      alpha * ∑ c ∈ Finset.range g.cols, g.coeff r c * x.getD c 0 + beta * y.getD r 0 := by
  obtain ⟨z', hz', -, hv⟩ := h.apply alpha x beta y hx hy
  rw [hz] at hz'
  cases hz'
  have hr' := congrArg (fun u => u ⟨r, hr⟩) hv
  simp only [PiLp.add_apply, PiLp.smul_apply, linear, linearOf_vec, vec_apply, smul_eq_mul] at hr'
  exact hr'

theorem IsLinear.applyTransposed_getD {g : Operator ℝ} (h : g.IsLinear) {alpha beta : ℝ}
    {x y z : Array ℝ} (hx : x.size = g.rows) (hy : y.size = g.cols)
    (hz : g.applyTransposed alpha x beta y = some z) {c : ℕ} (hc : c < g.cols) :
    z.getD c 0 =
      alpha * ∑ r ∈ Finset.range g.rows, g.coeff r c * x.getD r 0 + beta * y.getD c 0 := by
  obtain ⟨z', hz', -, hv⟩ := h.applyTransposed alpha x beta y hx hy
  rw [hz] at hz'
  cases hz'
  have hc' := congrArg (fun u => u ⟨c, hc⟩) hv
  simp only [PiLp.add_apply, PiLp.smul_apply, linear, adjoint_linearOf, linearOf_vec, vec_apply,
    smul_eq_mul] at hc'
  exact hc'

theorem coeff_eq {g : Operator ℝ} {a : ℕ → ℕ → ℝ}
    (h : ∀ alpha x beta y, x.size = g.cols → y.size = g.rows →
      ∃ z, g.apply alpha x beta y = some z ∧ z.size = g.rows ∧
        vec g.rows z = alpha • linearOf g.cols g.rows a (vec g.cols x) + beta • vec g.rows y)
    {r c : ℕ} (hr : r < g.rows) (hc : c < g.cols) : g.coeff r c = a r c := by
  obtain ⟨z, hz, -, hv⟩ := h 1 (Projection.unit g.cols c) 0 (Vec.zeros g.rows)
    (by simp [Projection.unit]) (by simp)
  have hentry := congrArg (fun u => u ⟨r, hr⟩) hv
  rw [one_smul, zero_smul, add_zero, linearOf_vec,
    Finset.sum_eq_single_of_mem c (Finset.mem_range.mpr hc), Projection.getD_unit hc,
    if_pos rfl, mul_one] at hentry
  · rw [coeff, hz]
    exact hentry
  · intro k hk hkc
    rw [Projection.getD_unit (Finset.mem_range.mp hk), if_neg hkc, mul_zero]

theorem isLinear_of_coeff {g : Operator ℝ} (a : ℕ → ℕ → ℝ)
    (happly : ∀ alpha x beta y, x.size = g.cols → y.size = g.rows →
      ∃ z, g.apply alpha x beta y = some z ∧ z.size = g.rows ∧
        vec g.rows z = alpha • linearOf g.cols g.rows a (vec g.cols x) + beta • vec g.rows y)
    (htransposed : ∀ alpha x beta y, x.size = g.rows → y.size = g.cols →
      ∃ z, g.applyTransposed alpha x beta y = some z ∧ z.size = g.cols ∧
        vec g.cols z = alpha • linearOf g.rows g.cols (fun c r => a r c) (vec g.rows x) +
          beta • vec g.cols y) : g.IsLinear := by
  have hlinear : g.linear = linearOf g.cols g.rows a := by
    refine LinearMap.ext fun x => ?_
    ext r
    rw [linear, linearOf_apply, linearOf_apply]
    exact Finset.sum_congr rfl fun c _ => by rw [coeff_eq happly r.isLt c.isLt]
  constructor
  · rw [hlinear]
    exact happly
  · rw [hlinear, adjoint_linearOf]
    exact htransposed

theorem isLinear_ofMatrix (m : Matrix ℝ) : (ofMatrix m).IsLinear := by
  refine isLinear_of_coeff m.entry ?_ ?_
  · intro alpha x beta y hx hy
    obtain ⟨z, hz, hs⟩ := m.mulAdd?_total alpha beta hx hy
    exact ⟨z, hz, hs, Matrix.mulAdd?_vec hy hz⟩
  · intro alpha x beta y hx hy
    obtain ⟨z, hz, hs⟩ := (sound_ofMatrix m).applyTransposed alpha x beta y hx hy
    exact ⟨z, hz, hs, Matrix.mulAddTransposed?_vec hy hz⟩

theorem coeff_ofMatrix (m : Matrix ℝ) {r c : ℕ} (hr : r < m.rows) (hc : c < m.cols) :
    (ofMatrix m).coeff r c = m.entry r c := by
  refine coeff_eq (fun alpha x beta y hx hy => ?_) hr hc
  obtain ⟨z, hz, hs⟩ := m.mulAdd?_total alpha beta hx hy
  exact ⟨z, hz, hs, Matrix.mulAdd?_vec hy hz⟩

theorem scaledIdentity_apply (n : ℕ) (factor alpha beta : ℝ) {x y : Array ℝ} (hx : x.size = n)
    (hy : y.size = n) :
    ∃ z, (scaledIdentity n factor).apply alpha x beta y = some z ∧ z.size = n ∧
      vec n z = alpha • linearOf n n (fun r c => if r = c then factor else 0) (vec n x) +
        beta • vec n y := by
  have hdiag : linearOf n n (fun r c => if r = c then factor else 0) (vec n x) =
      factor • vec n x := by
    ext r
    simp [linearOf_apply, Fin.val_inj]
  obtain ⟨z, hz, hs⟩ := Vec.addScaled?_total (alpha * factor) (x := x) (y := Vec.scale beta y)
    (by rw [Vec.size_scale, hx, hy])
  refine ⟨z, hz, by rw [hs, Vec.size_scale, hy], ?_⟩
  rw [vec_addScaled? hz, vec_scale, hdiag, smul_smul, add_comm]

theorem isLinear_scaledIdentity (n : ℕ) (factor : ℝ) : (scaledIdentity n factor).IsLinear := by
  refine isLinear_of_coeff (fun r c => if r = c then factor else 0) ?_ ?_
  · intro alpha x beta y hx hy
    exact scaledIdentity_apply n factor alpha beta hx hy
  · intro alpha x beta y hx hy
    have hsymm : (fun c r : ℕ => if r = c then factor else 0) =
        fun r c => if r = c then factor else 0 := by
      funext c r
      simp only [eq_comm]
    rw [hsymm]
    exact scaledIdentity_apply n factor alpha beta hx hy

theorem coeff_scaledIdentity {n r c : ℕ} (factor : ℝ) (hr : r < n) (hc : c < n) :
    (scaledIdentity n factor).coeff r c = if r = c then factor else 0 :=
  coeff_eq (fun alpha _ beta _ hx hy => scaledIdentity_apply n factor alpha beta hx hy) hr hc

theorem sum_coeff_scaledIdentity {n r : ℕ} (factor : ℝ) (hr : r < n) (f : ℕ → ℝ) :
    ∑ c ∈ Finset.range n, (scaledIdentity n factor).coeff r c * f c = factor * f r := by
  rw [Finset.sum_eq_single_of_mem r (Finset.mem_range.mpr hr), coeff_scaledIdentity _ hr hr,
    if_pos rfl]
  intro c hc hcr
  rw [coeff_scaledIdentity _ hr (Finset.mem_range.mp hc), if_neg hcr.symm, zero_mul]

end Operator

end Splitting
