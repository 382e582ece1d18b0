import Splitting.Proofs.Real.AnyOrder
import Splitting.Proofs.Real.Mixing
import Splitting.Proofs.Substitution

/-!
# The identity and its matrix

In exact arithmetic linear operators with the same coefficients can stand for each other. So a
multiple of the identity can stand for its matrix, in either layout.
-/

namespace Splitting

structure Matrix.IsScaledIdentity (d : Matrix ℝ) (n : ℕ) (factor : ℝ) : Prop where
  rows : d.rows = n
  cols : d.cols = n
  entry : ∀ r < n, ∀ c < n, d.entry r c = if r = c then factor else 0

theorem Matrix.isScaledIdentity_general (n : ℕ) (factor : ℝ) :
    (ofFn (.general n n) fun r c => if r = c then factor else 0).IsScaledIdentity n factor :=
  ⟨rfl, rfl, fun _ hr _ hc => entry_ofFn (Shape.mem_cells_general.mpr ⟨hr, hc⟩) _⟩

theorem Matrix.isScaledIdentity_packed (n : ℕ) (factor : ℝ) :
    (ofFn (.packed n) fun r c => if r = c then factor else 0).IsScaledIdentity n factor :=
  ⟨rfl, rfl, fun r hr c hc => entry_ofFn_packed (by simp only [eq_comm]) hr hc⟩

namespace Operator

/-! ## Operators with the same coefficients -/

theorem eq_of_getD {n : ℕ} {x y : Array ℝ} (hx : x.size = n) (hy : y.size = n)
    (h : ∀ i < n, x.getD i 0 = y.getD i 0) : x = y :=
  eq_of_vec_eq hx hy (vec_ext fun i => h i i.isLt)

theorem IsLinear.alike {g g' : Operator ℝ} (hg : g.IsLinear) (hg' : g'.IsLinear)
    (hrows : g.rows = g'.rows) (hcols : g.cols = g'.cols)
    (hcoeff : ∀ r < g.rows, ∀ c < g.cols, g.coeff r c = g'.coeff r c) (hplace : g.InPlace) :
    g.Alike g' := by
  refine ⟨hrows, hcols, fun alpha x beta y hx hy => ?_, fun alpha x beta y hx hy => ?_, hplace⟩
  · obtain ⟨z, hz, hs, -⟩ := hg.apply alpha x beta y hx hy
    obtain ⟨z', hz', hs', -⟩ := hg'.apply alpha x beta y (hx.trans hcols) (hy.trans hrows)
    rw [hz, hz', eq_of_getD hs (hs'.trans hrows.symm) fun r hr => ?_]
    rw [hg.apply_getD hx hy hz hr,
      hg'.apply_getD (hx.trans hcols) (hy.trans hrows) hz' (hrows ▸ hr), ← hcols]
    congr 2
    exact Finset.sum_congr rfl fun c hc => by rw [hcoeff r hr c (Finset.mem_range.mp hc)]
  · obtain ⟨z, hz, hs, -⟩ := hg.applyTransposed alpha x beta y hx hy
    obtain ⟨z', hz', hs', -⟩ := hg'.applyTransposed alpha x beta y (hx.trans hrows) (hy.trans hcols)
    rw [hz, hz', eq_of_getD hs (hs'.trans hcols.symm) fun c hc => ?_]
    rw [hg.applyTransposed_getD hx hy hz hc,
      hg'.applyTransposed_getD (hx.trans hrows) (hy.trans hcols) hz' (hcols ▸ hc), ← hrows]
    congr 2
    exact Finset.sum_congr rfl fun r hr => by rw [hcoeff r (Finset.mem_range.mp hr) c hc]

theorem dot?_eq_inner {n : ℕ} {x y : Array ℝ} (hx : x.size = n) (hy : y.size = n) :
    Vec.dot? x y = some (inner ℝ (vec n x) (vec n y)) := by
  obtain ⟨a, ha⟩ := Vec.dot?_total (hx.trans hy.symm)
  rw [ha, dot?_vec hx ha]

theorem IsLinear.dot?_eq {g : Operator ℝ} (h : g.IsLinear) {x y : Array ℝ} (hx : x.size = g.cols)
    (hy : y.size = g.rows) :
    ∃ z z', g.apply 1 x 0 (Vec.zeros g.rows) = some z ∧
      g.applyTransposed 1 y 0 (Vec.zeros g.cols) = some z' ∧ Vec.dot? z y = Vec.dot? x z' := by
  obtain ⟨z, hz, hs, hv⟩ := h.apply 1 x 0 (Vec.zeros g.rows) hx (by simp)
  obtain ⟨z', hz', hs', hv'⟩ := h.applyTransposed 1 y 0 (Vec.zeros g.cols) hy (by simp)
  refine ⟨z, z', hz, hz', ?_⟩
  rw [one_smul, zero_smul, add_zero] at hv hv'
  rw [dot?_eq_inner hs hy, dot?_eq_inner hx hs', hv, hv', LinearMap.adjoint_inner_right]

/-! ## The identity -/

section Identity

variable {n : ℕ} {factor : ℝ}

theorem alike_dense {d : Matrix ℝ} (hd : d.IsScaledIdentity n factor) :
    (scaledIdentity n factor).Alike (ofMatrix d) := by
  refine (isLinear_scaledIdentity n factor).alike (isLinear_ofMatrix d) hd.rows.symm hd.cols.symm
    (fun r hr c hc => ?_) (inPlace_scaledIdentity n factor)
  rw [coeff_scaledIdentity (n := n) factor hr hc, coeff_ofMatrix d (hd.rows ▸ hr) (hd.cols ▸ hc),
    hd.entry r hr c hc]

theorem scaledIdentity_apply_eq (factor alpha beta : ℝ) {x y : Array ℝ} (hx : x.size = n)
    (hy : y.size = n) : (scaledIdentity n factor).apply alpha x beta y =
      some (Array.zipWith (fun d e => alpha * factor * d + beta * e) x y) := by
  have hsize : x.size = (Vec.scale beta y).size := by rw [Vec.size_scale, hx, hy]
  show Vec.addScaled? (alpha * factor) x (Vec.scale beta y) = _
  rw [Vec.addScaled?, if_pos hsize]
  congr 1
  refine Array.ext (by simp [Nat.min_comm]) fun i hi hi' => ?_
  simp only [Array.getElem_zipWith, Vec.scale, Array.getElem_map]
  exact add_comm _ _

theorem sum_abs_column (factor : ℝ) {c : ℕ} (hc : c < n) :
    ∑ r ∈ Finset.range n, |if r = c then factor else 0| = |factor| := by
  rw [Finset.sum_eq_single_of_mem c (Finset.mem_range.mpr hc), if_pos rfl]
  intro r _ hrc
  rw [if_neg hrc, abs_zero]

theorem shift_eq_mapIdx {sums : ℕ → ℝ} {y : Array ℝ} (hy : y.size = n)
    (hsums : ∀ c < n, sums c = |factor|) :
    Vec.shift (Scalar.abs factor) y = y.mapIdx fun c e => e + sums c := by
  refine Array.ext (by simp) fun i hi hi' => ?_
  have hin : i < n := by simpa [hy] using hi
  rw [Array.getElem_mapIdx, hsums i hin]
  simp only [Vec.shift, Array.getElem_map]
  rfl

theorem abs_columns_dense {d : Matrix ℝ} (hd : d.IsScaledIdentity n factor) {y : Array ℝ}
    (hy : y.size = n) : (ofMatrix d).addAbsCols y =
      y.mapIdx fun c e => e + ∑ r ∈ Finset.range n, |if r = c then factor else 0| := by
  refine Array.ext (by simp [ofMatrix]) fun c hc hc' => ?_
  have hcn : c < n := by simpa [hy] using hc'
  simp only [ofMatrix, Array.getElem_mapIdx, sumBelow_eq, hd.rows]
  congr 1
  refine Finset.sum_congr rfl fun r hr => ?_
  rw [hd.entry r (Finset.mem_range.mp hr) c hcn]
  rfl

theorem abs_rows_dense {d : Matrix ℝ} (hd : d.IsScaledIdentity n factor) {y : Array ℝ}
    (hy : y.size = n) : (ofMatrix d).addAbsRows y =
      y.mapIdx fun r e => e + ∑ c ∈ Finset.range n, |if r = c then factor else 0| := by
  refine Array.ext (by simp [ofMatrix]) fun r hr hr' => ?_
  have hrn : r < n := by simpa [hy] using hr'
  simp only [ofMatrix, Array.getElem_mapIdx, sumBelow_eq, hd.cols]
  congr 1
  refine Finset.sum_congr rfl fun c hc => ?_
  rw [hd.entry r hrn c (Finset.mem_range.mp hc)]
  rfl

end Identity

/-- The second operator is the first one, or its matrix if that is a multiple of the identity. -/
inductive DenseFor : Operator ℝ → Operator ℝ → Prop
  | same {g : Operator ℝ} : g.InPlace → DenseFor g g
  | dense {n : ℕ} {factor : ℝ} {d : Matrix ℝ} : d.IsScaledIdentity n factor →
    DenseFor (scaledIdentity n factor) (ofMatrix d)

theorem DenseFor.alike {g g' : Operator ℝ} (h : DenseFor g g') : g.Alike g' := by
  cases h with
  | same h => exact h.alike
  | dense h => exact alike_dense h

end Operator

/-! ## In the place of the matrix -/

/-- A multiple of the identity stands for its matrix. Both answer `alpha factor x + beta y`, are
their own adjoints, and add the same sums of magnitudes. With the matrices in the place of some of
the multiples of the identity a problem has the same defect, if it has one, and a solve does and
finds the same. -/
theorem identity_stands_for_matrix [Spectral ℝ] :
    (∀ n factor, ∀ d : Matrix ℝ, d.IsScaledIdentity n factor →
      ∀ x y, x.size = n → y.size = n →
        (∀ alpha beta,
          let answer := some (Array.zipWith (fun d e => alpha * factor * d + beta * e) x y)
          (Operator.scaledIdentity n factor).apply alpha x beta y = answer ∧
            (Operator.scaledIdentity n factor).applyTransposed alpha x beta y = answer ∧
            (Operator.ofMatrix d).apply alpha x beta y = answer ∧
            (Operator.ofMatrix d).applyTransposed alpha x beta y = answer) ∧
        (∃ z z', (Operator.scaledIdentity n factor).apply 1 x 0 (Vec.zeros n) = some z ∧
          (Operator.scaledIdentity n factor).applyTransposed 1 y 0 (Vec.zeros n) = some z' ∧
          Vec.dot? z y = Vec.dot? x z') ∧
        let sums : ℕ → ℝ := fun c => ∑ r ∈ Finset.range n, |if r = c then factor else 0|
        let sums' : ℕ → ℝ := fun r => ∑ c ∈ Finset.range n, |if r = c then factor else 0|
        (Operator.scaledIdentity n factor).addAbsCols y = y.mapIdx (fun c e => e + sums c) ∧
          (Operator.ofMatrix d).addAbsCols y = y.mapIdx (fun c e => e + sums c) ∧
          (Operator.scaledIdentity n factor).addAbsRows y = y.mapIdx (fun r e => e + sums' r) ∧
          (Operator.ofMatrix d).addAbsRows y = y.mapIdx fun r e => e + sums' r) ∧
    ∀ (σ : Type) (p : Problem σ ℝ) (gs : List (Operator ℝ)),
      List.Forall₂ Operator.DenseFor p.couplings gs →
        (p.coupledBy gs).shapeDefect? = p.shapeDefect? ∧
        ∀ budget par init w,
          Solver.solve budget par init (p.coupledBy gs) w = Solver.solve budget par init p w := by
  refine ⟨fun n factor d hd x y hx hy => ⟨fun alpha beta => ?_, ?_, ?_, ?_, ?_, ?_⟩,
    fun σ p gs h => ?_⟩
  · have halike := Operator.alike_dense hd
    have happly := Operator.scaledIdentity_apply_eq factor alpha beta hx hy
    exact ⟨happly, happly, (halike.apply alpha x beta y hx hy).symm.trans happly,
      (halike.applyTransposed alpha x beta y hx hy).symm.trans happly⟩
  · exact (Operator.isLinear_scaledIdentity n factor).dot?_eq hx hy
  · exact Operator.shift_eq_mapIdx hy fun c hc => Operator.sum_abs_column factor hc
  · exact Operator.abs_columns_dense hd hy
  · refine Operator.shift_eq_mapIdx hy fun r hr => ?_
    simp only [eq_comm (a := r)]
    exact Operator.sum_abs_column factor hr
  · exact Operator.abs_rows_dense hd hy
  · have halike := h.imp fun _ _ hg => Operator.DenseFor.alike hg
    exact ⟨Problem.shapeDefect?_coupledBy halike, Solver.solve_coupledBy halike⟩

noncomputable def tallyMatrices : List (Operator ℝ) :=
  [.ofMatrix (.ofFn (.packed 1) fun r c => if r = c then 1 else 0),
    .ofMatrix (.ofFn (.general 1 2) fun _ _ => 1)]

theorem tally_with_matrices :
    let _ : Spectral ℝ := .exact
    let w : World (Array ℕ) ℝ := .start #[0, 0] none
    List.Forall₂ Operator.DenseFor Solver.tally.couplings tallyMatrices ∧
      (Solver.tally.coupledBy tallyMatrices).shapeDefect? = none ∧
      ∃ a v, Solver.solve 0 Solver.restlessly (some [#[1], #[0, 0]])
        (Solver.tally.coupledBy tallyMatrices) w = .ok (some a) v ∧ a.iterations = 1 := by
  let _ : Spectral ℝ := .exact
  have hdense : List.Forall₂ Operator.DenseFor Solver.tally.couplings tallyMatrices :=
    .cons (.dense (Matrix.isScaledIdentity_packed 1 1))
      (.cons (.same (Operator.inPlace_ofMatrix _)) .nil)
  obtain ⟨hshape, hsolve⟩ := identity_stands_for_matrix.2 _ Solver.tally tallyMatrices hdense
  obtain ⟨s, v, hs, hprimal, hdual⟩ := Solver.tally_iteration
  have hlimit : 0 < Solver.restlessly.maxIter.getD 0 := by simp [Solver.restlessly]
  obtain ⟨a, u, ha, hk⟩ := Solver.solve_eq_some_of_firstConvergesAt
    (Solver.firstConvergesAt_of_residuals_zero hs hprimal hdual) hlimit
  refine ⟨hdense, hshape, a, u, ?_, hk⟩
  rw [hsolve]
  exact ha

end Splitting
