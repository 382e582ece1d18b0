import Splitting.Proofs.Real.Vector
import Splitting.Spectrum.Basic

/-!
# Exact eigenvalues

Over the real numbers a symmetric matrix has an orthonormal basis of eigenvectors, and a function of
the matrix acts on each of them by the function of its eigenvalue.
-/

namespace Splitting

/-- Functions of packed matrices act on eigenvectors as they do on the eigenvalues. -/
def ExactSpectrum [Spectral ℝ] : Prop :=
  ∀ (m : ℕ) (a : Matrix ℝ), a.shape = .packed m → ∀ (eps : ℝ) (f : ℝ → ℝ) (e : ℝ)
    (x : EuclideanSpace ℝ (Fin m)), linearOf m m a.entry x = e • x →
      linearOf m m (Spectral.mapEig a eps f).entry x = f e • x

theorem isSymmetric_linearOf {m : ℕ} {a : ℕ → ℕ → ℝ} (ha : ∀ r c, a r c = a c r) :
    (linearOf m m a).IsSymmetric := by
  intro x y
  have hself : LinearMap.adjoint (linearOf m m a) = linearOf m m a := by
    rw [adjoint_linearOf]
    congr 1
    funext r c
    exact ha c r
  rw [← LinearMap.adjoint_inner_right, hself]

/-- Entry `r` of a vector, zero beyond its end. -/
noncomputable def coord {m : ℕ} (x : EuclideanSpace ℝ (Fin m)) (r : ℕ) : ℝ :=
  if h : r < m then x ⟨r, h⟩ else 0

@[simp] theorem coord_fin {m : ℕ} (x : EuclideanSpace ℝ (Fin m)) (r : Fin m) :
    coord x r = x r := by simp [coord]

theorem coord_vec {m r : ℕ} (h : r < m) (x : Array ℝ) : coord (vec m x) r = x.getD r 0 :=
  dif_pos h

theorem coord_ext {m : ℕ} {x y : EuclideanSpace ℝ (Fin m)} (h : ∀ r < m, coord x r = coord y r) :
    x = y := by
  ext r
  rw [← coord_fin, ← coord_fin]
  exact h r r.isLt

theorem coord_sub {m : ℕ} (x y : EuclideanSpace ℝ (Fin m)) (r : ℕ) :
    coord (x - y) r = coord x r - coord y r := by
  unfold coord
  split
  · rfl
  · rw [sub_zero]

theorem coord_smul {m : ℕ} (a : ℝ) (x : EuclideanSpace ℝ (Fin m)) (r : ℕ) :
    coord (a • x) r = a * coord x r := by
  unfold coord
  split
  · rfl
  · rw [mul_zero]

theorem coord_linearOf {n m r : ℕ} (h : r < m) (a : ℕ → ℕ → ℝ) (x : EuclideanSpace ℝ (Fin n)) :
    coord (linearOf n m a x) r = ∑ c ∈ Finset.range n, a r c * coord x c := by
  rw [← Fin.sum_univ_eq_sum_range fun c => a r c * coord x c]
  simp [coord, h, linearOf_apply]

section Symmetric

variable {m : ℕ} {t : EuclideanSpace ℝ (Fin m) →ₗ[ℝ] EuclideanSpace ℝ (Fin m)}

/-- The coefficients of `f t`, from the eigenvectors of `t`. -/
noncomputable def mapCoeff (ht : t.IsSymmetric) (f : ℝ → ℝ) (r c : ℕ) : ℝ :=
  ∑ i : Fin m, f (ht.eigenvalues finrank_euclideanSpace_fin i) *
    coord (ht.eigenvectorBasis finrank_euclideanSpace_fin i) r *
      coord (ht.eigenvectorBasis finrank_euclideanSpace_fin i) c

theorem mapCoeff_comm (ht : t.IsSymmetric) (f : ℝ → ℝ) (r c : ℕ) :
    mapCoeff ht f r c = mapCoeff ht f c r :=
  Finset.sum_congr rfl fun i _ => by ring

theorem linearOf_mapCoeff (ht : t.IsSymmetric) (f : ℝ → ℝ) {e : ℝ}
    {x : EuclideanSpace ℝ (Fin m)} (hx : t x = e • x) :
    linearOf m m (mapCoeff ht f) x = f e • x := by
  set b := ht.eigenvectorBasis finrank_euclideanSpace_fin with hb
  set v := ht.eigenvalues finrank_euclideanSpace_fin
  -- an eigenvector of another eigenvalue is orthogonal to `x`
  have heig : ∀ i, f (v i) * inner ℝ (b i) x = f e * inner ℝ (b i) x := by
    intro i
    have hbi : t (b i) = v i • b i := ht.apply_eigenvectorBasis finrank_euclideanSpace_fin i
    have hswap := ht (b i) x
    rw [hx, hbi, real_inner_smul_left, real_inner_smul_right] at hswap
    rcases eq_or_ne (inner ℝ (b i) x) 0 with h0 | h0
    · rw [h0, mul_zero, mul_zero]
    · rw [mul_right_cancel₀ h0 hswap]
  ext r
  have hsum : linearOf m m (mapCoeff ht f) x r = ∑ i, f (v i) * inner ℝ (b i) x * b i r := by
    rw [linearOf_apply]
    simp only [mapCoeff, coord_fin, inner_eq_sum, Finset.sum_mul, Finset.mul_sum]
    rw [Finset.sum_comm]
    exact Finset.sum_congr rfl fun i _ => Finset.sum_congr rfl fun c _ => by ring
  have hexpand : x r = ∑ i, inner ℝ (b i) x * b i r := by
    have := congrArg (fun u => u r) (b.sum_repr' x)
    simpa using this.symm
  rw [hsum, PiLp.smul_apply, smul_eq_mul, hexpand, Finset.mul_sum]
  exact Finset.sum_congr rfl fun i _ => by rw [heig i, mul_assoc]

end Symmetric

noncomputable def mapExactly (a : Matrix ℝ) (f : ℝ → ℝ) : Matrix ℝ :=
  match h : a.shape with
  | .packed m => Matrix.ofFn (.packed m)
      (mapCoeff (isSymmetric_linearOf (m := m) (Matrix.entry_comm h)) f)
  | .general _ _ => a

/-- Needs no room for the work. -/
@[reducible] noncomputable def Spectral.exact : Spectral ℝ where
  workSize _ := 0
  mapEigIn a _ f work := (mapExactly a f, work)
  shape_mapEigIn a _ f _ := by
    show (mapExactly a f).shape = a.shape
    unfold mapExactly
    split
    · rename_i h
      exact h.symm
    · rfl
  mapEigIn_congr _ _ _ _ _ := rfl

theorem entry_mapEig_exact {m : ℕ} {a : Matrix ℝ} (ha : a.shape = .packed m) (eps : ℝ)
    (f : ℝ → ℝ) {r c : ℕ} (hr : r < m) (hc : c < m) :
    (@Spectral.mapEig ℝ _ .exact a eps f).entry r c =
      mapCoeff (isSymmetric_linearOf (m := m) (Matrix.entry_comm ha)) f r c := by
  obtain ⟨shape, entries, hs⟩ := a
  cases ha
  exact Matrix.entry_ofFn_packed (mapCoeff_comm _ f r c) hr hc

theorem exactSpectrum_exact : @ExactSpectrum Spectral.exact := by
  intro m a ha eps f e x hx
  have hsame : linearOf m m (@Spectral.mapEig ℝ _ .exact a eps f).entry x =
      linearOf m m (mapCoeff (isSymmetric_linearOf (m := m) (Matrix.entry_comm ha)) f) x := by
    ext r
    rw [linearOf_apply, linearOf_apply]
    exact Finset.sum_congr rfl fun c _ => by rw [entry_mapEig_exact ha eps f r.isLt c.isLt]
  rw [hsame]
  exact linearOf_mapCoeff _ f hx

end Splitting
