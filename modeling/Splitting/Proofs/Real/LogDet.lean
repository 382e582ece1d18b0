import Splitting.Proofs.Real.Spectrum
import Splitting.Prox.LogDet

/-!
# The log-determinant block in exact arithmetic

The matrix `S` that the block answers for `W` solves `S² - W S = t`, and its eigenvalues are
positive. So `S` is diagonal exactly where `W` is, and then the entries of the two belong together
in the same way as their eigenvalues.
-/

namespace Splitting

/-! ## Diagonal matrices -/

def IsDiagonal (m : ℕ) (a : ℕ → ℕ → ℝ) : Prop := ∀ r < m, ∀ c < m, r ≠ c → a r c = 0

theorem linearOf_single {m : ℕ} (a : ℕ → ℕ → ℝ) (c r : Fin m) :
    linearOf m m a (EuclideanSpace.single c 1) r = a r c := by
  rw [linearOf_apply, Finset.sum_eq_single_of_mem c (Finset.mem_univ c)]
  · simp
  · intro i _ hi
    simp [hi]

theorem IsDiagonal.linearOf_single_eq {m : ℕ} {a : ℕ → ℕ → ℝ} (h : IsDiagonal m a) (c : Fin m) :
    linearOf m m a (EuclideanSpace.single c 1) = a c c • EuclideanSpace.single c 1 := by
  ext r
  rw [linearOf_single, PiLp.smul_apply, smul_eq_mul]
  rcases eq_or_ne r c with rfl | hrc
  · simp
  · rw [h r r.isLt c c.isLt (Fin.val_ne_of_ne hrc)]
    simp [hrc]

namespace LogDet

/-! ## The eigenvalues of the answer -/

theorem root_real (t e : ℝ) : root t e =
    if 0 ≤ e then (e + √(e * e + 4 * t)) / 2 else 2 * t / (√(e * e + 4 * t) - e) := by
  have htwo : (Scalar.two : ℝ) = 2 := one_add_one_eq_two
  have hfour : (2 + 2 : ℝ) = 4 := by norm_num
  unfold root
  rw [htwo, hfour]
  rfl

theorem root_spec {t : ℝ} (ht : 0 < t) (e : ℝ) :
    0 < root t e ∧ root t e * root t e - e * root t e = t := by
  have hpos : 0 < e * e + 4 * t := by nlinarith [mul_self_nonneg e]
  have hsq := Real.mul_self_sqrt hpos.le
  have hd := Real.sqrt_pos.mpr hpos
  rw [root_real]
  generalize √(e * e + 4 * t) = d at hsq hd
  by_cases he : 0 ≤ e
  · simp only [if_pos he]
    exact ⟨by linarith, by linear_combination hsq / 4⟩
  · simp only [if_neg he]
    have hgap : 0 < d - e := by linarith
    refine ⟨by positivity, ?_⟩
    field_simp
    linear_combination -hsq

/-- The answer is the only positive solution. -/
theorem root_eq {t e s : ℝ} (hs : 0 < s) (h : s * s - e * s = t) (ht : 0 < t) : root t e = s := by
  obtain ⟨hpos, hroot⟩ := root_spec ht e
  have hgap : 0 < root t e - e := by
    have : 0 < (root t e - e) * root t e := by linarith
    exact pos_of_mul_pos_left this hpos.le
  have hprod : (root t e - s) * (root t e + s - e) = 0 := by linear_combination hroot - h
  rcases mul_eq_zero.mp hprod with hzero | hzero
  · linarith
  · linarith

/-! ## The answer -/

section Image

variable [Spectral ℝ] (hexact : ExactSpectrum) {m : ℕ} {w : Matrix ℝ} (hw : w.shape = .packed m)
  {t : ℝ} (ht : 0 < t) (eps : ℝ)

include hexact hw ht

theorem image_equation (x : EuclideanSpace ℝ (Fin m)) :
    linearOf m m (Spectral.mapEig w eps (root t)).entry
        (linearOf m m (Spectral.mapEig w eps (root t)).entry x) -
      linearOf m m w.entry (linearOf m m (Spectral.mapEig w eps (root t)).entry x) = t • x := by
  set s := linearOf m m (Spectral.mapEig w eps (root t)).entry
  have hsymm : (linearOf m m w.entry).IsSymmetric := isSymmetric_linearOf (Matrix.entry_comm hw)
  set b := hsymm.eigenvectorBasis finrank_euclideanSpace_fin
  set e := hsymm.eigenvalues finrank_euclideanSpace_fin
  have hb : ∀ i, linearOf m m w.entry (b i) = e i • b i :=
    fun i => hsymm.apply_eigenvectorBasis finrank_euclideanSpace_fin i
  have hs : ∀ i, s (b i) = root t (e i) • b i := fun i => hexact m w hw eps _ _ _ (hb i)
  have hmaps : s ∘ₗ s - linearOf m m w.entry ∘ₗ s = t • LinearMap.id := by
    refine b.toBasis.ext fun i => ?_
    simp only [OrthonormalBasis.coe_toBasis, LinearMap.sub_apply, LinearMap.comp_apply, hs, hb,
      map_smul, smul_smul, LinearMap.smul_apply, LinearMap.id_apply]
    rw [← sub_smul]
    congr 1
    linear_combination (root_spec ht (e i)).2
  exact LinearMap.congr_fun hmaps x

theorem isDiagonal_of_image
    (h : IsDiagonal m (Spectral.mapEig w eps (root t)).entry) : IsDiagonal m w.entry := by
  intro r hr c hc hrc
  have heq := image_equation hexact hw ht eps (EuclideanSpace.single ⟨c, hc⟩ 1)
  rw [h.linearOf_single_eq ⟨c, hc⟩, map_smul, map_smul, h.linearOf_single_eq ⟨c, hc⟩] at heq
  generalize (Spectral.mapEig w eps (root t)).entry c c = d at heq
  have hentry : ∀ i : Fin m, d * (d * EuclideanSpace.single (⟨c, hc⟩ : Fin m) (1 : ℝ) i) -
      d * w.entry i c = t * EuclideanSpace.single (⟨c, hc⟩ : Fin m) (1 : ℝ) i := by
    intro i
    have hi := congrArg (fun u => u i) heq
    simp only [PiLp.sub_apply, PiLp.smul_apply, smul_eq_mul, linearOf_single] at hi
    exact hi
  have hdiag : d * (d - w.entry c c) = t := by
    have hc' := hentry ⟨c, hc⟩
    simp only [PiLp.single_apply, if_true] at hc'
    linarith
  have hne : d ≠ 0 := fun h0 => by
    rw [h0, zero_mul] at hdiag
    exact ht.ne hdiag
  have hoff := hentry ⟨r, hr⟩
  have hneq : (⟨r, hr⟩ : Fin m) ≠ ⟨c, hc⟩ := fun he => hrc (Fin.val_eq_of_eq he)
  simp only [PiLp.single_apply, if_neg hneq, mul_zero, zero_sub, neg_eq_zero] at hoff
  exact (mul_eq_zero.mp hoff).resolve_left hne

omit ht in
theorem entry_image_of_isDiagonal (h : IsDiagonal m w.entry) {r c : ℕ} (hr : r < m) (hc : c < m) :
    (Spectral.mapEig w eps (root t)).entry r c = if r = c then root t (w.entry c c) else 0 := by
  have hcol := hexact m w hw eps (root t) _ _ (h.linearOf_single_eq ⟨c, hc⟩)
  have hentry := congrArg (fun u => u ⟨r, hr⟩) hcol
  simp only [linearOf_single, PiLp.smul_apply, smul_eq_mul, PiLp.single_apply, Fin.mk.injEq]
    at hentry
  rw [hentry]
  split <;> simp

end Image

end LogDet

end Splitting
