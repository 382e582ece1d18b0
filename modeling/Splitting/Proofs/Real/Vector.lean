import Mathlib
import Splitting.Vec

/-!
# Exact arithmetic

Read over the real numbers, the kernels are the operations of a Euclidean space.
-/

namespace Splitting

noncomputable instance : Scalar ℝ where
  toZero := inferInstance
  toOne := inferInstance
  toAdd := inferInstance
  toSub := inferInstance
  toMul := inferInstance
  toDiv := inferInstance
  toNeg := inferInstance
  toLE := inferInstance
  toLT := inferInstance
  beq a b := decide (a = b)
  toOfScientific := inferInstance
  decLe := inferInstance
  decLt := inferInstance
  ofNat n := n
  sqrt := Real.sqrt
  abs x := |x|
  pow := Real.rpow
  maxNum := max
  isFinite _ := true

/-- The vector of the first `n` entries. -/
noncomputable def vec (n : ℕ) (x : Array ℝ) : EuclideanSpace ℝ (Fin n) :=
  WithLp.toLp 2 fun i => x.getD i 0

@[simp] theorem vec_apply (n : ℕ) (x : Array ℝ) (i : Fin n) : vec n x i = x.getD i 0 := rfl

theorem getD_of_lt {x : Array ℝ} {i : ℕ} (h : i < x.size) : x.getD i 0 = x[i] := by
  simp [Array.getD, h]

theorem getD_of_le {x : Array ℝ} {i : ℕ} (h : x.size ≤ i) : x.getD i 0 = 0 := by
  simp [Array.getD, Nat.not_lt.mpr h]

theorem getD_push_size {α : Type} {x : Array α} {n : ℕ} (h : x.size = n) (e d : α) :
    (x.push e).getD n d = e := by
  subst h
  simp [Array.getD]

theorem getD_append_left {x y : Array ℝ} {i : ℕ} (h : i < x.size) :
    (x ++ y).getD i 0 = x.getD i 0 := by
  rw [getD_of_lt (by simp; omega), getD_of_lt h]
  exact Array.getElem_append_left ..

theorem getD_append_right (x y : Array ℝ) (i : ℕ) : (x ++ y).getD (x.size + i) 0 = y.getD i 0 := by
  rcases Nat.lt_or_ge i y.size with h | h
  · rw [getD_of_lt (by simp; omega), getD_of_lt h, Array.getElem_append_right (by omega)]
    simp only [Nat.add_sub_cancel_left]
  · rw [getD_of_le (by simp; omega), getD_of_le h]

theorem vec_ext {n : ℕ} {x : Array ℝ} {u : EuclideanSpace ℝ (Fin n)}
    (h : ∀ i : Fin n, x.getD i 0 = u i) : vec n x = u := by
  ext i
  exact h i

theorem exists_vec_eq {n : ℕ} (u : EuclideanSpace ℝ (Fin n)) : ∃ x, x.size = n ∧ vec n x = u :=
  ⟨Array.ofFn u, Array.size_ofFn, vec_ext fun i => by simp [Array.getD]⟩

theorem eq_of_vec_eq {n : ℕ} {x y : Array ℝ} (hx : x.size = n) (hy : y.size = n)
    (h : vec n x = vec n y) : x = y := by
  refine Array.ext (by omega) fun i hi hi' => ?_
  have hc : vec n x ⟨i, by omega⟩ = vec n y ⟨i, by omega⟩ := by rw [h]
  rwa [vec_apply, vec_apply, getD_of_lt hi, getD_of_lt hi'] at hc

theorem vec_scale (n : ℕ) (a : ℝ) (x : Array ℝ) : vec n (Vec.scale a x) = a • vec n x := by
  refine vec_ext fun i => ?_
  rw [PiLp.smul_apply, vec_apply, smul_eq_mul]
  rcases Nat.lt_or_ge i x.size with h | h
  · rw [getD_of_lt (by simpa using h), getD_of_lt h]
    exact Array.getElem_map ..
  · rw [getD_of_le (by simpa using h), getD_of_le h, mul_zero]

theorem vec_addScaled? {a : ℝ} {x y z : Array ℝ} (h : Vec.addScaled? a x y = some z) (n : ℕ) :
    vec n z = vec n y + a • vec n x := by
  have hsize := (Vec.addScaled?_isSome_iff a x y).mp (Option.isSome_of_eq_some h)
  have hz := Vec.size_of_addScaled? h
  unfold Vec.addScaled? at h
  rw [if_pos hsize] at h
  cases h
  refine vec_ext fun i => ?_
  rw [PiLp.add_apply, PiLp.smul_apply, vec_apply, vec_apply, smul_eq_mul]
  rcases Nat.lt_or_ge i y.size with hi | hi
  · rw [getD_of_lt (by omega), getD_of_lt hi, getD_of_lt (by omega)]
    exact Array.getElem_zipWith ..
  · rw [getD_of_le (by omega), getD_of_le hi, getD_of_le (by omega), mul_zero, add_zero]

theorem vec_sub? {x y z : Array ℝ} (h : Vec.sub? y x = some z) (n : ℕ) :
    vec n z = vec n y - vec n x := by
  rw [vec_addScaled? h]
  have : (-1 : ℝ) • vec n x = -vec n x := neg_one_smul ℝ _
  exact (congrArg _ this).trans (sub_eq_add_neg ..).symm

theorem foldl_add_sq (x : List ℝ) (s : ℝ) :
    x.foldl (fun s e => s + e * e) s = s + (x.map fun e => e ^ 2).sum := by
  induction x generalizing s with
  | nil => simp
  | cons e x ih =>
    rw [List.foldl_cons, ih, List.map_cons, List.sum_cons]
    ring

theorem norm_eq {n : ℕ} {x : Array ℝ} (h : x.size = n) : Vec.norm x = ‖vec n x‖ := by
  subst h
  have hsum : x.foldl (fun s e => s + e * e) 0 = ∑ i : Fin x.size, x.getD i 0 ^ 2 := by
    rw [← Array.foldl_toList, foldl_add_sq, zero_add, ← Fin.sum_univ_fun_getElem]
    refine Finset.sum_congr rfl fun i _ => ?_
    rw [getD_of_lt i.isLt]
    rfl
  rw [EuclideanSpace.norm_eq]
  show Real.sqrt _ = _
  congr 1
  refine Eq.trans hsum (Finset.sum_congr rfl fun i _ => ?_)
  rw [vec_apply, Real.norm_eq_abs, sq_abs]

/-! ## Linear maps -/

noncomputable def linearOf (n m : ℕ) (a : ℕ → ℕ → ℝ) :
    EuclideanSpace ℝ (Fin n) →ₗ[ℝ] EuclideanSpace ℝ (Fin m) where
  toFun x := WithLp.toLp 2 fun r => ∑ c : Fin n, a r c * x c
  map_add' x y := by
    ext r
    simp [mul_add, Finset.sum_add_distrib]
  map_smul' t x := by
    ext r
    simp only [PiLp.smul_apply, smul_eq_mul, RingHom.id_apply, Finset.mul_sum]
    exact Finset.sum_congr rfl fun c _ => by ring

theorem linearOf_apply (n m : ℕ) (a : ℕ → ℕ → ℝ) (x : EuclideanSpace ℝ (Fin n)) (r : Fin m) :
    linearOf n m a x r = ∑ c : Fin n, a r c * x c := rfl

theorem linearOf_vec (n m : ℕ) (a : ℕ → ℕ → ℝ) (x : Array ℝ) (r : Fin m) :
    linearOf n m a (vec n x) r = ∑ c ∈ Finset.range n, a r c * x.getD c 0 :=
  Fin.sum_univ_eq_sum_range (fun c => a r c * x.getD c 0) n

theorem inner_eq_sum {n : ℕ} (x y : EuclideanSpace ℝ (Fin n)) :
    inner ℝ x y = ∑ i, x i * y i := by
  rw [PiLp.inner_apply]
  refine Finset.sum_congr rfl fun i _ => ?_
  rw [RCLike.inner_apply, conj_trivial, mul_comm]

theorem inner_sub_sub (n : ℕ) (x y z u : Array ℝ) :
    inner ℝ (vec n x - vec n y) (vec n z - vec n u) =
      ∑ i ∈ Finset.range n, (x.getD i 0 - y.getD i 0) * (z.getD i 0 - u.getD i 0) := by
  rw [inner_eq_sum]
  exact Fin.sum_univ_eq_sum_range
    (fun i => (x.getD i 0 - y.getD i 0) * (z.getD i 0 - u.getD i 0)) n

theorem adjoint_linearOf (n m : ℕ) (a : ℕ → ℕ → ℝ) :
    LinearMap.adjoint (linearOf n m a) = linearOf m n fun c r => a r c := by
  symm
  rw [LinearMap.eq_adjoint_iff]
  intro y x
  simp only [inner_eq_sum, linearOf_apply, Finset.sum_mul, Finset.mul_sum]
  rw [Finset.sum_comm]
  exact Finset.sum_congr rfl fun r _ => Finset.sum_congr rfl fun c _ => by ring

end Splitting
