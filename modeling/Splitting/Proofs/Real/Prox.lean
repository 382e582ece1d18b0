import Splitting.Proofs.Real.Vector
import Splitting.Proofs.Safety
import Splitting.Prox.AbsSum

/-!
# Proximal operators in exact arithmetic

The inequality that tells a proximal point makes the operator firmly nonexpansive. The operator of
the sum of magnitudes has it.
-/

namespace Splitting

namespace Prox

variable {σ : Type}

/-- Every answer `x` of the operator at `v` satisfies `f z ≥ f x + ⟨(v - x) / t, z - x⟩`. -/
structure IsProxOf (q : Prox σ ℝ) (f : Array ℝ → WithTop ℝ) : Prop where
  ge : ∀ t v w x w', 0 < t → v.size = q.dim → q.eval t v w = .ok x w' → x.size = q.dim →
    ∀ z, z.size = q.dim →
      f x + (inner ℝ ((1 / t) • (vec q.dim v - vec q.dim x)) (vec q.dim z - vec q.dim x) : ℝ) ≤ f z

/-- Answers of the operator differ by no more than the points do along them. -/
structure FirmlyNonexpansive (q : Prox σ ℝ) (t : ℝ) : Prop where
  le : ∀ v v' w w' x x' u u', v.size = q.dim → v'.size = q.dim →
    q.eval t v w = .ok x u → q.eval t v' w' = .ok x' u' →
      inner ℝ (vec q.dim x - vec q.dim x') (vec q.dim x - vec q.dim x') ≤
        inner ℝ (vec q.dim x - vec q.dim x') (vec q.dim v - vec q.dim v')

/-- The cost of which a proximal point is the least value grows with the square of the distance. -/
theorem IsProxOf.growth {q : Prox σ ℝ} {f : Array ℝ → ℝ}
    (h : q.IsProxOf fun x => (f x : WithTop ℝ)) {t : ℝ} (ht : 0 < t) {v x z : Array ℝ}
    {w w' : World σ ℝ} (hv : v.size = q.dim) (he : q.eval t v w = .ok x w') (hx : x.size = q.dim)
    (hz : z.size = q.dim) :
    t * f x + ‖vec q.dim x - vec q.dim v‖ ^ 2 / 2 + ‖vec q.dim z - vec q.dim x‖ ^ 2 / 2 ≤
      t * f z + ‖vec q.dim z - vec q.dim v‖ ^ 2 / 2 := by
  have hge := h.ge t v w x w' ht hv he hx z hz
  rw [← WithTop.coe_add, WithTop.coe_le_coe, real_inner_smul_left] at hge
  have hscaled := mul_le_mul_of_nonneg_left hge ht.le
  rw [mul_add, ← mul_assoc, mul_one_div_cancel ht.ne', one_mul] at hscaled
  have hsplit : ‖vec q.dim z - vec q.dim v‖ ^ 2 = ‖vec q.dim z - vec q.dim x‖ ^ 2 -
      2 * inner ℝ (vec q.dim v - vec q.dim x) (vec q.dim z - vec q.dim x) +
        ‖vec q.dim x - vec q.dim v‖ ^ 2 := by
    rw [← sub_sub_sub_cancel_right (vec q.dim z) _ (vec q.dim x), norm_sub_sq_real,
      real_inner_comm, norm_sub_rev (vec q.dim v)]
  linarith

theorem IsProxOf.firmlyNonexpansive {q : Prox σ ℝ} {f : Array ℝ → ℝ}
    (h : q.IsProxOf fun x => (f x : WithTop ℝ)) {t : ℝ} (ht : 0 < t) (hq : q.Total t) :
    q.FirmlyNonexpansive t := by
  refine ⟨fun v v' w w' x x' u u' hv hv' he he' => ?_⟩
  have hx : x.size = q.dim := hq.sound.size v w x u hv he
  have hx' : x'.size = q.dim := hq.sound.size v' w' x' u' hv' he'
  have h₁ := h.ge t v w x u ht hv he hx x' hx'
  have h₂ := h.ge t v' w' x' u' ht hv' he' hx' x hx
  rw [← WithTop.coe_add, WithTop.coe_le_coe, real_inner_smul_left] at h₁ h₂
  set a := vec q.dim x
  set b := vec q.dim x'
  have hsum : 1 / t * (inner ℝ (vec q.dim v - a) (b - a) + inner ℝ (vec q.dim v' - b) (a - b)) ≤
      0 := by
    rw [mul_add]
    linarith
  have hsplit : inner ℝ (vec q.dim v - a) (b - a) + inner ℝ (vec q.dim v' - b) (a - b) =
      inner ℝ (a - b) (a - b) - inner ℝ (a - b) (vec q.dim v - vec q.dim v') := by
    rw [real_inner_comm, real_inner_comm (a - b)]
    simp only [inner_sub_left, inner_sub_right]
    ring
  rw [hsplit] at hsum
  have hpos : 0 < 1 / t := one_div_pos.mpr ht
  linarith [nonpos_of_mul_nonpos_right hsum hpos]

end Prox

/-! ## The sum of magnitudes -/

namespace AbsSum

variable {σ : Type}

theorem shrink_eq (thr v : ℝ) :
    shrink thr v = if v < 0 then -max (|v| - thr) 0 else max (|v| - thr) 0 := rfl

theorem shrink_eq_zero_iff {thr v : ℝ} : shrink thr v = 0 ↔ |v| ≤ thr := by
  rw [shrink_eq]
  split
  · rw [neg_eq_zero, max_eq_right_iff, sub_nonpos]
  · rw [max_eq_right_iff, sub_nonpos]

theorem eq_add_of_shrink_pos {thr v : ℝ} (h : 0 < shrink thr v) : v = shrink thr v + thr := by
  rw [shrink_eq] at h ⊢
  split at h
  · have := le_max_right (|v| - thr) 0
    linarith
  · rename_i hv
    rcases lt_max_iff.mp h with hlarge | hzero
    · rw [if_neg hv, max_eq_left hlarge.le, abs_of_nonneg (not_lt.mp hv)]
      ring
    · exact absurd hzero (lt_irrefl 0)

theorem shrink_add {thr s : ℝ} (hs : 0 ≤ s) (h : 0 ≤ thr) : shrink thr (s + thr) = s := by
  have hsum : 0 ≤ s + thr := add_nonneg hs h
  rw [shrink_eq, if_neg (not_lt.mpr hsum), abs_of_nonneg hsum, add_sub_cancel_right,
    max_eq_left hs]

theorem shrink_le {thr : ℝ} (h : 0 ≤ thr) (v z : ℝ) :
    thr * |shrink thr v| + (v - shrink thr v) * (z - shrink thr v) ≤ thr * |z| := by
  have hz : thr * -|z| ≤ thr * z := mul_le_mul_of_nonneg_left (neg_abs_le z) h
  have hz' : thr * z ≤ thr * |z| := mul_le_mul_of_nonneg_left (le_abs_self z) h
  have hshrink := shrink_eq thr v
  rcases le_total (|v| - thr) 0 with hsmall | hlarge
  · have hzero : shrink thr v = 0 := by
      rw [hshrink, max_eq_right hsmall, neg_zero, ite_self]
    have hprod : v * z ≤ thr * |z| := calc
      v * z ≤ |v * z| := le_abs_self _
      _ = |v| * |z| := abs_mul v z
      _ ≤ thr * |z| := mul_le_mul_of_nonneg_right (by linarith) (abs_nonneg z)
    rw [hzero, abs_zero]
    linarith
  · rw [max_eq_left hlarge] at hshrink
    rcases lt_or_ge v 0 with hneg | hpos
    · rw [if_pos hneg, abs_of_neg hneg] at hshrink
      rw [abs_of_neg hneg] at hlarge
      have hx : shrink thr v = v + thr := by rw [hshrink]; ring
      rw [hx, abs_of_nonpos (by linarith)]
      linarith
    · rw [if_neg (not_lt.mpr hpos), abs_of_nonneg hpos] at hshrink
      rw [abs_of_nonneg hpos] at hlarge
      rw [hshrink, abs_of_nonneg hlarge]
      linarith

noncomputable def value (n : ℕ) (alpha : ℝ) (x : Array ℝ) : ℝ :=
  alpha * ∑ i ∈ Finset.range n, |x.getD i 0|

theorem getD_map_shrink (thr : ℝ) {v : Array ℝ} {i : ℕ} (hi : i < v.size) :
    (v.map (shrink thr)).getD i 0 = shrink thr (v.getD i 0) := by
  rw [getD_of_lt (by simpa using hi), getD_of_lt hi]
  exact Array.getElem_map ..

theorem isProxOf {alpha : ℝ} (h : 0 ≤ alpha) (n : ℕ) :
    (prox n alpha : Prox σ ℝ).IsProxOf fun x => (value n alpha x : WithTop ℝ) := by
  refine ⟨fun t v w x w' ht hv he _ z _ => ?_⟩
  change v.size = n at hv
  cases he
  rw [← WithTop.coe_add, WithTop.coe_le_coe]
  show value n alpha _ + inner ℝ ((1 / t) • (vec n v - vec n _)) (vec n z - vec n _) ≤ _
  rw [real_inner_smul_left, inner_sub_sub]
  unfold value
  rw [Finset.mul_sum, Finset.mul_sum, Finset.mul_sum, ← Finset.sum_add_distrib]
  refine Finset.sum_le_sum fun i hi => ?_
  have hi : i < v.size := by rw [hv]; exact Finset.mem_range.mp hi
  rw [getD_map_shrink _ hi]
  have hle := shrink_le (mul_nonneg ht.le h) (v.getD i 0) (z.getD i 0)
  have hscaled := mul_le_mul_of_nonneg_left hle (one_div_pos.mpr ht).le
  have hcancel : ∀ a, 1 / t * (t * alpha * a) = alpha * a := fun a => by
    rw [mul_assoc, ← mul_assoc, one_div_mul_cancel ht.ne', one_mul]
  rw [mul_add, hcancel, hcancel] at hscaled
  exact hscaled

theorem firmlyNonexpansive {alpha t : ℝ} (h : 0 ≤ alpha) (ht : 0 < t) (n : ℕ) :
    (prox n alpha : Prox σ ℝ).FirmlyNonexpansive t :=
  (isProxOf h n).firmlyNonexpansive ht (prox_total n alpha t)

/-- The cost of which an answer at `v` is the least value. -/
noncomputable def cost {n : ℕ} (alpha t : ℝ) (v z : EuclideanSpace ℝ (Fin n)) : ℝ :=
  t * alpha * ∑ i, |z i| + ‖z - v‖ ^ 2 / (2 : ℕ)

theorem cost_vec (n : ℕ) (alpha t : ℝ) (v : EuclideanSpace ℝ (Fin n)) (z : Array ℝ) :
    cost alpha t v (vec n z) = t * value n alpha z + ‖vec n z - v‖ ^ 2 / 2 := by
  rw [cost, value, Finset.sum_range, mul_assoc, Nat.cast_ofNat]
  rfl

/-- The answer is the one vector of the least cost, and answers are firmly nonexpansive. -/
theorem least_and_firm {alpha t : ℝ} (halpha : 0 ≤ alpha) (ht : 0 < t) (n : ℕ) :
    ∃ p : Prox σ ℝ, prox? n alpha = some p ∧ p.dim = n ∧
      (∀ v w, v.size = n → ∃ x, p.apply t v n w = .ok x w ∧ x.size = n ∧
        ∀ z, z ≠ vec n x → cost alpha t (vec n v) (vec n x) < cost alpha t (vec n v) z) ∧
      ∀ v v' w w' x x' u u', v.size = n → v'.size = n →
        p.apply t v n w = .ok x u → p.apply t v' n w' = .ok x' u' →
        ‖vec n x - vec n x'‖ ^ 2 ≤ inner ℝ (vec n x - vec n x') (vec n v - vec n v') := by
  refine ⟨prox n alpha, if_pos halpha, rfl, fun v w hv => ?_,
    fun v v' w w' x x' u u' hv hv' hx hx' => ?_⟩
  · have he : (prox n alpha).eval t v w = .ok (v.map (shrink (t * alpha))) w := rfl
    have hx : (v.map (shrink (t * alpha))).size = n := by rw [Array.size_map, hv]
    refine ⟨_, Solver.apply_eq_ok.mpr ⟨hv, rfl, he, hx⟩, hx, fun z hz => ?_⟩
    obtain ⟨z, hzsize, rfl⟩ := exists_vec_eq z
    have hgrowth := (isProxOf halpha n).growth ht hv he hx hzsize
    have hapart : 0 < ‖vec n z - vec n (v.map (shrink (t * alpha)))‖ :=
      norm_pos_iff.mpr (sub_ne_zero.mpr hz)
    rw [cost_vec, cost_vec]
    exact (lt_add_of_pos_right _ (half_pos (pow_pos hapart 2))).trans_le hgrowth
  · obtain ⟨-, -, he, -⟩ := Solver.apply_eq_ok.mp hx
    obtain ⟨-, -, he', -⟩ := Solver.apply_eq_ok.mp hx'
    have hfirm := (firmlyNonexpansive halpha ht n).le v v' w w' x x' u u' hv hv' he he'
    rwa [real_inner_self_eq_norm_sq] at hfirm

theorem pair_least_and_firm :
    (0 : ℝ) ≤ 1 ∧ (0 : ℝ) < 2 ∧ ∃ p : Prox Unit ℝ, prox? 2 1 = some p ∧
      p.apply 2 #[3, -1] 2 (.start () none) = .ok #[1, 0] (.start () none) ∧
      (∀ z, z ≠ vec 2 #[1, 0] → cost 1 2 (vec 2 #[3, -1]) (vec 2 #[1, 0]) <
        cost 1 2 (vec 2 #[3, -1]) z) ∧
      p.apply 2 #[-3, 5] 2 (.start () none) = .ok #[-1, 3] (.start () none) ∧
      ‖vec 2 #[1, 0] - vec 2 #[-1, 3]‖ ^ 2 ≤
        inner ℝ (vec 2 #[1, 0] - vec 2 #[-1, 3]) (vec 2 #[3, -1] - vec 2 #[-3, 5]) := by
  obtain ⟨p, hp, -, hleast, hfirm⟩ :=
    least_and_firm (σ := Unit) (zero_le_one : (0 : ℝ) ≤ 1) (two_pos : (0 : ℝ) < 2) 2
  have hmoved : (#[3, -1] : Array ℝ).map (shrink (2 * 1)) = #[1, 0] := by
    norm_num [shrink_eq]
  have hmoved' : (#[-3, 5] : Array ℝ).map (shrink (2 * 1)) = #[-1, 3] := by
    norm_num [shrink_eq]
  obtain rfl : prox 2 1 = p := Option.some.inj ((if_pos zero_le_one).symm.trans hp)
  obtain ⟨x, hx, -, hunique⟩ := hleast #[3, -1] (.start () none) rfl
  obtain ⟨x', hx', -⟩ := hleast #[-3, 5] (.start () none) rfl
  obtain ⟨-, -, he, -⟩ := Solver.apply_eq_ok.mp hx
  obtain ⟨-, -, he', -⟩ := Solver.apply_eq_ok.mp hx'
  have heval (v : Array ℝ) (w : World Unit ℝ) :
      (prox 2 1).eval 2 v w = .ok (v.map (shrink (2 * 1))) w := rfl
  rw [heval, hmoved] at he
  rw [heval, hmoved'] at he'
  cases he
  cases he'
  exact ⟨zero_le_one, two_pos, _, hp, hx, hunique, hx', hfirm _ _ _ _ _ _ _ _ rfl rfl hx hx'⟩

end AbsSum

end Splitting
