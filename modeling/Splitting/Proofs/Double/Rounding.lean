import Splitting.Proofs.Double.Packing

/-!
# Rounding

A value of 53 bits or more is rounded to one of its two neighbours with 53 bits. That is all that
is used of the rounding mode: the relative error is at most one unit in the last place.
-/

namespace Splitting.Double

open Float.Model (Format UnpackedFloat totalExponent)
open Float.Model.UnpackedFloat

/-! ## Values -/

/-- What a mantissa and an exponent stand for. -/
def value (m : Nat) (e : Int) : ℚ := m * 2 ^ e

theorem value_mul_pow (m k : Nat) (e : Int) : value (m * 2 ^ k) e = value m (e + k) := by
  simp only [value, zpow_add₀ (two_ne_zero (α := ℚ)), zpow_natCast]
  push_cast
  ring

theorem value_mul_value (m n : Nat) (e f : Int) :
    value m e * value n f = value (m * n) (e + f) := by
  unfold value
  rw [zpow_add₀ two_ne_zero]
  push_cast
  ring

theorem value_le_value {m n : Nat} {e : Int} (h : m ≤ n) : value m e ≤ value n e := by
  unfold value
  gcongr

/-- One unit in the last place, relative to a value of 53 bits. -/
def ulp : ℚ := 1 / 2 ^ 52

def Close (x y : ℚ) : Prop := x * (1 - ulp) ≤ y ∧ y ≤ x * (1 + ulp)

theorem close_value {m n k : Nat} {e : Int} (hk : 2 ^ k * 2 ^ 52 ≤ m) (hlo : m ≤ n + 2 ^ k)
    (hhi : n ≤ m + 2 ^ k) : Close (value m e) (value n e) := by
  have hpos : (0 : ℚ) < 2 ^ e := by positivity
  have hk : (2 : ℚ) ^ k * 2 ^ 52 ≤ m := by exact_mod_cast hk
  have hlo : (m : ℚ) ≤ n + 2 ^ k := by exact_mod_cast hlo
  have hhi : (n : ℚ) ≤ m + 2 ^ k := by exact_mod_cast hhi
  have hunit : (2 : ℚ) ^ k ≤ m * ulp := by
    rw [ulp, mul_one_div, le_div_iff₀ (by positivity)]
    exact hk
  unfold Close value
  constructor
  · have : (m : ℚ) * (1 - ulp) ≤ n := by linarith
    nlinarith
  · have : (n : ℚ) ≤ m * (1 + ulp) := by linarith
    nlinarith

/-! ## Shifting -/

theorem targetExponent_eq (t : Int) : Format.binary64.targetExponent t = max (t - 53) (-1074) := rfl

theorem mantissa_shiftRight (em : ExtendedMantissa) (k : Nat) :
    (em >>> k).mantissa = em.mantissa / 2 ^ k := by
  induction k with
  | zero => simp [HShiftRight.hShiftRight, Nat.repeat]
  | succ k ih =>
    have hstep : (em >>> (k + 1)).mantissa = (em >>> k).mantissa / 2 := rfl
    rw [hstep, ih, Nat.div_div_eq_div_mul, Nat.pow_succ]

theorem mantissa_ofMantissaAndAccuracy (m : Nat) (acc : Accuracy) :
    (ExtendedMantissa.ofMantissaAndAccuracy m acc).mantissa = m := by
  cases acc with
  | exact => rfl
  | inexact o => cases o <;> rfl

theorem roundedMantissa_cases (em : ExtendedMantissa) :
    em.roundedMantissa = em.mantissa ∨ em.roundedMantissa = em.mantissa + 1 := by
  unfold ExtendedMantissa.roundedMantissa
  cases em.accuracy with
  | exact => exact Or.inl rfl
  | inexact o =>
    cases o with
    | lt => exact Or.inl rfl
    | gt => exact Or.inr rfl
    | eq =>
      show em.mantissa + em.mantissa % 2 = _ ∨ em.mantissa + em.mantissa % 2 = _
      omega

theorem shiftToTargetExponent_eq {m k : Nat} {e : Int} (hlog : m.log2 = 52 + k) (he : -1074 ≤ e)
    (acc : Accuracy) :
    (shiftToTargetExponent .binary64 m e acc).1.mantissa = m / 2 ^ k ∧
      (shiftToTargetExponent .binary64 m e acc).2 = e + k := by
  have hk : (Format.binary64.targetExponent (totalExponent m e) - e).toNat = k := by
    rw [targetExponent_eq, totalExponent, hlog]
    omega
  unfold shiftToTargetExponent shiftToExponent
  simp only [hk, mantissa_shiftRight, mantissa_ofMantissaAndAccuracy, and_self]

theorem log2_eq {m k : Nat} (hlo : 2 ^ k ≤ m) (hhi : m < 2 ^ (k + 1)) : m.log2 = k := by
  have hm : m ≠ 0 := by
    have := Nat.two_pow_pos k
    omega
  have := (Nat.le_log2 hm).mpr hlo
  have := (Nat.log2_lt hm).mpr hhi
  omega

/-! ## Rounding -/

theorem roundWithAccuracy_close {m k : Nat} {e : Int} (hlo : 2 ^ (52 + k) ≤ m)
    (hhi : m < 2 ^ (53 + k)) (he : -1074 ≤ e) (s : Sign) (acc : Accuracy) :
    ∃ M E hM, roundWithAccuracy .binary64 s m e acc = .finite s M E hM ∧ 2 ^ 52 ≤ M ∧
      M < 2 ^ 53 ∧ e + k ≤ E ∧ E ≤ e + k + 1 ∧ Close (value m e) (value M E) := by
  obtain ⟨hmant, hexp⟩ := shiftToTargetExponent_eq
    (log2_eq hlo (by rw [show 52 + k + 1 = 53 + k by omega]; exact hhi)) he acc
  generalize hc : (shiftToTargetExponent .binary64 m e acc).1.roundedMantissa = c
  have hcases := roundedMantissa_cases (shiftToTargetExponent .binary64 m e acc).1
  rw [hc, hmant] at hcases
  have hquot : 2 ^ 52 ≤ m / 2 ^ k ∧ m / 2 ^ k < 2 ^ 53 := by
    rw [Nat.le_div_iff_mul_le (Nat.two_pow_pos k), Nat.div_lt_iff_lt_mul (Nat.two_pow_pos k),
      ← Nat.pow_add, ← Nat.pow_add]
    exact ⟨hlo, hhi⟩
  have hclose : Close (value m e) (value c (e + k)) := by
    rw [← value_mul_pow]
    have hbelow := Nat.div_mul_le_self m (2 ^ k)
    have habove := Nat.lt_div_mul_add (a := m) (Nat.two_pow_pos k)
    have hunits : c * 2 ^ k = m / 2 ^ k * 2 ^ k ∨ c * 2 ^ k = m / 2 ^ k * 2 ^ k + 2 ^ k := by
      rcases hcases with rfl | rfl
      · exact Or.inl rfl
      · exact Or.inr (Nat.succ_mul ..)
    exact close_value (by rw [← Nat.pow_add, Nat.add_comm]; exact hlo) (by omega) (by omega)
  -- rounding up may have made the mantissa one place longer
  obtain ⟨j, hj, hlog, hdiv, hfull⟩ : ∃ j, j ≤ 1 ∧ c.log2 = 52 + j ∧ c / 2 ^ j * 2 ^ j = c ∧
      2 ^ 52 ≤ c / 2 ^ j ∧ c / 2 ^ j < 2 ^ 53 := by
    by_cases hover : c = 2 ^ 53
    · refine ⟨1, Nat.le_refl 1, ?_⟩
      rw [hover]
      decide
    · refine ⟨0, Nat.zero_le 1, log2_eq ?_ ?_, ?_, ?_⟩ <;> simp <;> omega
  obtain ⟨hmant', hexp'⟩ := shiftToTargetExponent_eq hlog (show -1074 ≤ e + k by omega) .exact
  have hpos : 0 < c / 2 ^ j := by omega
  refine ⟨c / 2 ^ j, e + k + j, hpos, ?_, hfull.1, hfull.2, by omega, by omega, ?_⟩
  · unfold roundWithAccuracy
    dsimp only
    rw [hc, hexp]
    simp only [hmant', hexp']
    rw [dif_neg (Nat.ne_of_gt hpos)]
  · rwa [← value_mul_pow, hdiv]

/-! ## Integers -/

theorem ofNat_close {n : Nat} (hpos : 0 < n) (hn : n < 2 ^ 64) :
    ∃ M E hM, UnpackedFloat.ofNat .binary64 n = .finite .positive M E hM ∧ 2 ^ 52 ≤ M ∧
      M < 2 ^ 53 ∧ -52 ≤ E ∧ E ≤ 12 ∧ Close n (value M E) := by
  have hlo := Nat.log2_self_le (Nat.ne_of_gt hpos)
  have hhi := Nat.lt_log2_self (n := n)
  have hlog : n.log2 < 64 := (Nat.log2_lt (Nat.ne_of_gt hpos)).mpr hn
  generalize hL : n.log2 = L at hlo hhi hlog
  -- a short mantissa is made longer by `d` places, a long one has `k` places too many
  obtain ⟨d, k, hdk, hd, hk, htarget⟩ : ∃ d k : Nat, L + d = 52 + k ∧ d ≤ 52 ∧ k ≤ 11 ∧
      (-Format.binary64.targetExponent (totalExponent n 0)).toNat = d := by
    refine ⟨52 - L, L - 52, by omega, by omega, by omega, ?_⟩
    rw [targetExponent_eq, totalExponent, hL]
    omega
  obtain ⟨M, E, hM, heq, hMlo, hMhi, hElo, hEhi, hclose⟩ :=
    @roundWithAccuracy_close (n * 2 ^ d) k (-d)
      (by rw [← hdk, Nat.pow_add]; gcongr)
      (by rw [show 53 + k = L + 1 + d by omega, Nat.pow_add]; gcongr)
      (by omega) .positive .exact
  refine ⟨M, E, hM, ?_, hMlo, hMhi, by omega, by omega, ?_⟩
  · rw [← heq]
    have hgt : compare (n : Int) 0 = .gt := by rw [compare_gt_iff_gt]; omega
    unfold UnpackedFloat.ofNat UnpackedFloat.ofInt UnpackedFloat.normalize
    simp only [hgt, Int.toNat_natCast]
    unfold UnpackedFloat.round decreaseExponent
    simp only [Nat.shiftLeft_eq, Int.zero_sub, htarget]
  · rw [value_mul_pow] at hclose
    simpa [value] using hclose

/-! ## Square roots -/

theorem value_mul_self (m : Nat) (e : Int) : value (m * m) (2 * e) = value m e ^ 2 := by
  rw [pow_two, value_mul_value, two_mul]

theorem sqrtCore_eq (M : Nat) (E : Int) :
    ∃ (s : Nat) (t : Int) (acc : Accuracy), 2 * t + s = E ∧
      t = min (E / 2) (max ((M.log2 + 1 + E + 1) / 2 - 53) (-1074)) ∧
      sqrtCore .binary64 M E = (Nat.sqrt (M * 2 ^ s), t, acc) := by
  set t : Int := min (E / 2) (max ((M.log2 + 1 + E + 1) / 2 - 53) (-1074)) with ht
  obtain ⟨s, hs⟩ := Int.eq_ofNat_of_zero_le (show 0 ≤ E - 2 * t by omega)
  refine ⟨s, t, (sqrtCore .binary64 M E).2.2, by omega, rfl, Prod.ext ?_ rfl⟩
  show Nat.sqrt (M <<< (E - 2 * t).toNat) = _
  rw [hs, Nat.shiftLeft_eq]
  rfl

theorem sqrt_close {M : Nat} {E : Int} (hM : 0 < M) (hlo : 2 ^ 52 ≤ M) (hhi : M < 2 ^ 53)
    (hElo : -52 ≤ E) (hEhi : E ≤ 12) :
    ∃ R T hR, UnpackedFloat.sqrt .binary64 (.finite .positive M E hM) = .finite .positive R T hR ∧
      2 ^ 52 ≤ R ∧ R < 2 ^ 53 ∧ -53 ≤ T ∧ T ≤ -19 ∧
      ∃ r : ℚ, 0 ≤ r ∧ r ^ 2 ≤ value M E ∧ value M E ≤ (r * (1 + ulp)) ^ 2 ∧
        Close r (value R T) := by
  obtain ⟨s, t, acc, hs, ht, hcore⟩ := sqrtCore_eq M E
  rw [log2_eq hlo hhi] at ht
  have hle := Nat.sqrt_le (M * 2 ^ s)
  have hlt := Nat.lt_succ_sqrt (M * 2 ^ s)
  generalize Nat.sqrt (M * 2 ^ s) = root at hle hlt hcore
  have hbits : 2 ^ 104 ≤ M * 2 ^ s ∧ M * 2 ^ s < 2 ^ 106 := by
    obtain rfl | rfl : s = 52 ∨ s = 53 := by omega
    all_goals omega
  have hrlo : 2 ^ 52 ≤ root := by
    by_contra! h
    nlinarith
  have hrhi : root < 2 ^ 53 := by
    by_contra! h
    nlinarith
  obtain ⟨R, T, hR, heq, hRlo, hRhi, hTlo, hThi, hclose⟩ :=
    @roundWithAccuracy_close root 0 t hrlo hrhi (by omega) .positive acc
  have hvalue : value (M * 2 ^ s) (2 * t) = value M E := by rw [value_mul_pow, hs]
  refine ⟨R, T, hR, ?_, hRlo, hRhi, by omega, by omega, value root t, ?_, ?_, ?_, hclose⟩
  · rw [← heq]
    unfold UnpackedFloat.sqrt
    simp only [hcore]
  · unfold value
    positivity
  · rw [← value_mul_self, ← hvalue]
    exact value_le_value hle
  · have hnext : Close (value root t) (value (root + 1) t) :=
      @close_value root (root + 1) 0 t (by omega) (by omega) (by omega)
    calc value M E ≤ value ((root + 1) * (root + 1)) (2 * t) := by
          rw [← hvalue]
          exact value_le_value (Nat.le_of_lt hlt)
      _ = value (root + 1) t ^ 2 := value_mul_self (root + 1) t
      _ ≤ (value root t * (1 + ulp)) ^ 2 := by
          have : 0 ≤ value (root + 1) t := by unfold value; positivity
          gcongr
          exact hnext.2

end Splitting.Double
