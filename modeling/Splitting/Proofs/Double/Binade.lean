import Splitting.Proofs.Double.Order

/-!
# Powers of two

A power of two is a double, so that rounding takes no value past it. Bounds by powers of two go
through sums, products, square roots and quotients.
-/

namespace Splitting.Double

open Float.Model (Format UnpackedFloat totalExponent)
open Float.Model.UnpackedFloat

/-! ## Extents -/

/-- The extent of `2 ^ j`. -/
noncomputable def power (j : ℤ) : ENNReal := ENNReal.ofReal ((2 ^ j : ℚ) : ℝ)

theorem power_pos (j : ℤ) : 0 < power j := by
  rw [power, ENNReal.ofReal_pos, Rat.cast_pos]
  positivity

theorem power_lt_top (j : ℤ) : power j < ⊤ := ENNReal.ofReal_lt_top

theorem power_add (i j : ℤ) : power (i + j) = power i * power j := by
  unfold power
  rw [zpow_add₀ two_ne_zero, Rat.cast_mul, ENNReal.ofReal_mul (by positivity)]

theorem power_succ (j : ℤ) : power (j + 1) = power j + power j := by
  unfold power
  rw [zpow_add_one₀ two_ne_zero, mul_two, Rat.cast_add, ENNReal.ofReal_add] <;> positivity

section Finite

variable {s : Sign} {m : ℕ} {e : ℤ} {hm : 0 < m} {j : ℤ}

theorem power_le_extent : power j ≤ extent (.finite s m e hm) ↔ 2 ^ j ≤ value m e := by
  show ENNReal.ofReal _ ≤ ENNReal.ofReal _ ↔ _
  rw [ENNReal.ofReal_le_ofReal_iff (by exact_mod_cast value_nonneg m e), Rat.cast_le]

theorem extent_le_power : extent (.finite s m e hm) ≤ power j ↔ value m e ≤ 2 ^ j := by
  show ENNReal.ofReal _ ≤ ENNReal.ofReal _ ↔ _
  rw [ENNReal.ofReal_le_ofReal_iff (by positivity), Rat.cast_le]

theorem extent_lt_power : extent (.finite s m e hm) < power j ↔ value m e < 2 ^ j := by
  rw [← not_le, power_le_extent, not_le]

end Finite

theorem value_pow (k : ℕ) (e : ℤ) : value (2 ^ k) e = 2 ^ (e + k) := by
  rw [← one_mul (2 ^ k), value_mul_pow, value, Nat.cast_one, one_mul]

theorem exists_normal {j : ℤ} (hj : -1074 ≤ j) :
    ∃ M E, 0 < M ∧ Normal M E ∧ value M E = 2 ^ j ∧ (E ≤ 971 ↔ j ≤ 1023) := by
  by_cases hlow : j ≤ -1022
  · obtain ⟨k, hk⟩ := Int.eq_ofNat_of_zero_le (show 0 ≤ j + 1074 by omega)
    have hsmall : 2 ^ k < 2 ^ 53 := Nat.pow_lt_pow_right one_lt_two (by omega)
    refine ⟨2 ^ k, -1074, Nat.two_pow_pos k, ⟨hsmall, le_rfl, Or.inr rfl⟩, ?_, by omega⟩
    rw [value_pow]
    congr 1
    omega
  · refine ⟨2 ^ 52, j - 52, Nat.two_pow_pos 52, ⟨by norm_num, by omega, Or.inl le_rfl⟩, ?_,
      by omega⟩
    rw [value_pow]
    congr 1
    omega

section Rounds

variable {j : ℤ}

theorem exists_rounds_power (hj : -1074 ≤ j) :
    ∃ u, Rounds (power j) u ∧ extent u = if j ≤ 1023 then power j else ⊤ := by
  obtain ⟨M, E, hM, hnormal, hvalue, hE⟩ := exists_normal hj
  have hrounds := rounds_normal hM hnormal
  rw [hvalue] at hrounds
  refine ⟨_, hrounds, ?_⟩
  rw [settle_finite hM hnormal]
  simp only [hE]
  split
  · show ENNReal.ofReal _ = _
    rw [hvalue]
    rfl
  · rfl

variable {x : ENNReal} {u : UnpackedFloat} (h : Rounds x u)

include h

theorem Rounds.power_le (hj : -1074 ≤ j) (hx : power j ≤ x) : power j ≤ extent u := by
  obtain ⟨v, hv, hextent⟩ := exists_rounds_power hj
  have hle := hv.mono h hx
  rw [hextent] at hle
  split at hle
  · exact hle
  · exact le_top.trans hle

theorem Rounds.le_power (hlo : -1074 ≤ j) (hhi : j ≤ 1023) (hx : x ≤ power j) :
    extent u ≤ power j := by
  obtain ⟨v, hv, hextent⟩ := exists_rounds_power hlo
  have hle := h.mono hv hx
  rwa [hextent, if_pos hhi] at hle

theorem Rounds.eq_top (hx : power 1024 ≤ x) : extent u = ⊤ := by
  obtain ⟨v, hv, hextent⟩ := exists_rounds_power (show -1074 ≤ (1024 : ℤ) by norm_num)
  have hle := hv.mono h hx
  rw [hextent, if_neg (by norm_num)] at hle
  exact top_le_iff.mp hle

end Rounds

/-! ## Rounding what lies between two neighbours -/

section Units

variable {m k : ℕ} {e j : ℤ} (hk : 2 ^ k ≤ m ∨ e + k ≤ j)

include hk

theorem le_value_div (h : 2 ^ j < value (m + 1) e) : 2 ^ j ≤ value (m / 2 ^ k) (e + k) := by
  by_cases hj : e + k ≤ j
  · obtain ⟨i, hi⟩ := Int.eq_ofNat_of_zero_le (sub_nonneg.mpr hj)
    have hvalue : (2 : ℚ) ^ j = value (2 ^ i * 2 ^ k) e := by
      rw [← Nat.pow_add, value_pow]
      congr 1
      push_cast
      omega
    have hlt : 2 ^ i * 2 ^ k < m + 1 := by
      rw [hvalue] at h
      by_contra! hle
      exact h.not_ge (value_le_value hle)
    have hquot : 2 ^ i ≤ m / 2 ^ k :=
      (Nat.le_div_iff_mul_le (Nat.two_pow_pos k)).mpr (Nat.le_of_lt_succ hlt)
    rw [hvalue, value_mul_pow]
    exact value_le_value hquot
  · have hquot : 2 ^ 0 ≤ m / 2 ^ k :=
      Nat.div_pos (hk.resolve_right hj) (Nat.two_pow_pos k)
    refine le_trans ?_ (value_le_value hquot)
    rw [value_pow]
    exact zpow_le_zpow_right₀ one_le_two (by omega)

theorem value_div_succ_le (h : value m e < 2 ^ j) : value (m / 2 ^ k + 1) (e + k) ≤ 2 ^ j := by
  have hj : e + k ≤ j := by
    refine hk.elim (fun hm => ?_) id
    have hle := value_le_value (e := e) hm
    rw [value_pow] at hle
    exact ((zpow_lt_zpow_iff_right₀ one_lt_two).mp (hle.trans_lt h)).le
  obtain ⟨i, hi⟩ := Int.eq_ofNat_of_zero_le (sub_nonneg.mpr hj)
  have hvalue : (2 : ℚ) ^ j = value (2 ^ i * 2 ^ k) e := by
    rw [← Nat.pow_add, value_pow]
    congr 1
    push_cast
    omega
  have hlt : m < 2 ^ i * 2 ^ k := by
    rw [hvalue] at h
    by_contra! hle
    exact h.not_ge (value_le_value hle)
  have hquot : m / 2 ^ k < 2 ^ i := (Nat.div_lt_iff_lt_mul (Nat.two_pow_pos k)).mpr hlt
  rw [hvalue, value_mul_pow]
  exact value_le_value hquot

end Units

section Between

variable {m : ℕ} (hm : 0 < m) {e : ℤ} (he : e ≤ target m e) (acc : Accuracy)

include hm he

/-- Whatever lies behind a mantissa is rounded to one of two neighbouring units. -/
theorem roundWithAccuracy_units : ∃ c, m / 2 ^ (target m e - e).toNat ≤ c ∧
    c ≤ m / 2 ^ (target m e - e).toNat + 1 ∧
    (c = 0 ∧ roundWithAccuracy .binary64 .positive m e acc = .zero .positive ∨
      ∃ M E hM, roundWithAccuracy .binary64 .positive m e acc = .finite .positive M E hM ∧
        Normal M E ∧ value M E = value c (target m e)) := by
  generalize hk : (target m e - e).toNat = k
  have hexp : (shiftToTargetExponent .binary64 m e acc).2 = target m e := by
    show e + ((target m e - e).toNat : ℤ) = target m e
    omega
  have hmant : (shiftToTargetExponent .binary64 m e acc).1.mantissa = m / 2 ^ k := by
    have hshift : (shiftToTargetExponent .binary64 m e acc).1 =
        ExtendedMantissa.ofMantissaAndAccuracy m acc >>> (target m e - e).toNat := rfl
    rw [hshift, hk, mantissa_shiftRight, mantissa_ofMantissaAndAccuracy]
  have hcases := roundedMantissa_cases (shiftToTargetExponent .binary64 m e acc).1
  rw [hmant] at hcases
  have hlog : m.log2 + 1 ≤ 53 + k := by
    unfold target at he hk
    omega
  have hquot : m / 2 ^ k < 2 ^ 53 := by
    rw [Nat.div_lt_iff_lt_mul (Nat.two_pow_pos k), ← Nat.pow_add]
    exact Nat.lt_log2_self.trans_le (Nat.pow_le_pow_right two_pos hlog)
  have hfull : 2 ^ 52 ≤ m / 2 ^ k ∨ target m e = -1074 := by
    by_cases ht : target m e = -1074
    · exact Or.inr ht
    · left
      have hlog : 52 + k ≤ m.log2 := by
        unfold target at ht he hk
        omega
      rw [Nat.le_div_iff_mul_le (Nat.two_pow_pos k), ← Nat.pow_add]
      exact (Nat.pow_le_pow_right two_pos hlog).trans (Nat.log2_self_le hm.ne')
  refine ⟨_, ?_, ?_, roundWithAccuracy_carry hexp rfl (target_ge m e) ?_ ?_⟩
  all_goals rcases hcases with h | h <;> rw [h] <;> omega

theorem nonNeg_round : NonNeg (settle (roundWithAccuracy .binary64 .positive m e acc)) := by
  obtain ⟨c, -, -, ⟨-, h⟩ | ⟨M, E, hM, h, hnormal, -⟩⟩ := roundWithAccuracy_units hm he acc
  · rw [h, settle_zero]
    exact ⟨trivial, rfl⟩
  · rw [h]
    exact nonNeg_settle_finite hM hnormal

variable {j : ℤ} (hj : -1074 ≤ j)

include hj

theorem units_le : e + ((target m e - e).toNat : ℤ) = target m e ∧
    (2 ^ (target m e - e).toNat ≤ m ∨ e + ((target m e - e).toNat : ℤ) ≤ j) := by
  have hexp : e + ((target m e - e).toNat : ℤ) = target m e := by omega
  refine ⟨hexp, ?_⟩
  rw [hexp]
  by_cases ht : target m e = -1074
  · exact Or.inr (ht ▸ hj)
  · have hlog : (target m e - e).toNat ≤ m.log2 := by
      unfold target at ht ⊢
      omega
    exact Or.inl ((Nat.pow_le_pow_right two_pos hlog).trans (Nat.log2_self_le hm.ne'))

theorem power_le_round (h : 2 ^ j < value (m + 1) e) :
    power j ≤ extent (settle (roundWithAccuracy .binary64 .positive m e acc)) := by
  obtain ⟨c, hc, -, hround⟩ := roundWithAccuracy_units hm he acc
  have hunits : (2 : ℚ) ^ j ≤ value c (target m e) := by
    obtain ⟨hexp, hk⟩ := units_le hm he hj
    rw [← hexp]
    exact (le_value_div hk h).trans (value_le_value hc)
  rcases hround with ⟨rfl, -⟩ | ⟨M, E, hM, hround, hnormal, hvalue⟩
  · exact absurd hunits (not_le.mpr (by simp [value, zpow_pos]))
  · rw [hround, settle_finite hM hnormal]
    split
    · rw [power_le_extent, hvalue]
      exact hunits
    · exact le_top

theorem round_le_power (hj' : j ≤ 1023) (h : value m e < 2 ^ j) :
    extent (settle (roundWithAccuracy .binary64 .positive m e acc)) ≤ power j := by
  obtain ⟨c, -, hc, hround⟩ := roundWithAccuracy_units hm he acc
  have hunits : value c (target m e) ≤ 2 ^ j := by
    obtain ⟨hexp, hk⟩ := units_le hm he hj
    rw [← hexp]
    exact (value_le_value hc).trans (value_div_succ_le hk h)
  rcases hround with ⟨rfl, hround⟩ | ⟨M, E, hM, hround, hnormal, hvalue⟩
  · rw [hround, settle_zero]
    exact zero_le
  · rw [← hvalue] at hunits
    have hE : E ≤ 971 := by
      by_contra! hlarge
      have hpow := (hnormal.le_value (by omega)).trans hunits
      have := (zpow_le_zpow_iff_right₀ one_lt_two).mp hpow
      omega
    rw [hround, settle_finite hM hnormal, if_pos hE, extent_le_power]
    exact hunits

end Between

/-! ## Square roots -/

theorem pow_le_mul_pow {m k s : ℕ} (hm : 0 < m) (h : k ≤ m.log2 + s) : 2 ^ k ≤ m * 2 ^ s := by
  calc 2 ^ k ≤ 2 ^ (m.log2 + s) := Nat.pow_le_pow_right two_pos h
    _ = 2 ^ m.log2 * 2 ^ s := Nat.pow_add ..
    _ ≤ m * 2 ^ s := Nat.mul_le_mul_right _ (Nat.log2_self_le hm.ne')

theorem sqrt_between {m : ℕ} (hm : 0 < m) (e : ℤ) :
    ∃ r t acc, UnpackedFloat.sqrt .binary64 (.finite .positive m e hm) =
        roundWithAccuracy .binary64 .positive r t acc ∧ 0 < r ∧ t ≤ target r t ∧
      value r t ^ 2 ≤ value m e ∧ value m e < value (r + 1) t ^ 2 := by
  obtain ⟨s, t, acc, hs, ht, hcore⟩ := sqrtCore_eq m e
  have hvalue : value (m * 2 ^ s) (2 * t) = value m e := by rw [value_mul_pow, hs]
  have hlarge : -1074 < t → 2 ^ 52 ≤ Nat.sqrt (m * 2 ^ s) := by
    intro hlow
    rw [Nat.le_sqrt, ← Nat.pow_add]
    exact pow_le_mul_pow hm (by omega)
  have hpos := Nat.sqrt_pos.mpr (Nat.mul_pos hm (Nat.two_pow_pos s))
  have hle := Nat.sqrt_le (m * 2 ^ s)
  have hlt : m * 2 ^ s < (Nat.sqrt (m * 2 ^ s) + 1) * (Nat.sqrt (m * 2 ^ s) + 1) :=
    Nat.lt_succ_sqrt (m * 2 ^ s)
  generalize Nat.sqrt (m * 2 ^ s) = r at hcore hlarge hpos hle hlt
  refine ⟨r, t, acc, ?_, hpos, le_target hlarge, ?_, ?_⟩
  · unfold UnpackedFloat.sqrt
    simp only [hcore]
  · rw [← value_mul_self, ← hvalue]
    exact value_le_value hle
  · rw [← value_mul_self, ← hvalue]
    unfold value
    gcongr

section Sqrt

variable {u : UnpackedFloat} (hu : NonNeg u) {j : ℤ} (hj : -1074 ≤ j)

include hu

theorem nonNeg_sqrt : NonNeg (settle (UnpackedFloat.sqrt .binary64 u)) := by
  rcases hu.cases with ⟨s, rfl⟩ | rfl | ⟨m, e, hm, rfl⟩
  · show NonNeg (settle (.zero s))
    rw [settle_zero]
    exact ⟨trivial, rfl⟩
  · exact ⟨trivial, rfl⟩
  · obtain ⟨r, t, acc, hround, hr, ht, -, -⟩ := sqrt_between hm e
    rw [hround]
    exact nonNeg_round hr ht acc

include hj

theorem power_le_sqrt (h : power (2 * j) ≤ extent u) :
    power j ≤ extent (settle (UnpackedFloat.sqrt .binary64 u)) := by
  rcases hu.cases with ⟨s, rfl⟩ | rfl | ⟨m, e, hm, rfl⟩
  · exact absurd h (power_pos _).not_ge
  · exact le_top
  · obtain ⟨r, t, acc, hround, hr, ht, -, hlt⟩ := sqrt_between hm e
    rw [hround]
    refine power_le_round hr ht acc hj ?_
    rw [power_le_extent, two_mul, zpow_add₀ two_ne_zero, ← sq] at h
    exact lt_of_pow_lt_pow_left₀ 2 (value_nonneg _ _) (h.trans_lt hlt)

theorem sqrt_le_power (hj' : j ≤ 1023) (h : extent u < power (2 * j)) :
    extent (settle (UnpackedFloat.sqrt .binary64 u)) ≤ power j := by
  rcases hu.cases with ⟨s, rfl⟩ | rfl | ⟨m, e, hm, rfl⟩
  · show extent (settle (.zero s)) ≤ _
    rw [settle_zero]
    exact zero_le
  · exact absurd h not_top_lt
  · obtain ⟨r, t, acc, hround, hr, ht, hle, -⟩ := sqrt_between hm e
    rw [hround]
    refine round_le_power hr ht acc hj hj' ?_
    rw [extent_lt_power, two_mul, zpow_add₀ two_ne_zero, ← sq] at h
    exact lt_of_pow_lt_pow_left₀ 2 (by positivity) (hle.trans_lt h)

end Sqrt

/-! ## Quotients -/

theorem quotient_pos {m n q : ℕ} {e f t : ℤ} (h : 2 ^ (-1074 : ℤ) * value n f ≤ value m e)
    (hlt : value m e < value (q + 1) t * value n f) (ht : t ≤ -1074) : 0 < q := by
  by_contra! h0
  obtain rfl : q = 0 := Nat.le_zero.mp h0
  refine absurd (h.trans_lt hlt) (not_lt.mpr ?_)
  have hn := value_nonneg n f
  rw [show 0 + 1 = 2 ^ 0 from rfl, value_pow]
  gcongr
  · exact one_le_two
  · simpa using ht

theorem div_between {m n : ℕ} (hm : 0 < m) (hn : 0 < n) {e f : ℤ}
    (h : 2 ^ (-1074 : ℤ) * value n f ≤ value m e) :
    ∃ q t acc, UnpackedFloat.div .binary64 (.finite .positive m e hm) (.finite .positive n f hn) =
        roundWithAccuracy .binary64 .positive q t acc ∧ 0 < q ∧ t ≤ target q t ∧
      value m e < value (q + 1) t * value n f := by
  set t : ℤ := min (e - f) (max (m.log2 + 1 + e - (n.log2 + 1 + f) - 53) (-1074)) with ht
  obtain ⟨s, hs⟩ := Int.eq_ofNat_of_zero_le (show 0 ≤ e - f - t by omega)
  obtain ⟨acc, hcore⟩ : ∃ acc, divCore .binary64 m e n f = (m * 2 ^ s / n, t, acc) := by
    refine ⟨(divCore .binary64 m e n f).2.2, Prod.ext ?_ rfl⟩
    show m <<< (e - f - t).toNat / n = _
    rw [hs, Nat.shiftLeft_eq]
    rfl
  have hvalue : value (m * 2 ^ s) (t + f) = value m e := by
    rw [value_mul_pow]
    congr 1
    omega
  have hlt : m * 2 ^ s < (m * 2 ^ s / n + 1) * n := by
    rw [Nat.mul_comm (_ + 1)]
    exact Nat.lt_mul_div_succ _ hn
  have hlarge : -1074 < t → 2 ^ 52 ≤ m * 2 ^ s / n := by
    intro hlow
    rw [Nat.le_div_iff_mul_le hn]
    calc 2 ^ 52 * n ≤ 2 ^ 52 * 2 ^ (n.log2 + 1) := Nat.mul_le_mul_left _ Nat.lt_log2_self.le
      _ = 2 ^ (52 + (n.log2 + 1)) := (Nat.pow_add ..).symm
      _ ≤ m * 2 ^ s := pow_le_mul_pow hm (by omega)
  generalize m * 2 ^ s / n = q at hcore hlt hlarge
  have hbound : value m e < value (q + 1) t * value n f := by
    rw [value_mul_value, ← hvalue]
    unfold value
    gcongr
  have hpos : 0 < q := by
    rcases le_or_gt t (-1074) with hlow | hhigh
    · exact quotient_pos h hbound hlow
    · exact (Nat.two_pow_pos 52).trans_le (hlarge hhigh)
  refine ⟨q, t, acc, ?_, hpos, le_target hlarge, hbound⟩
  unfold UnpackedFloat.div
  simp only [hcore]
  rfl

section Div

variable {u v : UnpackedFloat} (hu : NonNeg u) (hv : NonNeg v) (hpos : 0 < extent v) {i j : ℤ}
  (hi : power i ≤ extent u) (hj : extent v ≤ power j) (hij : -1074 ≤ i - j)

include hu hv hpos hi hj hij

theorem power_le_div : NonNeg (settle (UnpackedFloat.div .binary64 u v)) ∧
    power (i - j) ≤ extent (settle (UnpackedFloat.div .binary64 u v)) := by
  rcases hv.cases with ⟨s, rfl⟩ | rfl | ⟨n, f, hn, rfl⟩
  · exact absurd hpos (lt_irrefl 0)
  · exact absurd hj (power_lt_top j).not_ge
  rcases hu.cases with ⟨s, rfl⟩ | rfl | ⟨m, e, hm, rfl⟩
  · exact absurd hi (power_pos i).not_ge
  · exact ⟨rounds_settle_infinity.nonNeg,
      le_top.trans_eq (rounds_settle_infinity.eq_top le_top).symm⟩
  · rw [power_le_extent] at hi
    rw [extent_le_power] at hj
    have hratio : (2 : ℚ) ^ (i - j) * value n f ≤ value m e := by
      refine le_trans ?_ hi
      calc (2 : ℚ) ^ (i - j) * value n f ≤ 2 ^ (i - j) * 2 ^ j := by gcongr
        _ = 2 ^ i := by rw [← zpow_add₀ two_ne_zero, sub_add_cancel]
    have hleast : (2 : ℚ) ^ (-1074 : ℤ) * value n f ≤ value m e := by
      refine le_trans ?_ hratio
      have := value_nonneg n f
      gcongr
      exact one_le_two
    obtain ⟨q, t, acc, hround, hq, ht, hlt⟩ := div_between hm hn hleast
    rw [hround]
    refine ⟨nonNeg_round hq ht acc, power_le_round hq ht acc hij ?_⟩
    exact lt_of_mul_lt_mul_right (hratio.trans_lt hlt) (value_nonneg n f)

end Div

end Splitting.Double
