import Splitting.Proofs.Double.Finite
import Splitting.Proofs.Double.Rounding
import Splitting.Proofs.Monotone

/-!
# The order of doubles

Rounding to the nearest keeps the order of what it rounds, and so sums and products of doubles that
are not negative grow with their operands. An overflow is the largest value there is.
-/

namespace Splitting.Double

open Float.Model (Format UnpackedFloat totalExponent)
open Float.Model.UnpackedFloat

/-! ## The nearest integer -/

def Nearest (x : ℚ) (c : ℕ) : Prop := |x - c| ≤ 1 / 2 ∧ (|x - c| = 1 / 2 → Even c)

theorem Nearest.mono {x y : ℚ} {c d : ℕ} (hc : Nearest x c) (hd : Nearest y d) (h : x ≤ y) :
    c ≤ d := by
  by_contra! hlt
  obtain ⟨hxlo, hxhi⟩ := abs_le.mp hc.1
  obtain ⟨hylo, hyhi⟩ := abs_le.mp hd.1
  have hstep : (d : ℚ) + 1 ≤ c := by exact_mod_cast hlt
  -- both are halfway between `d` and `d + 1`
  have hcd : (c : ℚ) = d + 1 := by linarith
  have hx : x - c = -(1 / 2) := by linarith
  have hy : y - d = 1 / 2 := by linarith
  have hceven := hc.2 (by rw [hx, abs_neg, abs_of_pos (by norm_num)])
  have hdeven := hd.2 (by rw [hy, abs_of_pos (by norm_num)])
  have hnat : c = d + 1 := by exact_mod_cast hcd
  rw [hnat] at hceven
  exact Nat.not_even_iff_odd.mpr hdeven.add_one hceven

/-- What a mantissa stands for whose round and sticky bits say what was cut off. -/
def Reads (em : ExtendedMantissa) (x : ℚ) : Prop :=
  match em.roundBit, em.stickyBit with
  | false, false => x = em.mantissa
  | false, true => em.mantissa < x ∧ x < em.mantissa + 1 / 2
  | true, false => x = em.mantissa + 1 / 2
  | true, true => em.mantissa + 1 / 2 < x ∧ x < em.mantissa + 1

theorem reads_exact (m : ℕ) : Reads (.ofMantissaAndAccuracy m .exact) m := rfl

theorem Reads.shiftRightOne {em : ExtendedMantissa} {x : ℚ} (h : Reads em x) :
    Reads em.shiftRightOne (x / 2) := by
  obtain ⟨m, r, s⟩ := em
  have hm : (m : ℚ) = 2 * (m / 2 : ℕ) + (m % 2 : ℕ) := by exact_mod_cast (Nat.div_add_mod m 2).symm
  have hodd : ((1 : ℕ) != 0) = true := rfl
  unfold ExtendedMantissa.shiftRightOne
  unfold Reads at h ⊢
  rcases Nat.mod_two_eq_zero_or_one m with hbit | hbit <;> rw [hbit] at hm <;>
    cases r <;> cases s <;>
    simp only [hbit, hodd, bne_self_eq_false, Bool.or_false, Bool.or_true] at h hm ⊢ <;>
    push_cast at hm
  all_goals
    first
    | linarith
    | constructor <;> linarith

theorem Reads.shiftRight {em : ExtendedMantissa} {x : ℚ} (h : Reads em x) (k : ℕ) :
    Reads (em >>> k) (x / 2 ^ k) := by
  induction k with
  | zero => simpa [HShiftRight.hShiftRight, Nat.repeat] using h
  | succ k ih =>
    have hstep : em >>> (k + 1) = (em >>> k).shiftRightOne := rfl
    rw [hstep, pow_succ, ← div_div]
    exact ih.shiftRightOne

theorem Reads.nearest {em : ExtendedMantissa} {x : ℚ} (h : Reads em x) :
    Nearest x em.roundedMantissa := by
  obtain ⟨m, r, s⟩ := em
  unfold Reads at h
  unfold Nearest ExtendedMantissa.roundedMantissa ExtendedMantissa.accuracy
  cases r <;> cases s <;> simp only [Accuracy.roundToNearestEven] at h ⊢
  · simp [h]
  · rw [abs_of_pos (by linarith)]
    exact ⟨by linarith, fun hhalf => by linarith⟩
  · have hmid : x - (m + m % 2 : ℕ) = 1 / 2 - (m % 2 : ℕ) := by
      rw [h]
      push_cast
      ring
    have heven : Even (m + m % 2) := Nat.even_iff.mpr (by omega)
    refine ⟨?_, fun _ => heven⟩
    rw [hmid]
    rcases Nat.mod_two_eq_zero_or_one m with hbit | hbit <;> rw [hbit] <;> norm_num
  · rw [abs_of_neg (by push_cast; linarith)]
    push_cast
    exact ⟨by linarith, fun hhalf => by linarith⟩

/-! ## Rounding -/

/-- The exponent at which a value is rounded. -/
def target (m : ℕ) (e : ℤ) : ℤ := max (m.log2 + 1 + e - 53) (-1074)

theorem shiftToTargetExponent_target (m : ℕ) (e : ℤ) (h : e ≤ target m e) :
    (shiftToTargetExponent .binary64 m e .exact).2 = target m e ∧
      Reads (shiftToTargetExponent .binary64 m e .exact).1 (value m e / 2 ^ target m e) := by
  have hk : ((target m e - e).toNat : ℤ) = target m e - e := Int.toNat_of_nonneg (by omega)
  refine ⟨?_, ?_⟩
  · show e + ((target m e - e).toNat : ℤ) = target m e
    omega
  · have hx : value m e / 2 ^ target m e = m / 2 ^ (target m e - e).toNat := by
      rw [value, ← zpow_natCast, hk, zpow_sub₀ two_ne_zero]
      field_simp
    rw [hx]
    exact (reads_exact m).shiftRight _

theorem nearest_natCast (n : ℕ) : Nearest n n := by
  unfold Nearest
  simp

theorem value_pos {m : ℕ} (hm : 0 < m) (e : ℤ) : 0 < value m e := by
  unfold value
  positivity

theorem value_nonneg (m : ℕ) (e : ℤ) : 0 ≤ value m e := by
  unfold value
  positivity

theorem value_lt (m : ℕ) (e : ℤ) : value m e < 2 ^ (m.log2 + 1 + e) := by
  have hm : (m : ℚ) < 2 ^ (m.log2 + 1) := by exact_mod_cast Nat.lt_log2_self
  rw [zpow_add₀ two_ne_zero]
  unfold value
  gcongr
  exact_mod_cast hm

theorem le_value {m : ℕ} (hm : 0 < m) (e : ℤ) : 2 ^ (m.log2 + e) ≤ value m e := by
  have hm : (2 : ℚ) ^ m.log2 ≤ m := by exact_mod_cast Nat.log2_self_le hm.ne'
  rw [zpow_add₀ two_ne_zero]
  unfold value
  gcongr
  exact_mod_cast hm

theorem target_ge (m : ℕ) (e : ℤ) : -1074 ≤ target m e := le_max_right _ _

theorem le_target {m : ℕ} {e : ℤ} (h : -1074 < e → 2 ^ 52 ≤ m) : e ≤ target m e := by
  rcases le_or_gt e (-1074) with hlow | hhigh
  · exact hlow.trans (target_ge m e)
  · have hm := h hhigh
    have hlog := (Nat.le_log2 ((Nat.two_pow_pos 52).trans_le hm).ne').mpr hm
    unfold target
    omega

theorem target_mono {m n : ℕ} {e d : ℤ} (hm : 0 < m) (h : value m e ≤ value n d) :
    target m e ≤ target n d := by
  have hpow : (2 : ℚ) ^ ((m.log2 : ℤ) + e) < 2 ^ ((n.log2 : ℤ) + 1 + d) :=
    ((le_value hm e).trans h).trans_lt (value_lt n d)
  have hlog := (zpow_lt_zpow_iff_right₀ one_lt_two).mp hpow
  unfold target
  omega

theorem scaled_le {m : ℕ} (e : ℤ) : value m e / 2 ^ target m e ≤ 2 ^ 53 := by
  rw [div_le_iff₀ (by positivity)]
  calc value m e ≤ 2 ^ (m.log2 + 1 + e) := (value_lt m e).le
    _ ≤ 2 ^ (53 + target m e) := by
        refine zpow_le_zpow_right₀ one_le_two ?_
        unfold target
        omega
    _ = 2 ^ 53 * 2 ^ target m e := by rw [zpow_add₀ two_ne_zero]; rfl

theorem le_scaled {m : ℕ} (hm : 0 < m) {e : ℤ} (h : target m e ≠ -1074) :
    2 ^ 52 ≤ value m e / 2 ^ target m e := by
  rw [le_div_iff₀ (by positivity)]
  calc (2 : ℚ) ^ 52 * 2 ^ target m e = 2 ^ (52 + target m e) := by
        rw [zpow_add₀ two_ne_zero]; rfl
    _ ≤ 2 ^ (m.log2 + e) := by
        refine zpow_le_zpow_right₀ one_le_two ?_
        unfold target at h ⊢
        omega
    _ ≤ value m e := le_value hm e

theorem rounded_mono {m n c d : ℕ} {e f : ℤ} (hm : 0 < m) (hn : 0 < n)
    (hc : Nearest (value m e / 2 ^ target m e) c) (hd : Nearest (value n f / 2 ^ target n f) d)
    (h : value m e ≤ value n f) : value c (target m e) ≤ value d (target n f) := by
  rcases (target_mono hm h).lt_or_eq with hlt | heq
  · -- between units of different size there is a power of two
    have hsmall : c ≤ 2 ^ 53 := by
      have htop := nearest_natCast (2 ^ 53)
      push_cast at htop
      exact hc.mono htop (scaled_le e)
    have hlarge : 2 ^ 52 ≤ d := by
      have hbottom := nearest_natCast (2 ^ 52)
      push_cast at hbottom
      exact hbottom.mono hd (le_scaled hn ((target_ge m e).trans_lt hlt).ne')
    calc value c (target m e) ≤ value (2 ^ 53) (target m e) := value_le_value hsmall
      _ = value (2 ^ 52) (target m e + 1) := by
          rw [show 2 ^ 53 = 2 ^ 52 * 2 ^ 1 by norm_num, value_mul_pow]
          rfl
      _ ≤ value (2 ^ 52) (target n f) := by
          unfold value
          gcongr
          · exact one_le_two
          · omega
      _ ≤ value d (target n f) := value_le_value hlarge
  · rw [heq]
    rw [heq] at hc
    refine value_le_value (hc.mono hd ?_)
    gcongr

theorem shiftToTargetExponent_exact {c : ℕ} {t : ℤ} (h : target c t ≤ t) :
    shiftToTargetExponent .binary64 c t .exact = (.ofMantissaAndAccuracy c .exact, t) := by
  have hk : (target c t - t).toNat = 0 := by omega
  show ((ExtendedMantissa.ofMantissaAndAccuracy c .exact) >>> (target c t - t).toNat,
    t + ((target c t - t).toNat : ℤ)) = _
  rw [hk]
  exact Prod.ext rfl (add_zero t)

theorem shiftToTargetExponent_carry {t : ℤ} (ht : -1074 ≤ t) :
    shiftToTargetExponent .binary64 (2 ^ 53) t .exact =
      (.ofMantissaAndAccuracy (2 ^ 52) .exact, t + 1) := by
  have htarget : target (2 ^ 53) t = t + 1 := by
    unfold target
    rw [Nat.log2_two_pow]
    omega
  have hk : (target (2 ^ 53) t - t).toNat = 1 := by omega
  show ((ExtendedMantissa.ofMantissaAndAccuracy (2 ^ 53) .exact) >>> (target (2 ^ 53) t - t).toNat,
    t + ((target (2 ^ 53) t - t).toNat : ℤ)) = _
  rw [hk]
  rfl

/-- A mantissa of 53 bits, or a shorter one at the least exponent, at any exponent above. -/
def Normal (m : ℕ) (e : ℤ) : Prop := m < 2 ^ 53 ∧ -1074 ≤ e ∧ (2 ^ 52 ≤ m ∨ e = -1074)

theorem roundWithAccuracy_carry {m c : ℕ} {e t : ℤ} {acc : Accuracy}
    (hexp : (shiftToTargetExponent .binary64 m e acc).2 = t)
    (hc : (shiftToTargetExponent .binary64 m e acc).1.roundedMantissa = c) (ht : -1074 ≤ t)
    (hle : c ≤ 2 ^ 53) (hnormal : 2 ^ 52 ≤ c ∨ t = -1074) :
    c = 0 ∧ roundWithAccuracy .binary64 .positive m e acc = .zero .positive ∨
      ∃ M E hM, roundWithAccuracy .binary64 .positive m e acc = .finite .positive M E hM ∧
        Normal M E ∧ value M E = value c t := by
  unfold roundWithAccuracy
  dsimp only
  rw [hc, hexp]
  rcases hle.lt_or_eq with hlt | rfl
  · have hstay : target c t ≤ t := by
      have hlog : c.log2 < 53 := by
        by_cases hzero : c = 0
        · simp [hzero]
        · exact (Nat.log2_lt hzero).mpr hlt
      unfold target
      omega
    rw [shiftToTargetExponent_exact hstay]
    by_cases hzero : c = 0
    · exact Or.inl ⟨hzero, dif_pos hzero⟩
    · exact Or.inr ⟨c, t, Nat.pos_of_ne_zero hzero, dif_neg hzero, ⟨hlt, ht, hnormal⟩, rfl⟩
  · rw [shiftToTargetExponent_carry ht]
    refine Or.inr ⟨2 ^ 52, t + 1, by norm_num, rfl, ⟨by norm_num, by omega, Or.inl le_rfl⟩, ?_⟩
    rw [show 2 ^ 53 = 2 ^ 52 * 2 ^ 1 by norm_num, value_mul_pow]
    rfl

theorem roundWithAccuracy_spec {m : ℕ} (hm : 0 < m) {e : ℤ} (he : e ≤ target m e) :
    ∃ c, Nearest (value m e / 2 ^ target m e) c ∧
      (c = 0 ∧ roundWithAccuracy .binary64 .positive m e .exact = .zero .positive ∨
        ∃ M E hM, roundWithAccuracy .binary64 .positive m e .exact = .finite .positive M E hM ∧
          Normal M E ∧ value M E = value c (target m e)) := by
  obtain ⟨hexp, hreads⟩ := shiftToTargetExponent_target m e he
  have hnear := hreads.nearest
  generalize hc : (shiftToTargetExponent .binary64 m e .exact).1.roundedMantissa = c at hnear
  have htop := nearest_natCast (2 ^ 53)
  push_cast at htop
  refine ⟨c, hnear, roundWithAccuracy_carry hexp hc (target_ge m e)
    (hnear.mono htop (scaled_le e)) ?_⟩
  by_cases ht : target m e = -1074
  · exact Or.inr ht
  · have hbottom := nearest_natCast (2 ^ 52)
    push_cast at hbottom
    exact Or.inl (hbottom.mono hnear (le_scaled hm ht))

/-! ## Values that are not negative -/

/-- A zero of either sign, a positive number or infinity. -/
def NonNeg (u : UnpackedFloat) : Prop := NotNegative u ∧ u.isNaN = false

noncomputable def extent : UnpackedFloat → ENNReal
  | .zero _ => 0
  | .finite _ m e _ => ENNReal.ofReal (value m e)
  | _ => ⊤

/-- What is left of a result once it has been stored. -/
def settle (u : UnpackedFloat) : UnpackedFloat := unpack .binary64 (UnpackedFloat.pack .binary64 u)

theorem Normal.value_lt {m : ℕ} {e : ℤ} (h : Normal m e) : value m e < 2 ^ (53 + e) := by
  rw [zpow_add₀ two_ne_zero]
  unfold value
  gcongr
  exact_mod_cast h.1

theorem Normal.le_value {m : ℕ} {e : ℤ} (h : Normal m e) (he : e ≠ -1074) :
    2 ^ (52 + e) ≤ value m e := by
  have hm := h.2.2.resolve_right he
  rw [zpow_add₀ two_ne_zero]
  unfold value
  gcongr
  exact_mod_cast hm

theorem Normal.lt_of_exponent_lt {m n : ℕ} {e f : ℤ} (hm : Normal m e) (hn : Normal n f)
    (h : e < f) : value m e < value n f := by
  have hf : f ≠ -1074 := by
    have := hm.2.1
    omega
  calc value m e < 2 ^ (53 + e) := hm.value_lt
    _ ≤ 2 ^ (52 + f) := zpow_le_zpow_right₀ one_le_two (by omega)
    _ ≤ value n f := hn.le_value hf

theorem settle_finite {m : ℕ} {e : ℤ} (hm : 0 < m) (h : Normal m e) :
    settle (.finite .positive m e hm) =
      if e ≤ 971 then .finite .positive m e hm else .infinity .positive := by
  split
  · exact unpack_pack ⟨h.1, h.2.1, by assumption, h.2.2⟩
  · have hbiased : (e + Format.binary64.exponentBias +
        Format.binary64.mantissaBitsWithoutImplicit).toNat = (e + 1075).toNat := by
      show (e + (1023 : Nat) + (52 : Nat)).toNat = _
      omega
    have hpack : UnpackedFloat.pack .binary64 (.finite .positive m e hm) =
        UnpackedFloat.pack .binary64 (.infinity .positive) := by
      unfold UnpackedFloat.pack
      dsimp only
      rw [hbiased, if_pos (by show 2 ^ 11 ≤ _; omega)]
    unfold settle
    rw [hpack]
    rfl

theorem extent_settle_mono {m n : ℕ} {e f : ℤ} (hm : 0 < m) (hn : 0 < n) (he : Normal m e)
    (hf : Normal n f) (h : value m e ≤ value n f) :
    extent (settle (.finite .positive m e hm)) ≤ extent (settle (.finite .positive n f hn)) := by
  have hef : e ≤ f := by
    by_contra! hlt
    exact absurd h (not_le.mpr (hf.lt_of_exponent_lt he hlt))
  rw [settle_finite hn hf]
  split
  · rw [settle_finite hm he, if_pos (by omega)]
    exact ENNReal.ofReal_le_ofReal (by exact_mod_cast h)
  · exact le_top

theorem nonNeg_settle_finite {m : ℕ} {e : ℤ} (hm : 0 < m) (h : Normal m e) :
    NonNeg (settle (.finite .positive m e hm)) := by
  rw [settle_finite hm h]
  split <;> exact ⟨trivial, rfl⟩

/-- The stored value `u` is `x` up to rounding. -/
inductive Rounds : ENNReal → UnpackedFloat → Prop
  | zero (s : Sign) : Rounds 0 (.zero s)
  | infinity : Rounds ⊤ (.infinity .positive)
  | finite {m : ℕ} {e : ℤ} : 0 < m → e ≤ target m e → Rounds (ENNReal.ofReal (value m e))
      (settle (roundWithAccuracy .binary64 .positive m e .exact))

theorem settle_zero (s : Sign) : settle (.zero s) = .zero s := by cases s <;> rfl

theorem rounds_settle_zero (s : Sign) : Rounds 0 (settle (.zero s)) := by
  rw [settle_zero]
  exact .zero s

theorem rounds_settle_infinity : Rounds ⊤ (settle (.infinity .positive)) := .infinity

theorem Rounds.nonNeg {x : ENNReal} {u : UnpackedFloat} (h : Rounds x u) : NonNeg u := by
  cases h with
  | zero s => exact ⟨trivial, rfl⟩
  | infinity => exact ⟨trivial, rfl⟩
  | finite hm he =>
    obtain ⟨c, -, ⟨-, hzero⟩ | ⟨M, E, hM, hfinite, hnormal, -⟩⟩ := roundWithAccuracy_spec hm he
    · rw [hzero, settle_zero]
      exact ⟨trivial, rfl⟩
    · rw [hfinite]
      exact nonNeg_settle_finite hM hnormal

theorem Rounds.mono {x y : ENNReal} {u v : UnpackedFloat} (hu : Rounds x u) (hv : Rounds y v)
    (h : x ≤ y) : extent u ≤ extent v := by
  have hpos : ∀ {m : ℕ} {e : ℤ}, 0 < m → (0 : ℝ) < (value m e : ℚ) := fun hm => by
    exact_mod_cast value_pos hm _
  cases hv with
  | infinity => exact le_top
  | zero s =>
    cases hu with
    | zero s => exact le_rfl
    | infinity => exact absurd h (by simp)
    | finite hm he => exact absurd h (by simpa using hpos hm)
  | finite hn hf =>
    cases hu with
    | zero s => exact zero_le
    | infinity => exact absurd h (by simp)
    | @finite m e hm he =>
      have hle := (ENNReal.ofReal_le_ofReal_iff (hpos hn).le).mp h
      obtain ⟨c, hc, hu⟩ := roundWithAccuracy_spec hm he
      obtain ⟨d, hd, hv⟩ := roundWithAccuracy_spec hn hf
      have hcd := rounded_mono hm hn hc hd (by exact_mod_cast hle)
      rcases hu with ⟨-, hu⟩ | ⟨M, E, hM, hu, hME, hvalue⟩
      · rw [hu, settle_zero]
        exact zero_le
      rcases hv with ⟨rfl, -⟩ | ⟨N, G, hN, hv, hNG, hvalue'⟩
      · rw [← hvalue] at hcd
        exact absurd hcd (not_le.mpr (by simpa [value] using value_pos hM E))
      · rw [hu, hv]
        exact extent_settle_mono hM hN hME hNG (by rw [hvalue, hvalue']; exact hcd)

/-! ## Comparison -/

theorem Canonical.normal {s : Sign} {m : ℕ} {e : ℤ} {hm : 0 < m}
    (h : Canonical (.finite s m e hm)) : Normal m e := ⟨h.1, h.2.1, h.2.2.2⟩

theorem value_le_iff {m n : ℕ} {e f : ℤ} (hm : Normal m e) (hn : Normal n f) :
    ((compare e f).then (compare m n)).isLE = true ↔ value m e ≤ value n f := by
  rcases lt_trichotomy e f with h | rfl | h
  · rw [compare_lt_iff_lt.mpr h]
    exact iff_of_true rfl (hm.lt_of_exponent_lt hn h).le
  · have hpos : (0 : ℚ) < 2 ^ e := by positivity
    rw [compare_eq_iff_eq.mpr rfl, value, value, mul_le_mul_iff_left₀ hpos, Nat.cast_le]
    exact Nat.isLE_compare
  · rw [compare_gt_iff_gt.mpr h]
    exact iff_of_false Bool.noConfusion (not_le.mpr (hn.lt_of_exponent_lt hm h))

theorem NonNeg.cases {u : UnpackedFloat} (h : NonNeg u) :
    (∃ s, u = .zero s) ∨ u = .infinity .positive ∨ ∃ m e hm, u = .finite .positive m e hm := by
  cases u with
  | notANumber => exact Bool.noConfusion h.2
  | zero s => exact Or.inl ⟨s, rfl⟩
  | infinity s =>
    cases s with
    | negative => exact h.1.elim
    | positive => exact Or.inr (Or.inl rfl)
  | finite s m e hm =>
    cases s with
    | negative => exact h.1.elim
    | positive => exact Or.inr (Or.inr ⟨m, e, hm, rfl⟩)

theorem extent_pos {m : ℕ} (hm : 0 < m) (e : ℤ) : 0 < ENNReal.ofReal (value m e : ℚ) := by
  rw [ENNReal.ofReal_pos]
  exact_mod_cast value_pos hm e

theorem le_iff_extent_le {u v : UnpackedFloat} (hu : Canonical u) (hv : Canonical v)
    (hu' : NonNeg u) (hv' : NonNeg v) : u.le v = true ↔ extent u ≤ extent v := by
  rcases hu'.cases with ⟨s, rfl⟩ | rfl | ⟨m, e, hm, rfl⟩
  · rcases hv'.cases with ⟨t, rfl⟩ | rfl | ⟨n, f, hn, rfl⟩ <;> exact iff_of_true rfl zero_le
  · rcases hv'.cases with ⟨t, rfl⟩ | rfl | ⟨n, f, hn, rfl⟩
    · exact iff_of_false Bool.noConfusion (by simp [extent])
    · exact iff_of_true rfl le_rfl
    · exact iff_of_false Bool.noConfusion (by simp [extent])
  · rcases hv'.cases with ⟨t, rfl⟩ | rfl | ⟨n, f, hn, rfl⟩
    · exact iff_of_false Bool.noConfusion (not_le.mpr (extent_pos hm e))
    · exact iff_of_true rfl le_top
    · show ((compare e f).then (compare m n)).isLE = true ↔
        ENNReal.ofReal (value m e : ℚ) ≤ ENNReal.ofReal (value n f : ℚ)
      rw [value_le_iff (Canonical.normal hu) (Canonical.normal hv),
        ENNReal.ofReal_le_ofReal_iff (by exact_mod_cast value_nonneg n f), Rat.cast_le]

theorem nonNeg_of_le {u v : UnpackedFloat} (hu : NonNeg u) (h : u.le v = true) : NonNeg v := by
  rcases hu.cases with ⟨s, rfl⟩ | rfl | ⟨m, e, hm, rfl⟩ <;> cases v with
  | notANumber => cases h
  | zero t => exact ⟨trivial, rfl⟩
  | infinity t =>
    cases t with
    | negative => cases h
    | positive => exact ⟨trivial, rfl⟩
  | finite t n f hn =>
    cases t with
    | negative => cases h
    | positive => exact ⟨trivial, rfl⟩

/-! ## Operations -/

theorem target_of_normal {m : ℕ} {e : ℤ} (hm : 0 < m) (h : Normal m e) : target m e = e := by
  have hlog : m.log2 < 53 := (Nat.log2_lt hm.ne').mpr h.1
  have hlo := h.2.1
  unfold target
  rcases h.2.2 with hlarge | rfl
  · have := (Nat.le_log2 hm.ne').mpr hlarge
    omega
  · omega

theorem rounds_normal {m : ℕ} {e : ℤ} (hm : 0 < m) (h : Normal m e) :
    Rounds (ENNReal.ofReal (value m e : ℚ)) (settle (.finite .positive m e hm)) := by
  have htarget := target_of_normal hm h
  have hshift := shiftToTargetExponent_exact htarget.le
  have hround : roundWithAccuracy .binary64 .positive m e .exact = .finite .positive m e hm := by
    have hstay : (ExtendedMantissa.ofMantissaAndAccuracy m .exact).roundedMantissa = m := rfl
    unfold roundWithAccuracy
    dsimp only
    rw [hshift, hstay, hshift]
    exact dif_neg hm.ne'
  rw [← hround]
  exact Rounds.finite hm htarget.ge

theorem rounds_self {u : UnpackedFloat} (hu : Canonical u) (h : NonNeg u) :
    Rounds (extent u) u := by
  rcases h.cases with ⟨s, rfl⟩ | rfl | ⟨m, e, hm, rfl⟩
  · exact .zero s
  · exact .infinity
  · have h := rounds_normal hm (Canonical.normal hu)
    unfold settle at h
    rwa [unpack_pack hu] at h

theorem target_shift {m : ℕ} (hm : 0 < m) (e : ℤ) (k : ℕ) :
    target (m * 2 ^ k) (e - k) = target m e := by
  have hlog : (m * 2 ^ k).log2 = m.log2 + k := by
    refine log2_eq ?_ ?_
    · rw [Nat.pow_add]
      exact Nat.mul_le_mul_right _ (Nat.log2_self_le hm.ne')
    · rw [show m.log2 + k + 1 = m.log2 + 1 + k by omega, Nat.pow_add]
      exact Nat.mul_lt_mul_of_pos_right Nat.lt_log2_self (Nat.two_pow_pos k)
  unfold target
  rw [hlog]
  push_cast
  congr 1
  ring

theorem rounds_round {m : ℕ} (hm : 0 < m) (e : ℤ) :
    Rounds (ENNReal.ofReal (value m e : ℚ))
      (settle (UnpackedFloat.round .binary64 .positive m e)) := by
  have hvalue : value (m <<< (e - target m e).toNat) (e - ((e - target m e).toNat : ℤ)) =
      value m e := by
    rw [Nat.shiftLeft_eq, value_mul_pow, sub_add_cancel]
  have htarget := target_shift hm e (e - target m e).toNat
  rw [← Nat.shiftLeft_eq] at htarget
  have hpos : 0 < m <<< (e - target m e).toNat := by
    rw [Nat.shiftLeft_eq]
    positivity
  have h := Rounds.finite hpos (by rw [htarget]; omega)
  rw [hvalue] at h
  exact h

theorem value_decreaseExponent {m : ℕ} {e d : ℤ} (h : d ≤ e) :
    value (decreaseExponent m e d).1 d = value m e := by
  show value (m <<< (e - d).toNat) d = value m e
  rw [Nat.shiftLeft_eq, value_mul_pow]
  congr 1
  omega

theorem rounds_add_finite {m n : ℕ} (hm : 0 < m) (hn : 0 < n) (e f : ℤ) :
    Rounds (ENNReal.ofReal (value m e : ℚ) + ENNReal.ofReal (value n f : ℚ)) (settle
      (UnpackedFloat.add .binary64 (.finite .positive m e hm) (.finite .positive n f hn))) := by
  have hme := value_decreaseExponent (m := m) (min_le_left e f)
  have hnf := value_decreaseExponent (m := n) (min_le_right e f)
  generalize hM : (decreaseExponent m e (min e f)).1 = M at hme
  generalize hN : (decreaseExponent n f (min e f)).1 = N at hnf
  have hpos : 0 < M := by
    rw [← hM]
    show 0 < m <<< (e - min e f).toNat
    rw [Nat.shiftLeft_eq]
    positivity
  have hadd : UnpackedFloat.add .binary64 (.finite .positive m e hm) (.finite .positive n f hn) =
      UnpackedFloat.round .binary64 .positive (M + N) (min e f) := by
    have hgt : compare ((M : ℤ) + (N : ℤ)) 0 = .gt := by
      rw [compare_gt_iff_gt]
      omega
    have hnat : ((M : ℤ) + (N : ℤ)).toNat = M + N := by omega
    unfold UnpackedFloat.add
    dsimp only [Sign.apply]
    rw [hM, hN]
    unfold UnpackedFloat.normalize
    rw [hgt, hnat]
  have hsum : value (M + N) (min e f) = value m e + value n f := by
    rw [← hme, ← hnf]
    unfold value
    push_cast
    ring
  have h := rounds_round (show 0 < M + N by omega) (min e f)
  rw [hsum, Rat.cast_add, ENNReal.ofReal_add (by exact_mod_cast value_nonneg m e)
    (by exact_mod_cast value_nonneg n f)] at h
  rw [hadd]
  exact h

theorem rounds_add {u v : UnpackedFloat} (hu : Canonical u) (hv : Canonical v) (hu' : NonNeg u)
    (hv' : NonNeg v) : Rounds (extent u + extent v) (settle (UnpackedFloat.add .binary64 u v)) := by
  have hself : ∀ {u : UnpackedFloat}, Canonical u → NonNeg u → Rounds (extent u) (settle u) := by
    intro u hu h
    unfold settle
    rw [unpack_pack hu]
    exact rounds_self hu h
  rcases hu'.cases with ⟨s, rfl⟩ | rfl | ⟨m, e, hm, rfl⟩
  · rw [show extent (.zero s) = 0 from rfl, zero_add]
    rcases hv'.cases with ⟨t, rfl⟩ | rfl | ⟨n, f, hn, rfl⟩
    · cases s <;> cases t <;> exact rounds_settle_zero _
    · exact rounds_settle_infinity
    · exact hself hv hv'
  · rw [show extent (.infinity .positive) = ⊤ from rfl, top_add]
    rcases hv'.cases with ⟨t, rfl⟩ | rfl | ⟨n, f, hn, rfl⟩ <;> exact rounds_settle_infinity
  · rcases hv'.cases with ⟨t, rfl⟩ | rfl | ⟨n, f, hn, rfl⟩
    · rw [show extent (.zero t) = 0 from rfl, add_zero]
      exact hself hu hu'
    · rw [show extent (.infinity .positive) = ⊤ from rfl, add_top]
      exact rounds_settle_infinity
    · exact rounds_add_finite hm hn e f

theorem rounds_mul_finite {m n : ℕ} {e f : ℤ} (hm : 0 < m) (hn : 0 < n) (he : Normal m e)
    (hf : Normal n f) (hhi : e ≤ 971 ∧ f ≤ 971) :
    Rounds (ENNReal.ofReal (value m e : ℚ) * ENNReal.ofReal (value n f : ℚ)) (settle
      (UnpackedFloat.mul .binary64 (.finite .positive m e hm) (.finite .positive n f hn))) := by
  have hlarge : -1074 < e + f → 2 ^ 52 ≤ m * n := by
    intro hlow
    -- one of the factors has all its 53 bits
    rcases he.2.2 with h | h
    · exact h.trans (Nat.le_mul_of_pos_right m hn)
    rcases hf.2.2 with h' | h'
    · exact h'.trans (Nat.le_mul_of_pos_left n hm)
    · omega
  have h := Rounds.finite (Nat.mul_pos hm hn) (le_target hlarge)
  rw [← value_mul_value, Rat.cast_mul, ENNReal.ofReal_mul (by exact_mod_cast value_nonneg m e)] at h
  exact h

theorem rounds_mul {u v : UnpackedFloat} (hu : Canonical u) (hv : Canonical v) (hu' : NonNeg u)
    (hv' : NonNeg v) (h : (UnpackedFloat.mul .binary64 u v).isNaN = false) :
    Rounds (extent u * extent v) (settle (UnpackedFloat.mul .binary64 u v)) := by
  rcases hu'.cases with ⟨s, rfl⟩ | rfl | ⟨m, e, hm, rfl⟩
  · rw [show extent (.zero s) = 0 from rfl, zero_mul]
    rcases hv'.cases with ⟨t, rfl⟩ | rfl | ⟨n, f, hn, rfl⟩
    · exact rounds_settle_zero _
    · exact Bool.noConfusion h
    · exact rounds_settle_zero _
  · rcases hv'.cases with ⟨t, rfl⟩ | rfl | ⟨n, f, hn, rfl⟩
    · exact Bool.noConfusion h
    · show Rounds (⊤ * ⊤) _
      rw [ENNReal.top_mul_top]
      exact rounds_settle_infinity
    · show Rounds (⊤ * ENNReal.ofReal (value n f : ℚ)) _
      rw [ENNReal.top_mul (extent_pos hn f).ne']
      exact rounds_settle_infinity
  · rcases hv'.cases with ⟨t, rfl⟩ | rfl | ⟨n, f, hn, rfl⟩
    · rw [show extent (.zero t) = 0 from rfl, mul_zero]
      exact rounds_settle_zero _
    · show Rounds (ENNReal.ofReal (value m e : ℚ) * ⊤) _
      rw [ENNReal.mul_top (extent_pos hm e).ne']
      exact rounds_settle_infinity
    · exact rounds_mul_finite hm hn (Canonical.normal hu) (Canonical.normal hv) ⟨hu.2.2.1, hv.2.2.1⟩

/-! ## Doubles -/

theorem le_iff {a b : Float} : a ≤ b ↔ a.toModel.unpack.le b.toModel.unpack = true :=
  ⟨fun h => of_decide_eq_true h, fun h => decide_eq_true h⟩

theorem lt_iff {a b : Float} : a < b ↔ a.toModel.unpack.lt b.toModel.unpack = true :=
  ⟨fun h => of_decide_eq_true h, fun h => decide_eq_true h⟩

theorem unpack_add (a b : Float) : (a + b).toModel.unpack =
    settle (UnpackedFloat.add .binary64 a.toModel.unpack b.toModel.unpack) := rfl

theorem unpack_mul (a b : Float) : (a * b).toModel.unpack =
    settle (UnpackedFloat.mul .binary64 a.toModel.unpack b.toModel.unpack) := rfl

theorem isNaN_of_le {u v : UnpackedFloat} (h : u.le v = true) :
    u.isNaN = false ∧ v.isNaN = false := by
  cases u with
  | notANumber => cases h
  | infinity s =>
    cases v with
    | notANumber => cases s <;> cases h
    | _ => exact ⟨rfl, rfl⟩
  | zero s =>
    cases v with
    | notANumber => cases h
    | _ => exact ⟨rfl, rfl⟩
  | finite s m e hm =>
    cases v with
    | notANumber => cases s <;> cases h
    | _ => exact ⟨rfl, rfl⟩

theorem le_self {u : UnpackedFloat} (h : u.isNaN = false) : u.le u = true := by
  have hint : ∀ e : ℤ, compare e e = .eq := fun e => compare_eq_iff_eq.mpr rfl
  have hnat : ∀ m : ℕ, compare m m = .eq := fun m => compare_eq_iff_eq.mpr rfl
  cases u with
  | notANumber => cases h
  | infinity s => cases s <;> rfl
  | zero s => rfl
  | finite s m e hm =>
    unfold UnpackedFloat.le
    cases s <;> simp only [UnpackedFloat.compare, hint, hnat] <;> rfl

theorem le_self_iff {a : Float} : a ≤ a ↔ a.toModel.unpack.isNaN = false := by
  rw [le_iff]
  exact ⟨fun h => (isNaN_of_le h).1, le_self⟩

theorem unpack_zero : (Zero.zero : Float).toModel.unpack = .zero .positive := rfl

theorem zero_le_iff {a : Float} : Zero.zero ≤ a ↔ NonNeg a.toModel.unpack := by
  rw [le_iff, unpack_zero]
  refine ⟨nonNeg_of_le ⟨trivial, rfl⟩, fun h => ?_⟩
  rcases h.cases with ⟨s, h⟩ | h | ⟨m, e, hm, h⟩ <;> rw [h] <;> rfl

theorem isNaN_right_of_add {u v : UnpackedFloat}
    (h : (settle (UnpackedFloat.add .binary64 u v)).isNaN = false) : v.isNaN = false := by
  cases v with
  | notANumber =>
    have hnan : UnpackedFloat.add .binary64 u .notANumber = .notANumber := by cases u <;> rfl
    rw [hnan] at h
    cases h
  | _ => rfl

theorem isNaN_right_of_mul {u v : UnpackedFloat}
    (h : (settle (UnpackedFloat.mul .binary64 u v)).isNaN = false) : v.isNaN = false := by
  cases v with
  | notANumber =>
    have hnan : UnpackedFloat.mul .binary64 u .notANumber = .notANumber := by cases u <;> rfl
    rw [hnan] at h
    cases h
  | _ => rfl

theorem isNaN_of_settle {u : UnpackedFloat} (h : (settle u).isNaN = false) : u.isNaN = false := by
  cases u with
  | notANumber => cases h
  | _ => rfl

theorem isNaN_roundWithAccuracy (s : Sign) (m : ℕ) (e : ℤ) (acc : Accuracy) :
    (roundWithAccuracy .binary64 s m e acc).isNaN = false := by
  unfold roundWithAccuracy
  dsimp only
  split <;> rfl

theorem isNaN_mul_of_le {u v z : UnpackedFloat} (hu : NonNeg u) (hv : NonNeg v) (hz : NonNeg z)
    (huv : u.le v = true) (h : (UnpackedFloat.mul .binary64 u z).isNaN = false)
    (hlimit : v.isFinite = true ∨ (UnpackedFloat.zero .positive).lt z = true) :
    (UnpackedFloat.mul .binary64 v z).isNaN = false := by
  rcases hv.cases with ⟨t, rfl⟩ | rfl | ⟨n, f, hn, rfl⟩
  · rcases hz.cases with ⟨r, rfl⟩ | rfl | ⟨k, g, hk, rfl⟩
    · rfl
    · rcases hu.cases with ⟨s, rfl⟩ | rfl | ⟨m, e, hm, rfl⟩
      · cases h
      · cases huv
      · cases huv
    · rfl
  · rcases hz.cases with ⟨r, rfl⟩ | rfl | ⟨k, g, hk, rfl⟩
    · rcases hlimit with hlimit | hlimit <;> cases hlimit
    · rfl
    · rfl
  · rcases hz.cases with ⟨r, rfl⟩ | rfl | ⟨k, g, hk, rfl⟩
    · rfl
    · rfl
    · exact isNaN_roundWithAccuracy _ _ _ _

theorem le_iff_extent {a b : Float} (ha : NonNeg a.toModel.unpack) (hb : NonNeg b.toModel.unpack) :
    a ≤ b ↔ extent a.toModel.unpack ≤ extent b.toModel.unpack := by
  rw [le_iff]
  exact le_iff_extent_le (canonical_toModel a) (canonical_toModel b) ha hb

theorem nonNeg_right {a b : Float} (ha : NonNeg a.toModel.unpack) (h : a ≤ b) :
    NonNeg b.toModel.unpack := nonNeg_of_le ha (le_iff.mp h)

theorem rounds_unpack_add {a b : Float} (ha : NonNeg a.toModel.unpack)
    (hb : NonNeg b.toModel.unpack) :
    Rounds (extent a.toModel.unpack + extent b.toModel.unpack) (a + b).toModel.unpack := by
  rw [unpack_add]
  exact rounds_add (canonical_toModel a) (canonical_toModel b) ha hb

theorem rounds_unpack_mul {a b : Float} (ha : NonNeg a.toModel.unpack)
    (hb : NonNeg b.toModel.unpack)
    (h : (UnpackedFloat.mul .binary64 a.toModel.unpack b.toModel.unpack).isNaN = false) :
    Rounds (extent a.toModel.unpack * extent b.toModel.unpack) (a * b).toModel.unpack := by
  rw [unpack_mul]
  exact rounds_mul (canonical_toModel a) (canonical_toModel b) ha hb h

theorem add_mono {a b c d : Float} (ha : NonNeg a.toModel.unpack) (hab : a ≤ b)
    (hc : NonNeg c.toModel.unpack) (hcd : c ≤ d) : a + c ≤ b + d := by
  have hb := nonNeg_right ha hab
  have hd := nonNeg_right hc hcd
  have hac := rounds_unpack_add ha hc
  have hbd := rounds_unpack_add hb hd
  refine (le_iff_extent hac.nonNeg hbd.nonNeg).mpr (hac.mono hbd ?_)
  exact add_le_add ((le_iff_extent ha hb).mp hab) ((le_iff_extent hc hd).mp hcd)

theorem mul_mono {a b c : Float} (ha : NonNeg a.toModel.unpack) (hab : a ≤ b)
    (hc : NonNeg c.toModel.unpack) (h : a * c ≤ a * c)
    (hlimit : b.isFinite = true ∨ Zero.zero < c) : a * c ≤ b * c := by
  have hb := nonNeg_right ha hab
  have hnumber := le_self_iff.mp h
  rw [unpack_mul] at hnumber
  have hnumber := isNaN_of_settle hnumber
  have hac := rounds_unpack_mul ha hc hnumber
  have hbc := rounds_unpack_mul hb hc
    (isNaN_mul_of_le ha hb hc (le_iff.mp hab) hnumber (hlimit.imp_right lt_iff.mp))
  refine (le_iff_extent hac.nonNeg hbc.nonNeg).mpr (hac.mono hbc ?_)
  exact mul_le_mul_left ((le_iff_extent ha hb).mp hab) _

theorem mul_nonneg_of_number {a b : Float} (ha : NonNeg a.toModel.unpack)
    (hb : NonNeg b.toModel.unpack) (h : a * b ≤ a * b) : NonNeg (a * b).toModel.unpack := by
  have hnumber := le_self_iff.mp h
  rw [unpack_mul] at hnumber
  exact (rounds_unpack_mul ha hb (isNaN_of_settle hnumber)).nonNeg

theorem right_of_add {a b : Float} (h : a + b ≤ a + b) : b ≤ b := by
  have hnumber := le_self_iff.mp h
  rw [unpack_add] at hnumber
  exact le_self_iff.mpr (isNaN_right_of_add hnumber)

theorem right_of_mul {a b : Float} (h : a * b ≤ a * b) : b ≤ b := by
  have hnumber := le_self_iff.mp h
  rw [unpack_mul] at hnumber
  exact le_self_iff.mpr (isNaN_right_of_mul hnumber)

theorem le_trans_of_nonneg {a b c : Float} (ha : NonNeg a.toModel.unpack) (hab : a ≤ b)
    (hbc : b ≤ c) : a ≤ c := by
  have hb := nonNeg_right ha hab
  have hc := nonNeg_right hb hbc
  refine (le_iff_extent ha hc).mpr (le_trans ((le_iff_extent ha hb).mp hab) ?_)
  exact (le_iff_extent hb hc).mp hbc

theorem le_of_lt {a b : Float} (h : a < b) : a ≤ b := by
  have h : UnpackedFloat.compare a.toModel.unpack b.toModel.unpack = some .lt :=
    eq_of_beq (lt_iff.mp h)
  rw [le_iff, UnpackedFloat.le, h]
  rfl

theorem le_of_not_lt {a b : Float} (h : ¬ a < b) (ha : a.isNaN = false) (hb : b.isNaN = false) :
    b ≤ a := by
  by_contra hle
  exact h (lt_of_not_le hle hb ha)

theorem nonNeg_abs_of_le {a b : Float} (h : a.abs ≤ b) : NonNeg a.abs.toModel.unpack := by
  have hunpack : a.abs.toModel.unpack = a.toModel.unpack.abs :=
    unpack_ofModel_pack (canonical_abs (canonical_toModel a))
  refine ⟨?_, (isNaN_of_le (le_iff.mp h)).1⟩
  rw [hunpack]
  cases a.toModel.unpack <;> trivial

theorem abs_le_trans {a b c : Float} (h : a.abs ≤ b) (hbc : b ≤ c) : a.abs ≤ c :=
  le_trans_of_nonneg (nonNeg_abs_of_le h) h hbc

theorem sqrt_nonneg {a : Float} (h : a.sqrt ≤ a.sqrt) : NonNeg a.sqrt.toModel.unpack :=
  ⟨(notNegative_sqrt .binary64 a.toModel.unpack).unpack_pack, le_self_iff.mp h⟩

theorem zero_nonneg : NonNeg (Zero.zero : Float).toModel.unpack := by
  rw [unpack_zero]
  exact ⟨trivial, rfl⟩

instance monotone : Scalar.Monotone Float where
  zero_le_zero := zero_le_iff.mpr zero_nonneg
  left_of_le h := le_self_iff.mpr (isNaN_of_le (le_iff.mp h)).1
  right_of_le h := le_self_iff.mpr (isNaN_of_le (le_iff.mp h)).2
  le_trans h := le_trans_of_nonneg (zero_le_iff.mp h)
  right_of_add := right_of_add
  right_of_mul := right_of_mul
  sqrt_nonneg h := zero_le_iff.mpr (sqrt_nonneg h)
  mul_nonneg ha hb h := zero_le_iff.mpr
    (mul_nonneg_of_number (zero_le_iff.mp ha) (zero_le_iff.mp hb) h)
  add_le_add ha hab hc hcd := add_mono (zero_le_iff.mp ha) hab (zero_le_iff.mp hc) hcd
  mul_le_mul ha hab hc h hlimit := mul_mono (zero_le_iff.mp ha) hab (zero_le_iff.mp hc) h hlimit

end Splitting.Double
