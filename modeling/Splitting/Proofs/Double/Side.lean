import Splitting.Matrix.Square
import Splitting.Proofs.Double.Rounding

/-!
# The side of a square

The side of a square matrix is read off the square root of a double. Two roundings go into that
root, and as long as the length is a count of 64 bits they do not carry it past half a unit beyond
an integer bound of the exact root.
-/

namespace Splitting

open Double
open Float.Model (Format UnpackedFloat)
open Float.Model.UnpackedFloat

namespace Double

theorem root_le {n q r v w : ℚ} (hq : 0 ≤ q) (hnq : n ≤ q ^ 2) (hv : Close n v) (hr : 0 ≤ r)
    (hlo : r ^ 2 ≤ v) (hw : Close r w) : w ≤ q * (1 + 4 * ulp) := by
  have hu : (0 : ℚ) ≤ ulp := by unfold ulp; norm_num
  have hroot : r ≤ q * (1 + ulp) := by
    refine (pow_le_pow_iff_left₀ hr (by positivity) two_ne_zero).mp ?_
    calc r ^ 2 ≤ n * (1 + ulp) := hlo.trans hv.2
      _ ≤ q ^ 2 * (1 + ulp) := by gcongr
      _ ≤ q ^ 2 * (1 + ulp) ^ 2 := by gcongr; nlinarith
      _ = (q * (1 + ulp)) ^ 2 := by ring
  have hw := hw.2
  unfold ulp at *
  norm_num at *
  linarith

theorem le_root {n q r v w : ℚ} (hq : 0 ≤ q) (hqn : q ^ 2 ≤ n) (hv : Close n v) (hr : 0 ≤ r)
    (hhi : v ≤ (r * (1 + ulp)) ^ 2) (hw : Close r w) : q * (1 - 4 * ulp) ≤ w := by
  have hu : (0 : ℚ) ≤ ulp ∧ ulp ≤ 1 := by unfold ulp; norm_num
  have hroot : q * (1 - ulp) ≤ r * (1 + ulp) := by
    refine (pow_le_pow_iff_left₀ (by nlinarith) (by nlinarith) two_ne_zero).mp ?_
    calc (q * (1 - ulp)) ^ 2 = q ^ 2 * (1 - ulp) ^ 2 := by ring
      _ ≤ q ^ 2 * (1 - ulp) := by gcongr; nlinarith
      _ ≤ n * (1 - ulp) := by gcongr; linarith
      _ ≤ (r * (1 + ulp)) ^ 2 := hv.1.trans hhi
  have hw := hw.1
  unfold ulp at *
  norm_num at *
  linarith

theorem sqrt_ofNat {n : Nat} (hpos : 0 < n) (hn : n < 2 ^ 64) :
    ∃ R T hR, UnpackedFloat.sqrt .binary64 (UnpackedFloat.ofNat .binary64 n) =
        .finite .positive R T hR ∧
      Canonical (UnpackedFloat.ofNat .binary64 n) ∧ Canonical (.finite .positive R T hR) ∧
      (∀ q : Nat, q * q ≤ n → (q : ℚ) * (1 - 4 * ulp) ≤ value R T) ∧
      ∀ q : Nat, n ≤ q * q → value R T ≤ (q : ℚ) * (1 + 4 * ulp) := by
  obtain ⟨M, E, hM, hnat, hMlo, hMhi, hElo, hEhi, hclose⟩ := ofNat_close hpos hn
  obtain ⟨R, T, hR, hsqrt, hRlo, hRhi, hTlo, hThi, r, hr, hrlo, hrhi, hrclose⟩ :=
    sqrt_close hM hMlo hMhi hElo hEhi
  rw [hnat]
  refine ⟨R, T, hR, hsqrt, ⟨hMhi, by omega, by omega, Or.inl hMlo⟩,
    ⟨hRhi, by omega, by omega, Or.inl hRlo⟩, fun q hq => ?_, fun q hq => ?_⟩
  · have hq : (q : ℚ) ^ 2 ≤ n := by rw [sq]; exact_mod_cast hq
    exact le_root (Nat.cast_nonneg q) hq hclose hr hrhi hrclose
  · have hq : (n : ℚ) ≤ q ^ 2 := by rw [sq]; exact_mod_cast hq
    exact root_le (Nat.cast_nonneg q) hq hclose hr hrlo hrclose

end Double

namespace Decimal

theorem Fraction.le_round {f : Fraction} {n : Nat} (hden : 0 < f.den)
    (h : (n : ℚ) - 1 / 2 ≤ (f.num : ℚ) / f.den) : n ≤ f.round := by
  rw [le_div_iff₀ (by exact_mod_cast hden)] at h
  have h : (2 * n * f.den : ℚ) ≤ 2 * f.num + f.den := by linarith
  have h : 2 * n * f.den ≤ 2 * f.num + f.den := by exact_mod_cast h
  unfold Fraction.round
  rw [Nat.le_div_iff_mul_le (by omega)]
  linarith

theorem Fraction.round_le {f : Fraction} {n : Nat} (hden : 0 < f.den)
    (h : (f.num : ℚ) / f.den < n + 1 / 2) : f.round ≤ n := by
  rw [div_lt_iff₀ (by exact_mod_cast hden)] at h
  have h : (2 * f.num + f.den : ℚ) < 2 * n * f.den + 2 * f.den := by linarith
  have h : 2 * f.num + f.den < 2 * n * f.den + 2 * f.den := by exact_mod_cast h
  unfold Fraction.round
  rw [← Nat.lt_succ_iff, Nat.div_lt_iff_lt_mul (by omega)]
  linarith

theorem Fraction.ofPower_two (m : Nat) (e : Int) :
    0 < (ofPower m 2 e).den ∧ ((ofPower m 2 e).num : ℚ) / (ofPower m 2 e).den = value m e := by
  refine ⟨Nat.two_pow_pos _, ?_⟩
  show ((m * 2 ^ e.toNat : Nat) : ℚ) / ((2 ^ (-e).toNat : Nat) : ℚ) = m * 2 ^ e
  obtain ⟨n, rfl | rfl⟩ := e.eq_nat_or_neg
  · simp
  · simp [div_eq_mul_inv]

theorem nearestInt?_eq {x : Float} {m : Nat} {e : Int} {hm : 0 < m}
    (hx : x.toModel.unpack = .finite .positive m e hm) :
    nearestInt? x = some ((Fraction.ofPower m 2 e).round : Int) := by
  unfold nearestInt?
  rw [reading_unpack, hx]
  rfl

end Decimal

theorem unpack_sqrt_toFloat {n : Nat} (hn : n < 2 ^ 64)
    (hnat : Canonical (UnpackedFloat.ofNat .binary64 n))
    (hroot : Canonical (UnpackedFloat.sqrt .binary64 (UnpackedFloat.ofNat .binary64 n))) :
    n.toUInt64.toFloat.sqrt.toModel.unpack =
      UnpackedFloat.sqrt .binary64 (UnpackedFloat.ofNat .binary64 n) := by
  have hlen : n.toUInt64.toNat = n := by
    rw [Nat.toUInt64, UInt64.toNat_ofNat']
    exact Nat.mod_eq_of_lt hn
  have hfloat : n.toUInt64.toFloat.toModel.unpack = UnpackedFloat.ofNat .binary64 n := by
    calc n.toUInt64.toFloat.toModel.unpack
        = UnpackedFloat.ofNat .binary64 n.toUInt64.toNat :=
          unpack_ofModel_pack (by unfold UnpackedFloat.ofUInt64; rwa [hlen])
      _ = UnpackedFloat.ofNat .binary64 n := by rw [hlen]
  rw [← hfloat] at hroot ⊢
  exact unpack_ofModel_pack hroot

theorem sideEstimate_between {n p q : Nat} (hp : p * p ≤ n) (hq : n ≤ q * q) (hlt : q < 2 ^ 32) :
    p ≤ sideEstimate n ∧ sideEstimate n ≤ q := by
  rcases Nat.eq_zero_or_pos n with rfl | hpos
  · have hzero : sideEstimate 0 = 0 := by decide +kernel
    have : p = 0 := by nlinarith
    omega
  have hn : n < 2 ^ 64 := by nlinarith
  have hpq : p ≤ q := Nat.mul_self_le_mul_self_iff.mp (hp.trans hq)
  obtain ⟨R, T, hR, hsqrt, hnat, hroot, hlo, hhi⟩ := sqrt_ofNat hpos hn
  have hunpack := unpack_sqrt_toFloat hn hnat (hsqrt ▸ hroot)
  obtain ⟨hden, hvalue⟩ := Decimal.Fraction.ofPower_two R T
  have hestimate : sideEstimate n = (Decimal.Fraction.ofPower R 2 T).round := by
    unfold sideEstimate
    rw [Decimal.nearestInt?_eq (hunpack.trans hsqrt)]
    rfl
  have hu : (0 : ℚ) ≤ ulp := by unfold ulp; norm_num
  -- four units of a root of 32 bits are less than half
  have hsmall : (q : ℚ) * (4 * ulp) < 1 / 2 := by
    calc (q : ℚ) * (4 * ulp) ≤ 2 ^ 32 * (4 * ulp) := by gcongr; exact_mod_cast hlt.le
      _ < 1 / 2 := by unfold ulp; norm_num
  have hpq : (p : ℚ) * (4 * ulp) ≤ q * (4 * ulp) := by gcongr
  rw [hestimate]
  constructor
  · refine Decimal.Fraction.le_round hden ?_
    rw [hvalue]
    linarith [hlo p hp]
  · refine Decimal.Fraction.round_le hden ?_
    rw [hvalue]
    linarith [hhi q hq]

theorem sideEstimate_mul_self {q : Nat} (hq : q < 2 ^ 32) : sideEstimate (q * q) = q := by
  obtain ⟨hle, hge⟩ := sideEstimate_between (Nat.le_refl (q * q)) (Nat.le_refl (q * q)) hq
  exact Nat.le_antisymm hge hle

theorem squareSide_mul_self {q : Nat} (hq : q < 2 ^ 32) : squareSide (q * q) = .ok q := by
  unfold squareSide
  rw [sideEstimate_mul_self hq]
  exact if_pos rfl

theorem mul_self_of_squareSide {len q : Nat} (h : squareSide len = .ok q) : q * q = len := by
  unfold squareSide at h
  dsimp only at h
  split at h
  · rename_i hsquare
    cases h
    exact hsquare
  · cases h

theorem squareSide_eq_ok_iff {len q : Nat} (hlen : len < 2 ^ 64) :
    squareSide len = .ok q ↔ q * q = len := by
  constructor
  · exact mul_self_of_squareSide
  · rintro rfl
    exact squareSide_mul_self (by nlinarith)

theorem squareSide_eq_error_iff {len : Nat} (hlen : len < 2 ^ 64) {e : ShapeError} :
    squareSide len = .error e ↔ e = .notSquare len ∧ ¬ ∃ q, q * q = len := by
  constructor
  · intro h
    refine ⟨?_, ?_⟩
    · unfold squareSide at h
      dsimp only at h
      split at h
      · cases h
      · cases h
        rfl
    · rintro ⟨q, hq⟩
      rw [(squareSide_eq_ok_iff hlen).mpr hq] at h
      cases h
  · rintro ⟨rfl, hnone⟩
    exact if_neg fun hsquare => hnone ⟨_, hsquare⟩

/-- Up to the largest square that fits into 64 bits the side is found exactly, and the estimate does
not leave the 64 bits when it is squared, whether the length is a square or not. -/
theorem squareSide_exact {len : Nat} (hlen : len ≤ (2 ^ 32 - 1) ^ 2) :
    (∀ q, squareSide len = .ok q ↔ q * q = len) ∧
      (squareSide len = .error (.notSquare len) ↔ ¬ ∃ q, q * q = len) ∧
      sideEstimate len * sideEstimate len ≤ 2 ^ 64 - 1 := by
  have hbits : len < 2 ^ 64 := by omega
  refine ⟨fun q => squareSide_eq_ok_iff hbits, ?_, ?_⟩
  · rw [squareSide_eq_error_iff hbits]
    exact and_iff_right rfl
  · have hle : len ≤ (2 ^ 32 - 1) * (2 ^ 32 - 1) := by rwa [← sq]
    have hestimate := (sideEstimate_between (p := 0) (by simp) hle (by norm_num)).2
    calc sideEstimate len * sideEstimate len ≤ (2 ^ 32 - 1) * (2 ^ 32 - 1) :=
          Nat.mul_le_mul hestimate hestimate
      _ ≤ 2 ^ 64 - 1 := by norm_num

theorem largest_square_side :
    (2 ^ 32 - 1) ^ 2 - 1 ≤ (2 ^ 32 - 1) ^ 2 ∧ squareSide ((2 ^ 32 - 1) ^ 2) = .ok (2 ^ 32 - 1) ∧
      squareSide ((2 ^ 32 - 1) ^ 2 - 1) = .error (.notSquare ((2 ^ 32 - 1) ^ 2 - 1)) := by
  refine ⟨Nat.sub_le _ _, ?_, ?_⟩
  · exact ((squareSide_exact le_rfl).1 _).mpr (sq _).symm
  · refine (squareSide_exact (Nat.sub_le _ _)).2.1.mpr ?_
    rintro ⟨q, hq⟩
    -- the square before the largest one is too small
    rcases Nat.lt_or_ge q (2 ^ 32 - 1) with h | h
    · have hle : q * q ≤ (2 ^ 32 - 2) * (2 ^ 32 - 2) := Nat.mul_self_le_mul_self (by omega)
      omega
    · have hle := Nat.mul_self_le_mul_self h
      omega

end Splitting
