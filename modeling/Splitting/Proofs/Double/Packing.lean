import Mathlib
import Splitting.Decimal.Binary

/-!
# The bits of a double

A double is unpacked into a sign, a mantissa and an exponent, and packed again after every
operation. A value in canonical form survives that, and is what the bits read as.
-/

namespace Splitting.Double

open Float.Model (Format UnpackedFloat)
open Float.Model.UnpackedFloat

/-! ## Fields -/

theorem ofBitVec_toBitVec (s : Sign) : Sign.ofBitVec s.toBitVec = s := by cases s <;> rfl

theorem toNat_unpackExponent (b : BitVec 64) :
    (@unpackExponent .binary64 b).toNat = b.toNat / 2 ^ 52 % 2 ^ 11 := by
  simp [unpackExponent, BitVec.extractLsb_toNat, Nat.shiftRight_eq_div_pow]

theorem toNat_unpackMantissa (b : BitVec 64) :
    (@unpackMantissa .binary64 b).toNat = b.toNat % 2 ^ 52 := by
  simp [unpackMantissa, BitVec.extractLsb_toNat]

theorem toNat_unpackSign (b : BitVec 64) :
    (@unpackSign .binary64 b).toNat = b.toNat / 2 ^ 63 := by
  have := b.isLt
  simp [unpackSign, BitVec.extractLsb_toNat, Nat.shiftRight_eq_div_pow]
  omega

theorem toNat_append {k n : Nat} (x : BitVec k) (y : BitVec n) :
    (x ++ y).toNat = x.toNat * 2 ^ n + y.toNat := by
  rw [BitVec.toNat_append, ← Nat.shiftLeft_add_eq_or_of_lt y.isLt, Nat.shiftLeft_eq]

theorem unpackSign_packComponents (s : Sign) (e : BitVec 11) (m : BitVec 52) :
    Sign.ofBitVec (unpackSign (packComponents .binary64 s e m)) = s := by
  have hsign : unpackSign (packComponents .binary64 s e m) = s.toBitVec := by
    refine BitVec.eq_of_toNat_eq ?_
    have he := e.isLt
    have hm := m.isLt
    have hpack : (packComponents .binary64 s e m).toNat =
        (s.toBitVec.toNat * 2 ^ 11 + e.toNat) * 2 ^ 52 + m.toNat := by
      unfold packComponents
      rw [toNat_append, toNat_append]
    rw [toNat_unpackSign, hpack]
    omega
  rw [hsign, ofBitVec_toBitVec]

/-! ## Canonical values -/

/-- A mantissa of 53 bits, or a shorter one at the least exponent. -/
def Canonical : UnpackedFloat → Prop
  | .finite _ m e _ => m < 2 ^ 53 ∧ -1074 ≤ e ∧ e ≤ 971 ∧ (2 ^ 52 ≤ m ∨ e = -1074)
  | _ => True

theorem canonical_unpack (b : BitVec 64) : Canonical (unpack .binary64 b) := by
  have hbias : ((Format.binary64.exponentBias : Nat) : Int) = 1023 := rfl
  have he : (@unpackExponent .binary64 b).toNat < 2 ^ 11 := BitVec.isLt _
  have hm : (@unpackMantissa .binary64 b).toNat < 2 ^ 52 := BitVec.isLt _
  unfold unpack
  dsimp only
  split
  · split <;> exact trivial
  rename_i hones
  have hones : (@unpackExponent .binary64 b).toNat ≠ 2 ^ 11 - 1 := fun h =>
    hones (BitVec.eq_of_toNat_eq h)
  split
  · rename_i hzero
    split
    · exact trivial
    · refine ⟨by omega, ?_, ?_, Or.inr ?_⟩ <;> rw [hzero, hbias] <;> decide
  · rename_i hzero
    have hzero : (@unpackExponent .binary64 b).toNat ≠ 0 := fun h =>
      hzero (BitVec.eq_of_toNat_eq h)
    have hlead := toNat_append 1#1 (@unpackMantissa .binary64 b)
    rw [show (1#1 : BitVec 1).toNat = 1 from rfl] at hlead
    dsimp only at hlead
    refine ⟨?_, ?_, ?_, Or.inl ?_⟩
    · omega
    · rw [hbias]; omega
    · rw [hbias]; omega
    · omega

theorem unpack_packComponents {s : Sign} {e : BitVec 11} {m : BitVec 52}
    (hones : e.toNat ≠ 2 ^ 11 - 1) (hzero : e.toNat ≠ 0) {M : Nat} {E : Int} (hM : 0 < M)
    (hm : 2 ^ 52 + m.toNat = M) (he : (e.toNat : Int) - 1075 = E) :
    unpack .binary64 (packComponents .binary64 s e m) = .finite s M E hM := by
  have hone : (1#1 ++ m).toNat = M := by
    rw [toNat_append, ← hm]
    rfl
  unfold unpack
  simp only [unpackMantissa_packComponents, unpackExponent_packComponents,
    unpackSign_packComponents]
  rw [if_neg fun h => hones (congrArg BitVec.toNat h),
    if_neg fun h => hzero (congrArg BitVec.toNat h)]
  simp only [hone]
  congr 1

theorem unpack_packComponents_zero {s : Sign} {m : BitVec 52} {M : Nat} (hM : 0 < M)
    (hm : m.toNat = M) :
    unpack .binary64 (packComponents .binary64 s 0#11 m) = .finite s M (-1074) hM := by
  have hne : m ≠ 0#52 := by
    rintro rfl
    exact absurd hm (Nat.ne_of_lt hM)
  unfold unpack
  simp only [unpackMantissa_packComponents, unpackExponent_packComponents,
    unpackSign_packComponents]
  rw [if_neg (by decide), if_pos trivial, dif_neg hne]
  simp only [hm]
  congr 1

theorem unpack_pack {u : UnpackedFloat} (h : Canonical u) :
    unpack .binary64 (UnpackedFloat.pack .binary64 u) = u := by
  cases u with
  | notANumber => rfl
  | infinity s => cases s <;> rfl
  | zero s => cases s <;> rfl
  | finite s m e hpos =>
    obtain ⟨hm, hlo, hhi, hform⟩ := h
    have hbiased : (e + Format.binary64.exponentBias +
        Format.binary64.mantissaBitsWithoutImplicit).toNat = (e + 1075).toNat := by
      show (e + (1023 : Nat) + (52 : Nat)).toNat = _
      omega
    have hlog : 2 ^ 52 ≤ m ↔ m.log2 + 1 = 53 := by
      have hle := Nat.le_log2 (Nat.ne_of_gt hpos) (k := 52)
      have hlt := Nat.log2_lt (Nat.ne_of_gt hpos) (k := 53)
      omega
    unfold UnpackedFloat.pack
    dsimp only
    rw [hbiased, if_neg (by show ¬ 2 ^ 11 ≤ _; omega)]
    split
    · rename_i hnormal
      have hlarge := hlog.mpr hnormal
      refine unpack_packComponents ?_ ?_ hpos ?_ ?_ <;>
        simp only [BitVec.toNat_ofNat] <;> omega
    · rename_i hsmall
      have hless : ¬ 2 ^ 52 ≤ m := fun h => hsmall (hlog.mp h)
      obtain rfl : e = -1074 := hform.resolve_left hless
      refine unpack_packComponents_zero hpos ?_
      simp only [BitVec.toNat_ofNat]
      omega

theorem canonical_toModel (a : Float) : Canonical a.toModel.unpack := canonical_unpack _

theorem unpack_ofModel_pack {u : UnpackedFloat} (h : Canonical u) :
    (Float.ofModel (.pack u)).toModel.unpack = u := unpack_pack h

/-! ## Reading the bits -/

def reading : UnpackedFloat → Decimal.Reading
  | .notANumber => .nan
  | .infinity s => .infinite (s == .negative)
  | .zero s => .finite (s == .negative) 0 (-1074)
  | .finite s m e _ => .finite (s == .negative) m e

theorem ofBitVec_beq_negative (v : BitVec 1) : (Sign.ofBitVec v == .negative) = (v.toNat == 1) := by
  revert v
  decide

theorem reading_unpack (x : Float) : Decimal.Reading.ofFloat x = reading x.toModel.unpack := by
  have hread : Decimal.Reading.ofFloat x =
      if (@unpackExponent .binary64 x.toBits.toBitVec).toNat = 2047 then
        if (@unpackMantissa .binary64 x.toBits.toBitVec).toNat = 0 then
          .infinite ((@unpackSign .binary64 x.toBits.toBitVec).toNat == 1)
        else .nan
      else if (@unpackExponent .binary64 x.toBits.toBitVec).toNat = 0 then
        .finite ((@unpackSign .binary64 x.toBits.toBitVec).toNat == 1)
          (@unpackMantissa .binary64 x.toBits.toBitVec).toNat (-1074)
      else
        .finite ((@unpackSign .binary64 x.toBits.toBitVec).toNat == 1)
          (2 ^ 52 + (@unpackMantissa .binary64 x.toBits.toBitVec).toNat)
          (((@unpackExponent .binary64 x.toBits.toBitVec).toNat : Int) - 1075) := by
    rw [toNat_unpackExponent, toNat_unpackMantissa, toNat_unpackSign]
    rfl
  have hones : (@unpackExponent .binary64 x.toBits.toBitVec).toNat = 2047 ↔
      @unpackExponent .binary64 x.toBits.toBitVec = -1#11 :=
    ⟨fun h => BitVec.eq_of_toNat_eq h, fun h => congrArg BitVec.toNat h⟩
  have hzero : (@unpackExponent .binary64 x.toBits.toBitVec).toNat = 0 ↔
      @unpackExponent .binary64 x.toBits.toBitVec = 0#11 :=
    ⟨fun h => BitVec.eq_of_toNat_eq h, fun h => congrArg BitVec.toNat h⟩
  have hnone : (@unpackMantissa .binary64 x.toBits.toBitVec).toNat = 0 ↔
      @unpackMantissa .binary64 x.toBits.toBitVec = 0#52 :=
    ⟨fun h => BitVec.eq_of_toNat_eq h, fun h => congrArg BitVec.toNat h⟩
  rw [hread]
  show _ = reading (unpack .binary64 x.toBits.toBitVec)
  unfold unpack
  dsimp only
  simp only [hones, hzero, hnone, ← ofBitVec_beq_negative]
  split
  · split <;> rfl
  split
  · rename_i hexp
    split
    · rename_i hmant
      rw [hmant]
      rfl
    · rw [hexp]
      rfl
  · unfold reading
    congr 1
    rw [toNat_append, show (1#1 : BitVec 1).toNat = 1 from rfl, Nat.one_mul]

end Splitting.Double
