import Splitting.Proofs.Double.Packing
import Splitting.Vec

/-!
# Finite doubles

A finite result of an operation comes from finite operands, and a finite norm from finite entries.
So an overflow shows in every residual that depends on it.
-/

namespace Splitting.Double

open Float.Model (Format UnpackedFloat)
open Float.Model.UnpackedFloat

theorem isFinite_of_pack {u : UnpackedFloat} (h : (Float.ofModel (.pack u)).isFinite = true) :
    u.isFinite = true := by
  cases u with
  | notANumber => exact h
  | infinity s => cases s <;> exact h
  | zero s => rfl
  | finite s m e hm => rfl

/-! ## Operands -/

section Unpacked

variable {spec : Format} {u v : UnpackedFloat}

theorem isFinite_unpacked_add (h : (UnpackedFloat.add spec u v).isFinite = true) :
    u.isFinite = true ∧ v.isFinite = true := by
  cases u <;> cases v <;> grind [UnpackedFloat.add, UnpackedFloat.isFinite]

theorem isFinite_unpacked_mul (h : (UnpackedFloat.mul spec u v).isFinite = true) :
    u.isFinite = true ∧ v.isFinite = true := by
  cases u <;> cases v <;> grind [UnpackedFloat.mul, UnpackedFloat.isFinite]

theorem isFinite_unpacked_sqrt (h : (UnpackedFloat.sqrt spec u).isFinite = true) :
    u.isFinite = true := by
  cases u with
  | infinity s => cases s <;> cases h
  | notANumber => cases h
  | zero s => rfl
  | finite s m e hm => rfl

end Unpacked

theorem isFinite_add {a b : Float} (h : (a + b).isFinite = true) :
    a.isFinite = true ∧ b.isFinite = true := isFinite_unpacked_add (isFinite_of_pack h)

theorem isFinite_mul {a b : Float} (h : (a * b).isFinite = true) :
    a.isFinite = true ∧ b.isFinite = true := isFinite_unpacked_mul (isFinite_of_pack h)

theorem isFinite_sqrt {a : Float} (h : a.sqrt.isFinite = true) : a.isFinite = true :=
  isFinite_unpacked_sqrt (isFinite_of_pack h)

/-! ## Bounds -/

/-- Neither negative infinity nor a negative number. -/
def NotNegative : UnpackedFloat → Prop
  | .infinity .negative => False
  | .finite .negative _ _ _ => False
  | _ => True

theorem notNegative_roundWithAccuracy (spec : Format) (m : Nat) (e : Int) (acc : Accuracy) :
    NotNegative (roundWithAccuracy spec .positive m e acc) := by
  unfold roundWithAccuracy
  dsimp only
  split <;> trivial

theorem notNegative_sqrt (spec : Format) (u : UnpackedFloat) :
    NotNegative (UnpackedFloat.sqrt spec u) := by
  cases u with
  | notANumber => trivial
  | infinity s => cases s <;> trivial
  | zero s => trivial
  | finite s m e hm =>
    cases s with
    | negative => trivial
    | positive => exact notNegative_roundWithAccuracy ..

theorem notNegative_unpack_packComponents (e : BitVec 11) (m : BitVec 52) :
    NotNegative (unpack .binary64 (packComponents .binary64 .positive e m)) := by
  unfold unpack
  simp only [unpackSign_packComponents]
  split
  · split <;> trivial
  split
  · split <;> trivial
  · trivial

theorem NotNegative.unpack_pack {u : UnpackedFloat} (h : NotNegative u) :
    NotNegative (unpack .binary64 (UnpackedFloat.pack .binary64 u)) := by
  cases u with
  | notANumber => trivial
  | infinity s =>
    cases s with
    | negative => exact h.elim
    | positive => trivial
  | zero s => cases s <;> trivial
  | finite s m e hm =>
    cases s with
    | negative => exact h.elim
    | positive =>
      unfold UnpackedFloat.pack
      dsimp only
      split
      · exact notNegative_unpack_packComponents _ _
      split <;> exact notNegative_unpack_packComponents _ _

theorem isFinite_of_unpacked_le {u v : UnpackedFloat} (h : u.le v = true)
    (hu : NotNegative u) (hv : v.isInf = false) : u.isFinite = true := by
  cases u with
  | notANumber => cases h
  | infinity s =>
    cases s with
    | negative => exact hu.elim
    | positive => cases v <;> first | cases h | cases hv
  | zero s => rfl
  | finite s m e hm => rfl

theorem isFinite_of_sqrt_le {y t : Float} (h : y.sqrt ≤ t) (ht : t.isInf = false) :
    y.sqrt.isFinite = true :=
  isFinite_of_unpacked_le (of_decide_eq_true h)
    (notNegative_sqrt .binary64 y.toModel.unpack).unpack_pack ht

/-! ## Zero -/

def ZeroOrNaN (u : UnpackedFloat) : Prop := u = .notANumber ∨ ∃ s, u = .zero s

theorem zeroOrNaN_zero_mul (spec : Format) (s : Sign) (u : UnpackedFloat) :
    ZeroOrNaN (UnpackedFloat.mul spec (.zero s) u) := by
  cases u with
  | notANumber => exact Or.inl rfl
  | infinity _ => exact Or.inl rfl
  | zero _ => exact Or.inr ⟨_, rfl⟩
  | finite _ _ _ _ => exact Or.inr ⟨_, rfl⟩

theorem ZeroOrNaN.canonical {u : UnpackedFloat} (h : ZeroOrNaN u) : Canonical u := by
  obtain rfl | ⟨s, rfl⟩ := h <;> trivial

theorem ZeroOrNaN.add {u v : UnpackedFloat} (h : ZeroOrNaN v) (hu : Canonical u)
    (hinf : u.isInf = false) :
    Canonical (UnpackedFloat.add .binary64 u v) ∧
      (UnpackedFloat.add .binary64 u v).isInf = false := by
  obtain rfl | ⟨s, rfl⟩ := h
  · cases u <;> exact ⟨trivial, rfl⟩
  · cases u with
    | notANumber => exact ⟨trivial, rfl⟩
    | infinity _ => cases hinf
    | zero s' => cases s <;> cases s' <;> exact ⟨trivial, rfl⟩
    | finite _ _ _ _ => exact ⟨hu, rfl⟩

theorem eq_zero_of_beq {u : UnpackedFloat} {s : Sign} (h : UnpackedFloat.beq u (.zero s) = true) :
    ∃ t, u = .zero t := by
  cases u with
  | notANumber => cases h
  | infinity t => cases t <;> cases h
  | zero t => exact ⟨t, rfl⟩
  | finite t _ _ _ => cases t <;> cases h

theorem toNat_of_unpack_zero {b : BitVec 64} {s : Sign} (h : unpack .binary64 b = .zero s) :
    b.toNat = 0 ∨ b.toNat = 2 ^ 63 := by
  have hexp := toNat_unpackExponent b
  have hmant := toNat_unpackMantissa b
  have hlt := b.isLt
  unfold unpack at h
  dsimp only at h
  split at h
  · split at h <;> cases h
  split at h
  · rename_i hzero
    split at h
    · rename_i hnone
      rw [hzero] at hexp
      rw [hnone] at hmant
      simp only [BitVec.toNat_ofNat] at hexp hmant
      omega
    · cases h
  · cases h

theorem eq_zero_or_neg_zero {a : Float} (h : (a == 0) = true) : a = 0 ∨ a = -0.0 := by
  obtain ⟨s, hs⟩ : ∃ s, a.toModel.unpack = .zero s := eq_zero_of_beq h
  have hbits : ∀ {b : Float}, a.toBits.toBitVec.toNat = b.toBits.toBitVec.toNat → a = b :=
    fun h => Float.toBits_inj.mp (UInt64.toNat_inj.mp h)
  exact (toNat_of_unpack_zero hs).imp (fun h => hbits h) (fun h => hbits h)

theorem isInf_add_zero_mul {a z : Float} (x : Float) (hz : (z == 0) = true)
    (ha : a.isInf = false) : (a + z * x).isInf = false := by
  obtain ⟨s, hs⟩ : ∃ s, z.toModel.unpack = .zero s := eq_zero_of_beq hz
  have hzero := zeroOrNaN_zero_mul .binary64 s x.toModel.unpack
  rw [← unpack_ofModel_pack hzero.canonical, ← hs] at hzero
  obtain ⟨hc, hinf⟩ := hzero.add (canonical_toModel a) ha
  rw [← unpack_ofModel_pack hc] at hinf
  exact hinf

theorem sub_self {a : Float} (h : a.isFinite = true) : a - a = (0 : Float) := by
  have hsub : ∀ u : UnpackedFloat, u.isFinite = true →
      UnpackedFloat.sub .binary64 u u = .zero .positive := by
    intro u hu
    cases u with
    | notANumber => cases hu
    | infinity s => cases hu
    | zero s => cases s <;> rfl
    | finite s m e hm =>
      simp [UnpackedFloat.sub, UnpackedFloat.normalize]
  show Float.ofModel (.pack (UnpackedFloat.sub .binary64 _ _)) = _
  rw [hsub _ h]
  rfl

/-! ## Comparison -/

theorem compare_swap (u v : UnpackedFloat) :
    UnpackedFloat.compare v u = (UnpackedFloat.compare u v).map Ordering.swap := by
  have hint (a b : Int) : compare b a = (compare a b).swap := Std.OrientedCmp.eq_swap
  have hnat (a b : Nat) : compare b a = (compare a b).swap := Std.OrientedCmp.eq_swap
  cases u with
  | notANumber => cases v with
    | infinity t => cases t <;> rfl
    | finite t _ _ _ => cases t <;> rfl
    | _ => rfl
  | infinity s => cases s <;> cases v with
    | infinity t => cases t <;> rfl
    | _ => rfl
  | zero s => cases v with
    | infinity t => cases t <;> rfl
    | finite t _ _ _ => cases t <;> rfl
    | _ => rfl
  | finite s m e hm => cases s <;> cases v with
    | infinity t => cases t <;> rfl
    | finite t m' e' hm' =>
      cases t <;> simp [UnpackedFloat.compare, hint e e', hnat m m', Ordering.swap_then]
    | _ => rfl

theorem isSome_compare {u v : UnpackedFloat} (hu : u.isNaN = false) (hv : v.isNaN = false) :
    (UnpackedFloat.compare u v).isSome = true := by
  cases u with
  | notANumber => cases hu
  | infinity s => cases s <;> cases v with
    | notANumber => cases hv
    | _ => rfl
  | zero s => cases v with
    | notANumber => cases hv
    | infinity t => cases t <;> rfl
    | zero t => rfl
    | finite t _ _ _ => cases t <;> rfl
  | finite s _ _ _ => cases s <;> cases v with
    | notANumber => cases hv
    | infinity t => cases t <;> rfl
    | zero t => rfl
    | finite t _ _ _ => cases t <;> rfl

theorem lt_of_not_le {a b : Float} (h : ¬ a ≤ b) (ha : a.isNaN = false) (hb : b.isNaN = false) :
    b < a := by
  have hle : (UnpackedFloat.compare a.toModel.unpack b.toModel.unpack).any (·.isLE) ≠ true :=
    fun hle => h (decide_eq_true hle)
  refine decide_eq_true
    (?_ : (UnpackedFloat.compare b.toModel.unpack a.toModel.unpack == some .lt) = true)
  obtain ⟨o, ho⟩ := Option.isSome_iff_exists.mp (isSome_compare ha hb)
  rw [compare_swap, ho]
  rw [ho] at hle
  cases o with
  | gt => rfl
  | lt => exact absurd rfl hle
  | eq => exact absurd rfl hle

theorem canonical_abs {u : UnpackedFloat} (h : Canonical u) : Canonical u.abs := by
  cases u with
  | finite s m e hm => exact h
  | _ => trivial

theorem kind_of_isFinite {a : Float} (h : a.isFinite = true) :
    a.isNaN = false ∧ a.isInf = false := by
  have hkind : ∀ u : UnpackedFloat, u.isFinite = true → u.isNaN = false ∧ u.isInf = false := by
    intro u hu
    cases u with
    | notANumber => cases hu
    | infinity s => cases hu
    | zero s => exact ⟨rfl, rfl⟩
    | finite s m e hm => exact ⟨rfl, rfl⟩
  exact hkind _ h

end Splitting.Double
