import Splitting.Proofs.Double.Binade

/-!
# The magnitude of doubles

Sign and magnitude of a double decide how it compares with zero, and what rounding makes of a
square, of a difference and of a quotient.
-/

namespace Splitting.Double

open Float.Model (Format UnpackedFloat)
open Float.Model.UnpackedFloat

noncomputable def magnitude (a : Float) : ENNReal := extent a.toModel.unpack

theorem pos_iff {a : Float} : 0 < a ↔ NonNeg a.toModel.unpack ∧ 0 < magnitude a := by
  rw [lt_iff]
  show UnpackedFloat.lt (.zero .positive) _ = true ↔ _ ∧ 0 < extent _
  cases a.toModel.unpack with
  | notANumber => exact iff_of_false Bool.noConfusion fun h => Bool.noConfusion h.1.2
  | zero s => exact iff_of_false Bool.noConfusion fun h => lt_irrefl _ h.2
  | infinity s =>
    cases s with
    | negative => exact iff_of_false Bool.noConfusion fun h => h.1.1
    | positive => exact iff_of_true rfl ⟨⟨trivial, rfl⟩, ENNReal.zero_lt_top⟩
  | finite s m e hm =>
    cases s with
    | negative => exact iff_of_false Bool.noConfusion fun h => h.1.1
    | positive => exact iff_of_true rfl ⟨⟨trivial, rfl⟩, extent_pos hm e⟩

theorem nonneg_iff {a : Float} : 0 ≤ a ↔ NonNeg a.toModel.unpack := zero_le_iff

theorem magnitude_lt_of_isFinite {a : Float} (h : a.isFinite = true) :
    magnitude a < power 1024 := by
  have hcanonical := canonical_toModel a
  have h : a.toModel.unpack.isFinite = true := h
  show extent _ < _
  generalize a.toModel.unpack = u at hcanonical h
  cases u with
  | notANumber => cases h
  | infinity s => cases h
  | zero s => exact power_pos _
  | finite s m e hm =>
    refine extent_lt_power.mpr (hcanonical.normal.value_lt.trans_le ?_)
    exact zpow_le_zpow_right₀ one_le_two (by have := hcanonical.2.2.1; omega)

theorem eq_infinity {a : Float} (ha : NonNeg a.toModel.unpack) (h : a.isFinite = false) :
    a.toModel.unpack = .infinity .positive := by
  have h : a.toModel.unpack.isFinite = false := h
  rcases ha.cases with ⟨s, hu⟩ | hu | ⟨m, e, hm, hu⟩
  · rw [hu] at h
    cases h
  · exact hu
  · rw [hu] at h
    cases h

theorem le_magnitude {a : Float} (h : 0 < a) : power (-1074) ≤ magnitude a := by
  obtain ⟨ha, hpos⟩ := pos_iff.mp h
  have hcanonical := canonical_toModel a
  have hpos : 0 < extent a.toModel.unpack := hpos
  show _ ≤ extent _
  generalize a.toModel.unpack = u at ha hpos hcanonical
  rcases ha.cases with ⟨s, rfl⟩ | rfl | ⟨m, e, hm, rfl⟩
  · exact absurd hpos (lt_irrefl _)
  · exact le_top
  · have hone : 2 ^ 0 ≤ m := hm
    refine power_le_extent.mpr (le_trans ?_ (value_le_value hone))
    rw [value_pow]
    exact zpow_le_zpow_right₀ one_le_two (by simpa using hcanonical.2.1)

/-! ## Rounded results -/

theorem rounds_square {a : Float} (h : a.isNaN = false) :
    Rounds (magnitude a * magnitude a) (a * a).toModel.unpack := by
  have hcanonical := canonical_abs (canonical_toModel a)
  have h : a.toModel.unpack.isNaN = false := h
  rw [unpack_mul]
  show Rounds (extent _ * extent _) _
  generalize a.toModel.unpack = u at hcanonical h
  have habs : extent u.abs = extent u ∧ NonNeg u.abs ∧
      UnpackedFloat.mul .binary64 u.abs u.abs = UnpackedFloat.mul .binary64 u u ∧
      (UnpackedFloat.mul .binary64 u u).isNaN = false := by
    cases u with
    | notANumber => cases h
    | zero s => cases s <;> exact ⟨rfl, ⟨trivial, rfl⟩, rfl, rfl⟩
    | infinity s => cases s <;> exact ⟨rfl, ⟨trivial, rfl⟩, rfl, rfl⟩
    | finite s m e hm =>
      cases s <;> exact ⟨rfl, ⟨trivial, rfl⟩, rfl, isNaN_roundWithAccuracy _ _ _ _⟩
  obtain ⟨hextent, hnonneg, hmul, hnumber⟩ := habs
  rw [← hextent, ← hmul]
  exact rounds_mul hcanonical hcanonical hnonneg hnonneg (hmul ▸ hnumber)

theorem magnitude_le_of_square {a : Float} (ha : a.isNaN = false)
    (h : (a * a).isFinite = true) : magnitude a ≤ power 512 := by
  by_contra! hbig
  have hover : magnitude (a * a) = ⊤ := by
    refine (rounds_square ha).eq_top ?_
    rw [show (1024 : ℤ) = 512 + 512 by norm_num, power_add]
    gcongr
  have hlt := magnitude_lt_of_isFinite h
  rw [hover] at hlt
  exact not_top_lt hlt

theorem rounds_sub_of_neg {a b : Float} (ha : NonNeg a.toModel.unpack) (hb : b < 0) :
    Rounds (magnitude a + magnitude b) (a - b).toModel.unpack := by
  have hca := canonical_toModel a
  have hcb := canonical_abs (canonical_toModel b)
  have hneg : b.toModel.unpack.lt (.zero .positive) = true := lt_iff.mp hb
  have hsub : (a - b).toModel.unpack =
      settle (UnpackedFloat.sub .binary64 a.toModel.unpack b.toModel.unpack) := rfl
  rw [hsub]
  show Rounds (extent _ + extent _) _
  generalize a.toModel.unpack = u at ha hca
  generalize b.toModel.unpack = v at hneg hcb
  have habs : extent v.abs = extent v ∧ NonNeg v.abs ∧
      UnpackedFloat.add .binary64 u v.abs = UnpackedFloat.sub .binary64 u v := by
    cases v with
    | notANumber => cases hneg
    | zero s => cases hneg
    | infinity s =>
      cases s with
      | positive => cases hneg
      | negative =>
        refine ⟨rfl, ⟨trivial, rfl⟩, ?_⟩
        rcases ha.cases with ⟨s, rfl⟩ | rfl | ⟨m, e, hm, rfl⟩ <;> rfl
    | finite s n f hn =>
      cases s with
      | positive => cases hneg
      | negative =>
        refine ⟨rfl, ⟨trivial, rfl⟩, ?_⟩
        rcases ha.cases with ⟨s, rfl⟩ | rfl | ⟨m, e, hm, rfl⟩
        · rfl
        · rfl
        · simp [UnpackedFloat.add, UnpackedFloat.sub, UnpackedFloat.abs, Sign.apply]
  obtain ⟨hextent, hnonneg, hadd⟩ := habs
  rw [← hextent, ← hadd]
  exact rounds_add hca hcb ha hnonneg

theorem rounds_mul_of_finite {a b : Float} (ha : NonNeg a.toModel.unpack)
    (hb : NonNeg b.toModel.unpack) (hfa : a.isFinite = true) (hfb : b.isFinite = true) :
    Rounds (magnitude a * magnitude b) (a * b).toModel.unpack := by
  refine rounds_unpack_mul ha hb ?_
  have hfa : a.toModel.unpack.isFinite = true := hfa
  have hfb : b.toModel.unpack.isFinite = true := hfb
  generalize a.toModel.unpack = u at hfa
  generalize b.toModel.unpack = v at hfb
  cases u <;> cases v <;> first | cases hfa; done | cases hfb; done | rfl |
    exact isNaN_roundWithAccuracy _ _ _ _

theorem Rounds.magnitude_le {x : ENNReal} {u : UnpackedFloat} (h : Rounds x u) {a : Float}
    (ha : NonNeg a.toModel.unpack) (hx : magnitude a ≤ x) : magnitude a ≤ extent u :=
  (rounds_self (canonical_toModel a) ha).mono h hx

/-! ## Compared with zero -/

theorem isNaN_of_lt {a b : Float} (h : a < b) : a.isNaN = false := by
  have h : a.toModel.unpack.lt b.toModel.unpack = true := lt_iff.mp h
  show a.toModel.unpack.isNaN = false
  cases hu : a.toModel.unpack with
  | notANumber =>
    rw [hu] at h
    cases b.toModel.unpack <;> cases h
  | _ => rfl

/-- The second operand of an operation that nothing rescues from one that is not a number. -/
theorem isNaN_right {op : UnpackedFloat → UnpackedFloat → UnpackedFloat}
    (hop : ∀ u, op u .notANumber = .notANumber) {a b : Float}
    (h : (settle (op a.toModel.unpack b.toModel.unpack)).isNaN = false) : b.isNaN = false := by
  show b.toModel.unpack.isNaN = false
  cases hv : b.toModel.unpack with
  | notANumber =>
    rw [hv, hop] at h
    cases h
  | _ => rfl

theorem isNaN_right_of_sub {a b : Float} (h : (a - b).isNaN = false) : b.isNaN = false :=
  isNaN_right (fun u => show UnpackedFloat.sub .binary64 u .notANumber = _ by cases u <;> rfl) h

theorem isNaN_right_of_div {a b : Float} (h : (a / b).isNaN = false) : b.isNaN = false :=
  isNaN_right (fun u => show UnpackedFloat.div .binary64 u .notANumber = _ by cases u <;> rfl) h

theorem zero_or_pos {a : Float} (h : NonNeg a.toModel.unpack) : a = 0 ∨ a = -0.0 ∨ 0 < a := by
  rcases h.cases with ⟨s, hu⟩ | hu | ⟨m, e, hm, hu⟩
  · have hbeq : UnpackedFloat.beq a.toModel.unpack (.zero .positive) = true := by
      rw [hu]
      rfl
    exact (eq_zero_or_neg_zero hbeq).imp_right Or.inl
  · refine Or.inr (Or.inr (pos_iff.mpr ⟨h, ?_⟩))
    rw [magnitude, hu]
    exact ENNReal.zero_lt_top
  · refine Or.inr (Or.inr (pos_iff.mpr ⟨h, ?_⟩))
    rw [magnitude, hu]
    exact extent_pos hm e

theorem pos_add {a b : Float} (ha : NonNeg a.toModel.unpack) (hb : NonNeg b.toModel.unpack)
    (h : 0 < a ∨ 0 < b) : 0 < a + b := by
  have hrounds := rounds_unpack_add ha hb
  refine pos_iff.mpr ⟨hrounds.nonNeg, ?_⟩
  rcases h with h | h
  · exact (pos_iff.mp h).2.trans_le (hrounds.magnitude_le ha le_self_add)
  · exact (pos_iff.mp h).2.trans_le (hrounds.magnitude_le hb le_add_self)

theorem pos_add_zero {s : Float} (hs : 0 < s) : 0 < s + 0 :=
  pos_add (pos_iff.mp hs).1 zero_nonneg (Or.inl hs)

theorem pos_sqrt {a : Float} (h : 0 < a) : 0 < a.sqrt := by
  have hnonneg := (pos_iff.mp h).1
  refine pos_iff.mpr ⟨nonNeg_sqrt hnonneg, (power_pos (-537)).trans_le ?_⟩
  exact power_le_sqrt hnonneg (by norm_num) (le_magnitude h)

theorem not_nonneg_of_neg {a : Float} (h : a < 0) : ¬0 ≤ a := by
  intro hle
  have h : a.toModel.unpack.lt (.zero .positive) = true := lt_iff.mp h
  rcases (nonneg_iff.mp hle).cases with ⟨s, hu⟩ | hu | ⟨m, e, hm, hu⟩ <;> rw [hu] at h <;> cases h

theorem not_pos_div_infinity (a : Float) {b : Float} (hb : b.toModel.unpack = .infinity .positive) :
    ¬0 < a / b := by
  have hdiv : (a / b).toModel.unpack =
      settle (UnpackedFloat.div .binary64 a.toModel.unpack b.toModel.unpack) := rfl
  have hcases : (∃ s, UnpackedFloat.div .binary64 a.toModel.unpack (.infinity .positive) =
      .zero s) ∨
      UnpackedFloat.div .binary64 a.toModel.unpack (.infinity .positive) = .notANumber := by
    cases a.toModel.unpack with
    | notANumber => exact Or.inr rfl
    | infinity s => exact Or.inr rfl
    | zero s => exact Or.inl ⟨_, rfl⟩
    | finite s m e hm => exact Or.inl ⟨_, rfl⟩
  intro hpos
  obtain ⟨hnonneg, hextent⟩ := pos_iff.mp hpos
  have hextent : 0 < extent (a / b).toModel.unpack := hextent
  rw [hdiv, hb] at hnonneg hextent
  rcases hcases with ⟨s, h⟩ | h <;> rw [h] at hnonneg hextent
  · rw [settle_zero] at hextent
    exact lt_irrefl _ hextent
  · cases hnonneg.2

theorem notNegative_div {u v : UnpackedFloat} (hu : NonNeg u) (hv : NonNeg v)
    (hpos : 0 < extent v) : NotNegative (UnpackedFloat.div .binary64 u v) := by
  rcases hv.cases with ⟨s, rfl⟩ | rfl | ⟨n, f, hn, rfl⟩
  · exact absurd hpos (lt_irrefl _)
  · rcases hu.cases with ⟨s, rfl⟩ | rfl | ⟨m, e, hm, rfl⟩ <;> trivial
  · rcases hu.cases with ⟨s, rfl⟩ | rfl | ⟨m, e, hm, rfl⟩
    · trivial
    · trivial
    · exact notNegative_roundWithAccuracy _ _ _ _

/-! ## Not negative -/

theorem not_neg_iff {a : Float} : ¬ a < 0 ↔ NotNegative a.toModel.unpack := by
  rw [lt_iff]
  show ¬ UnpackedFloat.lt _ (.zero .positive) = true ↔ _
  cases a.toModel.unpack with
  | notANumber => exact iff_of_true Bool.noConfusion trivial
  | zero s => exact iff_of_true Bool.noConfusion trivial
  | infinity s =>
    cases s with
    | negative => exact iff_of_false (not_not_intro rfl) id
    | positive => exact iff_of_true Bool.noConfusion trivial
  | finite s m e hm =>
    cases s with
    | negative => exact iff_of_false (not_not_intro rfl) id
    | positive => exact iff_of_true Bool.noConfusion trivial

theorem nonNeg_or_nan {u : UnpackedFloat} (h : NotNegative u) : NonNeg u ∨ u = .notANumber := by
  cases u with
  | notANumber => exact Or.inr rfl
  | _ => exact Or.inl ⟨h, rfl⟩

theorem pos_of_lt {t e : Float} (ht : ¬ t < 0) (h : t < e) : 0 < e := by
  have ht := nonNeg_or_nan (not_neg_iff.mp ht)
  have h := lt_iff.mp h
  refine lt_iff.mpr ?_
  show UnpackedFloat.lt (.zero .positive) _ = true
  generalize t.toModel.unpack = u at ht h
  generalize e.toModel.unpack = v at h
  rcases ht with ht | rfl
  · rcases ht.cases with ⟨r, rfl⟩ | rfl | ⟨n, f, hn, rfl⟩ <;> cases v with
    | notANumber => cases h
    | zero s => cases h
    | infinity s => cases s <;> first | rfl | cases h
    | finite s m e hm => cases s <;> first | rfl | cases h
  · cases v <;> cases h

theorem notNegative_mul {u v : UnpackedFloat} (hu : NotNegative u) (hv : NotNegative v) :
    NotNegative (UnpackedFloat.mul .binary64 u v) := by
  rcases nonNeg_or_nan hu with hu | rfl
  · rcases nonNeg_or_nan hv with hv | rfl
    · rcases hu.cases with ⟨s, rfl⟩ | rfl | ⟨m, e, hm, rfl⟩ <;>
        rcases hv.cases with ⟨t, rfl⟩ | rfl | ⟨n, f, hn, rfl⟩
      all_goals first | trivial | exact notNegative_roundWithAccuracy ..
    · cases u <;> trivial
  · trivial

theorem not_neg_mul {a b : Float} (ha : ¬ a < 0) (hb : ¬ b < 0) : ¬ a * b < 0 := by
  rw [not_neg_iff, unpack_mul]
  exact (notNegative_mul (not_neg_iff.mp ha) (not_neg_iff.mp hb)).unpack_pack

theorem notNegative_ofScientific (m : ℕ) (e : ℤ) :
    NotNegative (UnpackedFloat.ofScientific .binary64 m e) := by
  unfold UnpackedFloat.ofScientific
  split
  · trivial
  split
  · trivial
  split
  · trivial
  split
  · exact notNegative_mul trivial trivial
  · exact notNegative_roundWithAccuracy ..

theorem notNegative_ofNat (n : ℕ) : NotNegative (UnpackedFloat.ofNat .binary64 n) := by
  unfold UnpackedFloat.ofNat UnpackedFloat.ofInt UnpackedFloat.normalize
  split
  · rename_i h
    exact absurd (Int.natCast_nonneg n) (not_le.mpr (compare_lt_iff_lt.mp h))
  · trivial
  · exact notNegative_roundWithAccuracy ..

theorem not_neg_ofNat (n : ℕ) : ¬ Float.ofNat n < 0 := by
  show ¬ Float.ofScientific n false 0 < 0
  unfold Float.ofScientific
  split
  · have hone : ¬ Float.exactlyRepresentablePowersOfTen[0] < 0 := by decide +kernel
    exact not_neg_mul (not_neg_iff.mpr (notNegative_ofNat _).unpack_pack) hone
  · exact not_neg_iff.mpr (notNegative_ofScientific n 0).unpack_pack

theorem not_neg_maxNumber_one (x : Float) : ¬ maxNumber x 1 < 0 := by
  unfold maxNumber
  split
  · decide +kernel
  · rename_i h
    obtain ⟨hlt, hnan⟩ : ¬ x < 1 ∧ x.isNaN = false := by simpa using h
    have hone : NonNeg (1 : Float).toModel.unpack := nonneg_iff.mp (by decide +kernel)
    have hle : 1 ≤ x := by
      by_contra hle
      exact hlt (lt_of_not_le hle (by decide +kernel) hnan)
    exact fun hneg => not_nonneg_of_neg hneg (nonneg_iff.mpr (nonNeg_right hone hle))

/-! ## Powers of two -/

/-- The double `2 ^ (e + 52)`. -/
def powerOfTwo (e : ℤ) : Float :=
  .ofModel (.pack (.finite .positive (2 ^ 52) e (Nat.two_pow_pos 52)))

theorem powerOfTwo_spec {e : ℤ} (hlo : -1074 ≤ e) (hhi : e ≤ 971) :
    NonNeg (powerOfTwo e).toModel.unpack ∧ (powerOfTwo e).isFinite = true ∧
      magnitude (powerOfTwo e) = power (e + 52) := by
  have hunpack : (powerOfTwo e).toModel.unpack = .finite .positive (2 ^ 52) e _ :=
    unpack_ofModel_pack (by exact ⟨by norm_num, hlo, hhi, Or.inl le_rfl⟩)
  refine ⟨?_, ?_, ?_⟩
  · rw [hunpack]
    exact ⟨trivial, rfl⟩
  · show UnpackedFloat.isFinite _ = true
    rw [hunpack]
    rfl
  · show extent _ = _
    rw [hunpack]
    show ENNReal.ofReal _ = _
    rw [value_pow]
    rfl

theorem rounds_powerOfTwo_mul {e : ℤ} (hlo : -1074 ≤ e) (hhi : e ≤ 971) {a : Float}
    (ha : NonNeg a.toModel.unpack) (h : a.isFinite = true) :
    Rounds (power (e + 52) * magnitude a) (powerOfTwo e * a).toModel.unpack := by
  obtain ⟨hnonneg, hfinite, hmag⟩ := powerOfTwo_spec hlo hhi
  rw [← hmag]
  exact rounds_mul_of_finite hnonneg ha hfinite h

theorem two_eq : powerOfTwo (-51) = 2 := by decide +kernel

theorem four_eq : powerOfTwo (-50) = 4 := by decide +kernel

theorem pos_mul_one {s : Float} (hs : 0 < s) (h : s.isFinite = true) : 0 < s * 1 := by
  obtain ⟨hone, hfin, hmag⟩ := powerOfTwo_spec (e := -52) (by norm_num) (by norm_num)
  rw [show powerOfTwo (-52) = 1 by decide +kernel] at hone hfin hmag
  obtain ⟨hnonneg, hpos⟩ := pos_iff.mp hs
  have hrounds := rounds_mul_of_finite hnonneg hone h hfin
  have hle : magnitude s ≤ magnitude s * magnitude 1 := by
    rw [hmag]
    simp [power]
  exact pos_iff.mpr ⟨hrounds.nonNeg, hpos.trans_le (hrounds.magnitude_le hnonneg hle)⟩

end Splitting.Double
