import Splitting.Proofs.Double.Magnitude
import Splitting.Proofs.Generation

/-!
# What the violation of inequalities notices

The violation is the root of a sum of squares. In doubles it is zero or positive, and each component
of `Fₗ xₗ - dₗ` decides by itself whether it makes the violation positive. One that is not a number
does not, nor does a positive one so small that its square underflows.
-/

namespace Splitting

theorem foldlM_eq_map {α β γ : Type} (f : α → Option β) (g : γ → β → γ) (l : List α) (s : γ) :
    (l.foldlM (fun s a => (f a).bind fun b => some (g s b)) s) =
      (l.mapM f).map fun bs => bs.foldl g s := by
  induction l generalizing s with
  | nil => rfl
  | cons a l ih =>
    rw [List.foldlM_cons, List.mapM_cons]
    cases f a with
    | none => rfl
    | some b =>
      simp only [Option.bind_eq_bind, Option.bind_some, ih]
      cases l.mapM f <;> rfl

namespace CoupledQp

open Double

/-! ## The components -/

section Components

variable {F : Type} [Scalar F]

def residuals? (prob : CoupledQp F) (xs : List (Array F)) : Option (List (Array F)) :=
  (prob.pairs? xs).bind fun l => l.mapM fun y => y.1.f.mulAdd? 1 y.2 (-1) y.1.d

theorem ineqViolation?_eq_residuals? (prob : CoupledQp F) (xs : List (Array F)) :
    prob.ineqViolation? xs =
      (prob.residuals? xs).map fun rs => Scalar.sqrt (rs.foldl addExcess 0) := by
  rw [ineqViolation?, residuals?]
  cases prob.pairs? xs with
  | none => rfl
  | some l =>
    show (l.foldlM (fun (s : F) (y : QpBlock F × Array F) =>
      (y.1.f.mulAdd? 1 y.2 (-1) y.1.d).bind fun r => some (addExcess s r)) 0).bind
        (fun s => some (Scalar.sqrt s)) = _
    rw [foldlM_eq_map, Option.bind_some, Option.bind_map, Option.map_eq_bind]
    rfl

theorem mapM_residuals {s : Nat} {bs : List (QpBlock F)} {xs : List (Array F)}
    (h : List.Forall₂ (fun b x => HasShape s x.size b.d.size b) bs xs) :
    ∃ rs, ((bs.zip xs).mapM fun y => y.1.f.mulAdd? 1 y.2 (-1) y.1.d) = some rs ∧
      rs.map Array.size = bs.map fun b => b.d.size := by
  induction h with
  | nil => exact ⟨[], rfl, rfl⟩
  | cons hb _ ih =>
    obtain ⟨r, hr, hsize⟩ := Matrix.mulAdd?_eq_some hb.f_shape rfl hb.d_size 1 (-1)
    obtain ⟨rs, hrs, hsizes⟩ := ih
    exact ⟨r :: rs, by simp [hr, hrs], by simp [hsize, hsizes]⟩

theorem Fits.residuals? {prob : CoupledQp F} {xs : List (Array F)} (h : prob.Fits xs) :
    ∃ rs, prob.residuals? xs = some rs ∧
      rs.map Array.size = prob.blocks.map fun b => b.d.size := by
  rw [CoupledQp.residuals?, h.pairs?]
  exact mapM_residuals h

end Components

/-! ## One component -/

/-- The square of the component is positive, and so is the component. -/
def Noticed (e : Float) : Prop := 0 < e ∧ 0 < e * e

/-- `2 ^ -537`, from which on no square underflows to zero. -/
def tiny : Float := powerOfTwo (-589)

theorem maxNumber_of_pos {e : Float} (h : 0 < e) : maxNumber e 0 = e := by
  have hneg : ¬ e < 0 := fun hneg => not_nonneg_of_neg hneg (nonneg_iff.mpr (pos_iff.mp h).1)
  have hnan : e.isNaN = false := (pos_iff.mp h).1.2
  rw [maxNumber, hnan, Bool.or_false, decide_eq_false hneg]
  rfl

theorem maxNumber_of_not_pos {e : Float} (h : ¬ 0 < e) :
    maxNumber e 0 = 0 ∨ maxNumber e 0 = -0.0 := by
  unfold maxNumber
  split
  · exact Or.inl rfl
  · rename_i hkept
    obtain ⟨hneg, hnan⟩ : ¬ e < 0 ∧ e.isNaN = false := by simpa using hkept
    have hzero := zero_or_pos ⟨not_neg_iff.mp hneg, hnan⟩
    exact hzero.imp_right fun hzero => hzero.resolve_right h

theorem tiny_le_noticed {e : Float} (h : tiny ≤ e) : Noticed e := by
  obtain ⟨htiny, -, hmag⟩ := powerOfTwo_spec (e := -589) (by norm_num) (by norm_num)
  have he := nonNeg_right htiny h
  have hle : power (-537) ≤ magnitude e := hmag ▸ (le_iff_extent htiny he).mp h
  have hsquare := rounds_square he.2
  refine ⟨pos_iff.mpr ⟨he, (power_pos _).trans_le hle⟩, pos_iff.mpr ⟨hsquare.nonNeg, ?_⟩⟩
  refine (power_pos (-1074)).trans_le (hsquare.power_le (by norm_num) ?_)
  rw [show (-1074 : ℤ) = -537 + -537 by norm_num, power_add]
  gcongr

theorem not_noticed_iff {e : Float} :
    ¬ Noticed e ↔ e.isNaN = true ∨ e ≤ 0 ∨ e < tiny ∧ (e * e == 0) = true := by
  constructor
  · intro h
    by_cases hnan : e.isNaN = true
    · exact Or.inl hnan
    have hnumber : e.isNaN = false := Bool.eq_false_iff.mpr hnan
    by_cases hle : e ≤ 0
    · exact Or.inr (Or.inl hle)
    have hpos : 0 < e := lt_of_not_le hle hnumber (by decide +kernel)
    have hsmall : e < tiny :=
      lt_of_not_le (fun ht => h (tiny_le_noticed ht)) (by decide +kernel) hnumber
    have hsquare : e * e = 0 ∨ e * e = -0.0 :=
      (zero_or_pos (rounds_square hnumber).nonNeg).imp_right
        fun hsquare => hsquare.resolve_right fun hsquare => h ⟨hpos, hsquare⟩
    refine Or.inr (Or.inr ⟨hsmall, ?_⟩)
    rcases hsquare with hsquare | hsquare <;> rw [hsquare] <;> decide +kernel
  · rintro (hnan | hle | ⟨-, hzero⟩) ⟨hpos, hsquare⟩
    · exact Bool.false_ne_true ((pos_iff.mp hpos).1.2.symm.trans hnan)
    · have hextent := (le_iff_extent (pos_iff.mp hpos).1 zero_nonneg).mp hle
      exact absurd ((pos_iff.mp hpos).2.trans_le hextent) (lt_irrefl _)
    · rcases eq_zero_or_neg_zero hzero with h | h <;> rw [h] at hsquare <;>
        exact absurd hsquare (by decide +kernel)

/-! ## Sums of squares -/

/-- The sum is positive if the condition holds, and zero if not. -/
def Detects (s : Float) (p : Prop) : Prop := s = 0 ∧ ¬ p ∨ 0 < s ∧ p

theorem Detects.congr {s : Float} {p q : Prop} (h : Detects s p) (hpq : p ↔ q) : Detects s q := by
  rwa [propext hpq] at h

theorem Detects.nonNeg {s : Float} {p : Prop} (h : Detects s p) : NonNeg s.toModel.unpack := by
  rcases h with ⟨rfl, -⟩ | ⟨hs, -⟩
  · exact zero_nonneg
  · exact (pos_iff.mp hs).1

theorem Detects.eq_zero_iff {s : Float} {p : Prop} (h : Detects s p) : s = 0 ↔ ¬ p := by
  rcases h with ⟨rfl, hp⟩ | ⟨hs, hp⟩
  · exact iff_of_true rfl hp
  · refine iff_of_false ?_ (not_not_intro hp)
    rintro rfl
    exact absurd hs (by decide +kernel)

theorem excess_square (e : Float) :
    Noticed e ∧ 0 < maxNumber e 0 * maxNumber e 0 ∨ ¬ Noticed e ∧
      (maxNumber e 0 * maxNumber e 0 = 0 ∨ maxNumber e 0 * maxNumber e 0 = -0.0) := by
  by_cases hpos : 0 < e
  · rw [maxNumber_of_pos hpos]
    rcases zero_or_pos (rounds_square (pos_iff.mp hpos).1.2).nonNeg with h | h | h
    · exact Or.inr ⟨fun hn => absurd (h ▸ hn.2) (by decide +kernel), Or.inl h⟩
    · exact Or.inr ⟨fun hn => absurd (h ▸ hn.2) (by decide +kernel), Or.inr h⟩
    · exact Or.inl ⟨⟨hpos, h⟩, h⟩
  · refine Or.inr ⟨fun hn => hpos hn.1, Or.inl ?_⟩
    rcases maxNumber_of_not_pos hpos with h | h <;> rw [h] <;> decide +kernel

theorem Detects.add {s : Float} {p : Prop} (h : Detects s p) (e : Float) :
    Detects (s + maxNumber e 0 * maxNumber e 0) (p ∨ Noticed e) := by
  rcases excess_square e with ⟨hnoticed, hsquare⟩ | ⟨hmissed, hsquare⟩
  · exact Or.inr ⟨pos_add h.nonNeg (pos_iff.mp hsquare).1 (Or.inr hsquare), Or.inr hnoticed⟩
  · rcases h with ⟨rfl, hp⟩ | ⟨hs, hp⟩
    · refine Or.inl ⟨?_, not_or.mpr ⟨hp, hmissed⟩⟩
      rcases hsquare with hsquare | hsquare <;> rw [hsquare] <;> decide +kernel
    · refine Or.inr ⟨pos_add (pos_iff.mp hs).1 ?_ (Or.inl hs), Or.inl hp⟩
      rcases hsquare with hsquare | hsquare <;> rw [hsquare] <;>
        exact nonneg_iff.mp (by decide +kernel)

theorem Detects.sqrt {s : Float} {p : Prop} (h : Detects s p) : Detects s.sqrt p := by
  rcases h with ⟨rfl, hp⟩ | ⟨hs, hp⟩
  · exact Or.inl ⟨by decide +kernel, hp⟩
  · exact Or.inr ⟨pos_sqrt hs, hp⟩

theorem Detects.addExcess {s : Float} {p : Prop} (h : Detects s p) (r : Array Float) :
    Detects (addExcess s r) (p ∨ ∃ e ∈ r, Noticed e) := by
  obtain ⟨l⟩ := r
  rw [CoupledQp.addExcess, List.foldl_toArray]
  simp only [List.mem_toArray]
  induction l generalizing s p with
  | nil => exact h.congr (by simp)
  | cons e l ih => exact (ih (h.add e)).congr (by simp [or_assoc])

theorem Detects.foldl {s : Float} {p : Prop} (h : Detects s p) (rs : List (Array Float)) :
    Detects (rs.foldl CoupledQp.addExcess s) (p ∨ ∃ r ∈ rs, ∃ e ∈ r, Noticed e) := by
  induction rs generalizing s p with
  | nil => exact h.congr (by simp)
  | cons r rs ih => exact (ih (h.addExcess r)).congr (by simp [or_assoc])

/-! ## The violation -/

/-- The violation is zero or positive. It is zero just if every component, as it is computed, is not
a number, or not positive, or so small that its square underflows. -/
theorem ineqViolation?_eq_zero_iff {prob : CoupledQp Float} {xs : List (Array Float)}
    (h : prob.Fits xs) : ∃ rs v, prob.residuals? xs = some rs ∧
      (rs.map Array.size = prob.blocks.map fun b => b.d.size) ∧
      prob.ineqViolation? xs = some v ∧ (v = 0 ∨ 0 < v) ∧
      (v = 0 ↔ ∀ r ∈ rs, ∀ e ∈ r,
        e.isNaN = true ∨ e ≤ 0 ∨ e < tiny ∧ (e * e == 0) = true) := by
  obtain ⟨rs, hrs, hsizes⟩ := h.residuals?
  have hdetects := (Detects.foldl (Or.inl ⟨rfl, not_false⟩ : Detects 0 False) rs).sqrt
  refine ⟨rs, _, hrs, hsizes, ?_, hdetects.imp And.left And.left, ?_⟩
  · rw [ineqViolation?_eq_residuals?, hrs]
    rfl
  · rw [hdetects.eq_zero_iff]
    simp only [false_or, not_exists, not_and, not_noticed_iff]

/-- Two variables with one bound, `4 x - 2 y ≤ 0`. -/
def steep : CoupledQp Float where
  blocks := [⟨.ofStored (.packed 2) #[1, 0, 1], #[0, 0], .ofStored (.general 1 2) #[4, -2], #[0],
    .ofStored (.general 1 2) #[1, 1]⟩]
  rhs := #[0]

theorem steep_fits (x y : Float) : steep.Fits [#[x, y]] :=
  .cons ⟨rfl, rfl, rfl, rfl, rfl⟩ .nil

theorem steep_positive :
    steep.Fits [#[1, 1]] ∧ ∃ v, steep.ineqViolation? [#[1, 1]] = some v ∧ 0 < v := by
  obtain ⟨rs, v, hrs, -, hv, hsign, hzero⟩ := ineqViolation?_eq_zero_iff (steep_fits 1 1)
  refine ⟨steep_fits 1 1, v, hv, hsign.resolve_left fun h => ?_⟩
  have hresidual : steep.residuals? [#[1, 1]] = some [#[2]] := by decide +kernel
  obtain rfl : [#[2]] = rs := Option.some.inj (hresidual.symm.trans hrs)
  exact absurd (hzero.mp h #[2] List.mem_cons_self 2 (by simp)) (by decide +kernel)

/-- Neither a bound exceeded by `2e308`, where the products overflow to infinities of both signs,
nor one exceeded by `4e-200`, whose square underflows, makes the violation positive. -/
theorem steep_unnoticed :
    steep.Fits [#[1e308, 1e308]] ∧ steep.residuals? [#[1e308, 1e308]] = some [#[0 / 0]] ∧
      (0 / 0 : Float).isNaN = true ∧ steep.ineqViolation? [#[1e308, 1e308]] = some 0 ∧
    steep.Fits [#[1e-200, 0]] ∧ steep.residuals? [#[1e-200, 0]] = some [#[4e-200]] ∧
      (0 : Float) < 4e-200 ∧ steep.ineqViolation? [#[1e-200, 0]] = some 0 := by
  refine ⟨steep_fits _ _, ?_, ?_, ?_, steep_fits _ _, ?_, ?_, ?_⟩ <;> decide +kernel

end CoupledQp

end Splitting
