import Splitting.Proofs.Covariance
import Splitting.Proofs.Double.Magnitude

/-!
# Eigenvalues that collapse

In doubles the eigenvalue map of the log-determinant block has positive values, except that a
negative eigenvalue may be mapped to zero: if the discriminant overflows or the step size is tiny.
Only values that are not finite are refused, so the answer may be singular then.
-/

namespace Splitting

open Float.Model (Format UnpackedFloat)
open Float.Model.UnpackedFloat

namespace LogDet

open Double

/-! ## The eigenvalue map -/

def discriminant (t e : Float) : Float := e * e + 4 * t

/-- A negative eigenvalue whose discriminant is too large. -/
def Overflows (t e : Float) : Prop := e < 0 ∧ (discriminant t e).isFinite = false

instance (t e : Float) : Decidable (Overflows t e) := inferInstanceAs (Decidable (_ ∧ _))

/-- An eigenvalue that overflows, or any negative one at a tiny step. -/
def MayCollapse (t e : Float) : Prop := Overflows t e ∨ e < 0 ∧ t < 1e-169

instance (t e : Float) : Decidable (MayCollapse t e) := inferInstanceAs (Decidable (_ ∨ _ ∧ _))

theorem root_eq_ite (t e : Float) : root t e =
    if 0 ≤ e then (e + (discriminant t e).sqrt) / 2
    else 2 * t / ((discriminant t e).sqrt - e) := by
  have htwo : (Scalar.two : Float) = 2 := by decide +kernel
  have hfour : (2 + 2 : Float) = 4 := by decide +kernel
  unfold root
  rw [htwo]
  show (if 0 ≤ e then (e + (e * e + (2 + 2) * t).sqrt) / 2
    else 2 * t / ((e * e + (2 + 2) * t).sqrt - e)) = _
  rw [hfour]
  rfl

theorem isNaN_of_root_isFinite {t e : Float} (h : (root t e).isFinite = true) :
    e.isNaN = false := by
  rw [root_eq_ite] at h
  split at h
  · rename_i he
    exact (nonneg_iff.mp he).2
  · exact isNaN_right_of_sub (isNaN_right_of_div (kind_of_isFinite h).1)

section Root

variable {t e : Float} (ht : 0 < t) (hfinite : t.isFinite = true)

include ht hfinite

theorem rounds_two_mul : Rounds (power 1 * magnitude t) (2 * t).toModel.unpack := by
  rw [← two_eq]
  exact rounds_powerOfTwo_mul (e := -51) (by norm_num) (by norm_num) (pos_iff.mp ht).1 hfinite

theorem rounds_four_mul : Rounds (power 2 * magnitude t) (4 * t).toModel.unpack := by
  rw [← four_eq]
  exact rounds_powerOfTwo_mul (e := -50) (by norm_num) (by norm_num) (pos_iff.mp ht).1 hfinite

variable (he : e.isNaN = false)

include he

theorem rounds_discriminant :
    Rounds (magnitude (e * e) + magnitude (4 * t)) (discriminant t e).toModel.unpack :=
  rounds_unpack_add (rounds_square he).nonNeg (rounds_four_mul ht hfinite).nonNeg

theorem nonNeg_sqrt_discriminant : NonNeg (discriminant t e).sqrt.toModel.unpack :=
  nonNeg_sqrt (rounds_discriminant ht hfinite he).nonNeg

theorem power_le_sqrt_discriminant : power (-536) ≤ magnitude (discriminant t e).sqrt := by
  have hfour : power (-1072) ≤ magnitude (4 * t) := by
    refine (rounds_four_mul ht hfinite).power_le (by norm_num) ?_
    rw [show (-1072 : ℤ) = 2 + -1074 by norm_num, power_add]
    gcongr
    exact le_magnitude ht
  have hsum : power (-1072) ≤ magnitude (discriminant t e) :=
    (rounds_discriminant ht hfinite he).power_le (by norm_num) (hfour.trans le_add_self)
  exact power_le_sqrt (rounds_discriminant ht hfinite he).nonNeg (by norm_num) hsum

omit he

theorem root_pos_of_nonneg (h : 0 ≤ e) : 0 < root t e := by
  have hnonneg := nonneg_iff.mp h
  have he : e.isNaN = false := hnonneg.2
  have hsum := rounds_unpack_add hnonneg (nonNeg_sqrt_discriminant ht hfinite he)
  have hlarge : power (-536) ≤ magnitude (e + (discriminant t e).sqrt) :=
    hsum.power_le (by norm_num)
      ((power_le_sqrt_discriminant ht hfinite he).trans le_add_self)
  obtain ⟨htwo, -, hmag⟩ := powerOfTwo_spec (e := -51) (by norm_num) (by norm_num)
  rw [two_eq] at htwo hmag
  have hpos : 0 < magnitude 2 := by
    rw [hmag]
    exact power_pos _
  obtain ⟨hroot, hpower⟩ := power_le_div hsum.nonNeg htwo hpos hlarge hmag.le (by norm_num)
  rw [root_eq_ite, if_pos h]
  exact pos_iff.mpr ⟨hroot, (power_pos _).trans_le hpower⟩

section Negative

variable (hneg : e < 0)

include hneg

theorem rounds_gap : Rounds (magnitude (discriminant t e).sqrt + magnitude e)
    ((discriminant t e).sqrt - e).toModel.unpack :=
  rounds_sub_of_neg (nonNeg_sqrt_discriminant ht hfinite (isNaN_of_lt hneg)) hneg

theorem gap_pos : 0 < magnitude ((discriminant t e).sqrt - e) :=
  (power_pos (-536)).trans_le ((rounds_gap ht hfinite hneg).power_le (by norm_num)
    ((power_le_sqrt_discriminant ht hfinite (isNaN_of_lt hneg)).trans le_self_add))

theorem root_nonneg_of_neg (h : (root t e).isFinite = true) : 0 ≤ root t e := by
  rw [root_eq_ite, if_neg (not_nonneg_of_neg hneg)] at h ⊢
  refine nonneg_iff.mpr ⟨?_, (kind_of_isFinite h).1⟩
  exact (notNegative_div (rounds_two_mul ht hfinite).nonNeg (rounds_gap ht hfinite hneg).nonNeg
    (gap_pos ht hfinite hneg)).unpack_pack

theorem gap_le (hdisc : (discriminant t e).isFinite = true) :
    magnitude ((discriminant t e).sqrt - e) ≤ power 513 := by
  have he := isNaN_of_lt hneg
  have hsmall := magnitude_le_of_square he (isFinite_add hdisc).1
  have hroot : magnitude (discriminant t e).sqrt ≤ power 512 :=
    sqrt_le_power (rounds_discriminant ht hfinite he).nonNeg (by norm_num) (by norm_num)
      (magnitude_lt_of_isFinite hdisc)
  refine (rounds_gap ht hfinite hneg).le_power (by norm_num) (by norm_num) ?_
  rw [show (513 : ℤ) = 512 + 1 by norm_num, power_succ]
  gcongr

theorem root_pos_of_neg (hdisc : (discriminant t e).isFinite = true) (hlarge : 1e-169 ≤ t) :
    0 < root t e := by
  have hstep : power (-562) ≤ magnitude t := by
    obtain ⟨hleast, -, hmag⟩ := powerOfTwo_spec (e := -614) (by norm_num) (by norm_num)
    have hle := le_trans_of_nonneg hleast (by decide +kernel) hlarge
    have hle := (le_iff_extent hleast (pos_iff.mp ht).1).mp hle
    exact hmag.symm.trans_le hle
  have htwo : power (-561) ≤ magnitude (2 * t) := by
    refine (rounds_two_mul ht hfinite).power_le (by norm_num) ?_
    rw [show (-561 : ℤ) = 1 + -562 by norm_num, power_add]
    gcongr
  obtain ⟨hnonneg, hpower⟩ := power_le_div (rounds_two_mul ht hfinite).nonNeg
    (rounds_gap ht hfinite hneg).nonNeg (gap_pos ht hfinite hneg) htwo
    (gap_le ht hfinite hneg hdisc) (by norm_num)
  rw [root_eq_ite, if_neg (not_nonneg_of_neg hneg)]
  exact pos_iff.mpr ⟨hnonneg, (power_pos _).trans_le hpower⟩

theorem root_not_pos_of_overflow (hdisc : (discriminant t e).isFinite = false) :
    ¬0 < root t e := by
  have hinf := eq_infinity (rounds_discriminant ht hfinite (isNaN_of_lt hneg)).nonNeg hdisc
  have hsqrt : magnitude (discriminant t e).sqrt = ⊤ := by
    show extent (settle (UnpackedFloat.sqrt .binary64 (discriminant t e).toModel.unpack)) = ⊤
    rw [hinf]
    rfl
  have hgap := rounds_gap ht hfinite hneg
  have htop : magnitude ((discriminant t e).sqrt - e) = ⊤ :=
    hgap.eq_top (by rw [hsqrt, top_add]; exact le_top)
  have hover : ((discriminant t e).sqrt - e).isFinite = false := by
    by_contra hfin
    have hlt := magnitude_lt_of_isFinite (Bool.not_eq_false _ ▸ hfin)
    rw [htop] at hlt
    exact not_top_lt hlt
  rw [root_eq_ite, if_neg (not_nonneg_of_neg hneg)]
  exact not_pos_div_infinity _ (eq_infinity hgap.nonNeg hover)

end Negative

/-- Where the map has a finite value it is positive, or a negative eigenvalue has collapsed. -/
theorem root_of_isFinite (h : (root t e).isFinite = true) :
    0 ≤ root t e ∧ (0 < root t e ∨ MayCollapse t e) := by
  by_cases he : 0 ≤ e
  · have hpos := root_pos_of_nonneg ht hfinite he
    exact ⟨nonneg_iff.mpr (pos_iff.mp hpos).1, Or.inl hpos⟩
  have hneg : e < 0 := lt_of_not_le he (by decide +kernel) (isNaN_of_root_isFinite h)
  refine ⟨root_nonneg_of_neg ht hfinite hneg h, ?_⟩
  cases hdisc : (discriminant t e).isFinite with
  | false => exact Or.inr (Or.inl ⟨hneg, hdisc⟩)
  | true =>
    by_cases hlarge : 1e-169 ≤ t
    · exact Or.inl (root_pos_of_neg ht hfinite hneg hdisc hlarge)
    · have htiny : t < 1e-169 :=
        lt_of_not_le hlarge (by decide +kernel) (kind_of_isFinite hfinite).1
      exact Or.inr (Or.inr ⟨hneg, htiny⟩)

end Root

end LogDet

/-! ## Eigenvalues -/

/-- What a map of eigenvalues has to do with the eigenvalues that it finds. -/
structure Spectral.Finds [Spectral Float] (eigenvalue : Matrix Float → Float → Nat → Float) :
    Prop where
  /-- Every mapped value goes into the entries, so a finite matrix has finite values behind it. -/
  isFinite : ∀ {a : Matrix Float} {n : Nat} {eps : Float} {g : Float → Float},
    a.shape = .packed n →
    (∀ r < n, ∀ c < n, ((mapEig a eps g).entry r c).isFinite = true) →
    ∀ i < n, (g (eigenvalue a eps i)).isFinite = true
  /-- A matrix with one entry has that eigenvalue. -/
  eigenvalue_one : ∀ {a : Matrix Float} (eps : Float), a.shape = .packed 1 →
    eigenvalue a eps 0 = a.entry 0 0
  /-- Its entry is mapped, and may then be multiplied with a unit vector from both sides. -/
  entry_one : ∀ {a : Matrix Float} (eps : Float) (g : Float → Float), a.shape = .packed 1 →
    (mapEig a eps g).entry 0 0 = g (a.entry 0 0) ∨
      (mapEig a eps g).entry 0 0 = g (a.entry 0 0) * 1 * 1 + 0

namespace Spectrum

open Double

/-- Eigenvalue `i` as the sweeps find it. -/
def eigenvalue (a : Matrix Float) (eps : Float) (i : Nat) : Float :=
  (eigen a eps).form.getD (cell i i) 0

theorem isFinite_of_fold {g : Nat → Float} {n : Nat}
    (h : (n.fold (fun i _ sum => g i + sum) (0 : Float)).isFinite = true) {i : Nat} (hi : i < n) :
    (g i).isFinite = true := by
  induction n with
  | zero => omega
  | succ n ih =>
    rw [Nat.fold_succ] at h
    obtain ⟨hlast, hrest⟩ := isFinite_add h
    rcases Nat.lt_succ_iff_lt_or_eq.mp hi with hi | rfl
    · exact ih hrest hi
    · exact hlast

theorem getD_values (g : Nat → Float) {n i : Nat} (hi : i < n) :
    ((Array.range n).map g).getD i 0 = g i := by
  simp [Array.getD, hi]

theorem isFinite_of_combine {a : Matrix Float} {n : Nat} (ha : a.shape = .packed n)
    {g : Float → Float} {e : Eigen Float} {i : Nat} (hi : i < n)
    (h : ((combine a g e).entry 0 0).isFinite = true) :
    (g (e.form.getD (cell i i) 0)).isFinite = true := by
  have hrows : a.rows = n := congrArg Shape.rows ha
  have hcell : (0, 0) ∈ (Shape.packed n).cells :=
    Shape.mem_cells_packed.mpr ⟨le_rfl, Nat.zero_lt_of_lt hi⟩
  unfold combine at h
  rw [ha, Matrix.entry_ofFn hcell, hrows] at h
  rw [← getD_values (fun i => g (e.form.getD (cell i i) 0)) hi]
  exact (isFinite_mul (isFinite_mul (isFinite_of_fold h hi)).1).1

theorem eigen_one {a : Matrix Float} (ha : a.shape = .packed 1) (eps : Float) :
    eigen a eps = ⟨a.entries, #[1], true⟩ := by
  have hrows : a.rows = 1 := congrArg Shape.rows ha
  unfold eigen
  rw [hrows]
  rfl

theorem eigenvalue_one {a : Matrix Float} (eps : Float) (ha : a.shape = .packed 1) :
    eigenvalue a eps 0 = a.entry 0 0 := by
  unfold eigenvalue Matrix.entry
  rw [eigen_one ha, ha]
  rfl

theorem entry_combine_one {a : Matrix Float} (eps : Float) (g : Float → Float)
    (ha : a.shape = .packed 1) :
    (combine a g (eigen a eps)).entry 0 0 = g (a.entry 0 0) * 1 * 1 + 0 := by
  have hrows : a.rows = 1 := congrArg Shape.rows ha
  have hcell : (0, 0) ∈ (Shape.packed 1).cells := Shape.mem_cells_packed.mpr ⟨le_rfl, one_pos⟩
  rw [← eigenvalue_one eps ha, eigenvalue, eigen_one ha]
  unfold combine
  rw [ha, Matrix.entry_ofFn hcell, hrows]
  exact congrArg (· * 1 * 1 + 0) (getD_values _ one_pos)

theorem finds_eigenvalue : Spectral.Finds eigenvalue where
  isFinite ha h _ hi :=
    isFinite_of_combine ha hi (h 0 (Nat.zero_lt_of_lt hi) 0 (Nat.zero_lt_of_lt hi))
  eigenvalue_one := eigenvalue_one
  entry_one eps g ha := Or.inr (entry_combine_one eps g ha)

end Spectrum

namespace LogDet

open Double

/-! ## Answers -/

section Answers

variable [Spectral Float] {f : LogDet Float} {t : Float} {v : Array Float}
  {w : World (Scratch Float) Float}

theorem apply_prox_cases (hv : v.size = f.side * f.side)
    (hw : w.state.image.shape = .packed f.side) :
    (∃ x w', f.prox.apply t v (f.side * f.side) w = .ok x w' ∧ AllFinite x ∧
      x = flat f.side (Spectral.mapEig (Matrix.ofFn (.packed f.side) (f.shifted t v)) f.epsZero
        (root t))) ∨
    ∃ w', f.prox.apply t v (f.side * f.side) w = .error (.error .failure) w' := by
  cases heval : f.prox.eval t v w with
  | ok x w' =>
    left
    have hx := flat_of_eval heval
    rw [Matrix.refill_eq_ofFn, hw] at hx
    have hsize : x.size = f.side * f.side := by rw [hx, size_flat]
    exact ⟨x, w', Solver.apply_eq_ok.mpr ⟨hv, rfl, heval, hsize⟩,
      Array.all_eq_true_iff_forall_mem.mp (eval_prox_eq_ok heval).2.1, hx⟩
  | error h w' =>
    right
    have hfail : h = .error .failure := by
      simp only [prox] at heval
      split at heval <;> cases heval
      rfl
    refine ⟨w', Run.bind_eq_error.mpr (Or.inr ⟨(), w, ?_, ?_⟩)⟩
    · exact Run.require_eq_ok.mpr ⟨⟨hv, rfl⟩, rfl⟩
    · exact Run.bind_eq_error.mpr (Or.inl (hfail ▸ heval))

variable {eigenvalue : Matrix Float → Float → Nat → Float}

theorem pos_getD_flat_one (hfinds : Spectral.Finds eigenvalue) {a : Matrix Float}
    (ha : a.shape = .packed 1) {g : Float → Float} {eps : Float}
    (h : AllFinite (flat 1 (Spectral.mapEig a eps g))) (hpos : 0 < g (a.entry 0 0)) :
    0 < (flat 1 (Spectral.mapEig a eps g)).getD 0 0 := by
  have hfinite := allFinite_flat h one_pos one_pos
  show 0 < (Spectral.mapEig a eps g).entry 0 0
  rcases hfinds.entry_one eps g ha with hentry | hentry
  · rw [hentry]
    exact hpos
  · rw [hentry] at hfinite ⊢
    have hfactor := (isFinite_mul (isFinite_add hfinite).1).1
    exact pos_add_zero (pos_mul_one (pos_mul_one hpos (isFinite_mul hfactor).1) hfactor)

theorem pos_one_or_collapsed (hfinds : Spectral.Finds eigenvalue) (ht : 0 < t)
    (hfinite : t.isFinite = true) (hone : f.side = 1)
    (hx : AllFinite (flat f.side
      (Spectral.mapEig (Matrix.ofFn (.packed f.side) (f.shifted t v)) f.epsZero (root t)))) :
    0 < (flat f.side (Spectral.mapEig (Matrix.ofFn (.packed f.side) (f.shifted t v)) f.epsZero
      (root t))).getD 0 0 ∨ MayCollapse t (f.shifted t v 0 0) := by
  have hshape : (Matrix.ofFn (.packed f.side) (f.shifted t v)).shape = .packed 1 :=
    congrArg Shape.packed hone
  have hentry : (Matrix.ofFn (.packed f.side) (f.shifted t v)).entry 0 0 = f.shifted t v 0 0 :=
    Matrix.entry_ofFn (Shape.mem_cells_packed.mpr ⟨le_rfl, hone ▸ one_pos⟩) _
  generalize Matrix.ofFn (.packed f.side) (f.shifted t v) = a at *
  rw [hone] at hx ⊢
  have hroot := hfinds.isFinite hshape (fun r hr c hc => allFinite_flat hx hr hc) 0 one_pos
  rw [hfinds.eigenvalue_one _ hshape] at hroot
  rw [← hentry]
  exact (root_of_isFinite ht hfinite hroot).2.imp_left (pos_getD_flat_one hfinds hshape hx)

/-- Every value of the eigenvalue map that goes into an answer is finite, and positive except for
eigenvalues that have collapsed, as those that overflow always do. Everything else ends in a
failure. -/
theorem answer_positive_or_collapsed (hfinds : Spectral.Finds eigenvalue) (ht : 0 < t)
    (hfinite : t.isFinite = true) (hv : v.size = f.side * f.side)
    (hw : w.state.image.shape = .packed f.side) :
    let e := eigenvalue (Matrix.ofFn (.packed f.side) (f.shifted t v)) f.epsZero
    (∃ x w', f.prox.apply t v (f.side * f.side) w = .ok x w' ∧ AllFinite x ∧
      (∀ i < f.side, (root t (e i)).isFinite = true ∧ 0 ≤ root t (e i) ∧
        (0 < root t (e i) ∨ MayCollapse t (e i)) ∧ (Overflows t (e i) → ¬0 < root t (e i))) ∧
      (f.side = 1 → 0 < x.getD 0 0 ∨ MayCollapse t (f.shifted t v 0 0))) ∨
    ∃ w', f.prox.apply t v (f.side * f.side) w = .error (.error .failure) w' := by
  intro e
  refine (apply_prox_cases hv hw).imp_left ?_
  rintro ⟨x, w', happly, hx, rfl⟩
  have hroot : ∀ i < f.side, (root t (e i)).isFinite = true :=
    hfinds.isFinite rfl fun r hr c hc => allFinite_flat hx hr hc
  refine ⟨_, w', happly, hx, fun i hi => ?_,
    fun hone => pos_one_or_collapsed hfinds ht hfinite hone hx⟩
  obtain ⟨hnonneg, hpos⟩ := root_of_isFinite ht hfinite (hroot i hi)
  exact ⟨hroot i hi, hnonneg, hpos,
    fun hover => root_not_pos_of_overflow ht hfinite hover.1 hover.2⟩

end Answers

def eigenvalue (f : LogDet Float) (t : Float) (v : Array Float) (i : Nat) : Float :=
  Spectrum.eigenvalue (Matrix.ofFn (.packed f.side) (f.shifted t v)) f.epsZero i

theorem pair_answer_positive : Spectral.Finds Spectrum.eigenvalue ∧ (0 : Float) < 1 ∧
    (1 : Float).isFinite = true ∧
    ∃ x w, Covariance.pair.logDet.prox.apply 1 #[1, 2, 3, -4] 4
        (World.start Covariance.pair.logDet.scratch none) = .ok x w ∧ AllFinite x ∧
      ∀ i < 2, 0 < root 1 (Covariance.pair.logDet.eigenvalue 1 #[1, 2, 3, -4] i) := by
  have hpos : (0 : Float) < 1 := by decide +kernel
  have hfinite : (1 : Float).isFinite = true := by decide +kernel
  have hrun : (Run.value? (Covariance.pair.logDet.prox.apply 1 #[1, 2, 3, -4] 4
      (World.start Covariance.pair.logDet.scratch none))).isSome = true := by decide +kernel
  have hcollapse : ∀ i < 2,
      ¬MayCollapse 1 (Covariance.pair.logDet.eigenvalue 1 #[1, 2, 3, -4] i) := by decide +kernel
  refine ⟨Spectrum.finds_eigenvalue, hpos, hfinite, ?_⟩
  rcases answer_positive_or_collapsed (f := Covariance.pair.logDet) (v := #[1, 2, 3, -4])
    (w := World.start Covariance.pair.logDet.scratch none) Spectrum.finds_eigenvalue hpos hfinite
    rfl rfl with ⟨x, w, happly, hx, hroots, -⟩ | ⟨w, hfail⟩
  · exact ⟨x, w, happly, hx, fun i hi => (hroots i hi).2.2.1.resolve_right (hcollapse i hi)⟩
  · obtain ⟨x, hsome⟩ := Option.isSome_iff_exists.mp hrun
    obtain ⟨u, hok⟩ := Run.value?_eq_some.mp hsome
    cases hok.symm.trans hfail

/-- One place, and nothing to take away from the point there. -/
def lone : LogDet Float := ⟨1, .zeros (.packed 1), 1e-12⟩

/-- Everything given is finite, and the answer is singular. -/
theorem lone_collapses : ofMatrix (.zeros (.general 1 1)) 1e-12 = .ok lone ∧
    (0 : Float) < 1 ∧ (-1e200 : Float).isFinite = true ∧
    root 1 (lone.eigenvalue 1 #[-1e200] 0) = 0 ∧
    ∃ w, lone.prox.apply 1 #[-1e200] 1 (World.start lone.scratch none) = .ok #[0] w :=
  ⟨rfl, by decide +kernel, by decide +kernel, by decide +kernel,
    Run.value?_eq_some.mp (by decide +kernel)⟩

end LogDet

end Splitting
