import Splitting.Covariance
import Splitting.Proofs.Flattening
import Splitting.Proofs.Handover

/-!
# Misfits

Matrices and vectors are taken exactly if their shapes fit. An error names lengths to show what does
not fit, and most of these are products of sizes. A product shows the misfit except in two cases: a
matrix that is not square can have as many entries as one that is, and without rows a matrix has no
entries whatever its columns.
-/

namespace Splitting

variable {α F : Type}

/-! ## What an error says -/

/-- What the error says is so: the length is no square, or the lengths differ. -/
def ShapeError.Truthful : ShapeError → Prop
  | notSquare len => ¬ ∃ q, q * q = len
  | lenMismatch expected found => expected ≠ found

/-- The answer is a value exactly if the shapes fit, and an error is truthful exactly if the lengths
show the misfit. -/
structure Judges (answer : Except ShapeError α) (fits shown : Prop) : Prop where
  accepts : (∃ a, answer = .ok a) ↔ fits
  truthful : ∀ e, answer = .error e → (e.Truthful ↔ shown)

theorem Judges.refused {answer : Except ShapeError α} {fits shown : Prop}
    (h : Judges answer fits shown) (hfits : ¬ fits) :
    ∃ e, answer = .error e ∧ (e.Truthful ↔ shown) := by
  cases answer with
  | ok a => exact absurd (h.accepts.mp ⟨a, rfl⟩) hfits
  | error e => exact ⟨e, rfl, h.truthful e rfl⟩

def Matrix.HasSquareCount (m : Matrix F) : Prop := ∃ q, q * q = m.rows * m.cols

theorem judges_square (m : Matrix F) (a : α) :
    Judges (if m.rows = m.cols then .ok a else .error (.notSquare (m.rows * m.cols)))
      (m.rows = m.cols) (¬ m.HasSquareCount) := by
  constructor
  · split_ifs with h
    · exact iff_of_true ⟨a, rfl⟩ h
    · exact iff_of_false nofun h
  · intro e he
    split_ifs at he
    cases he
    exact Iff.rfl

variable [Scalar F]

theorem judges_ofColvec {v : Array F} (hv : v.size < 2 ^ 64) :
    Judges (Matrix.ofColvec v) (∃ q, q * q = v.size) True := by
  constructor
  · cases hm : Matrix.ofColvec v with
    | ok m =>
      refine iff_of_true ⟨m, rfl⟩ ?_
      by_contra hnone
      rw [(Matrix.ofColvec_eq_error_iff hv).mpr ⟨rfl, hnone⟩] at hm
      cases hm
    | error e => exact iff_of_false nofun ((Matrix.ofColvec_eq_error_iff hv).mp hm).2
  · intro e he
    obtain ⟨rfl, hnone⟩ := (Matrix.ofColvec_eq_error_iff hv).mp he
    exact iff_true_intro hnone

/-! ## The parts of a quadratic block -/

namespace Quadratic

/-- The first part that does not fit those before it, with its report. -/
inductive Misfit (q : Matrix F) (c : Array F) (f : Matrix F) (d : Array F) : ShapeError → Prop
  | quadratic (hq : q.rows ≠ q.cols) : Misfit q c f d (.notSquare (q.rows * q.cols))
  | linear (hq : q.rows = q.cols) (hc : c.size ≠ q.rows) :
      Misfit q c f d (.lenMismatch q.rows c.size)
  | columns (hq : q.rows = q.cols) (hc : c.size = q.rows) (hf : f.cols ≠ q.rows) :
      Misfit q c f d (.lenMismatch (f.rows * q.rows) (f.rows * f.cols))
  | bounds (hq : q.rows = q.cols) (hc : c.size = q.rows) (hf : f.cols = q.rows)
      (hd : d.size ≠ f.rows) : Misfit q c f d (.lenMismatch f.rows d.size)

/-- The report of the first misfit names lengths as they would be if the parts did fit. -/
def Unseen (q : Matrix F) (c : Array F) (f : Matrix F) : Prop :=
  (q.rows ≠ q.cols ∧ q.HasSquareCount) ∨
    (q.rows = q.cols ∧ c.size = q.rows ∧ f.cols ≠ q.rows ∧ f.rows = 0)

variable {q f : Matrix F} {c d : Array F} {e : ShapeError}

omit [Scalar F] in
theorem Misfit.truthful_iff (h : Misfit q c f d e) : e.Truthful ↔ ¬ Unseen q c f := by
  cases h with
  | quadratic hq =>
    have hunseen : Unseen q c f ↔ q.HasSquareCount :=
      (or_iff_left fun h => hq h.1).trans (and_iff_right hq)
    exact not_congr hunseen.symm
  | linear hq hc =>
    refine iff_of_true hc.symm ?_
    rintro (⟨hne, -⟩ | ⟨-, hsize, -⟩)
    · exact hne hq
    · exact hc hsize
  | columns hq hc hf =>
    have hunseen : Unseen q c f ↔ f.rows = 0 :=
      (or_iff_right fun h => h.1 hq).trans
        ⟨fun h => h.2.2.2, fun hrows => ⟨hq, hc, hf, hrows⟩⟩
    -- the two products share the factor that makes both of them vanish
    have hproducts : f.rows * q.rows = f.rows * f.cols ↔ f.rows = 0 :=
      mul_eq_mul_left_iff.trans (or_iff_right hf.symm)
    exact not_congr (hproducts.trans hunseen.symm)
  | bounds hq hc hf hd =>
    refine iff_of_true hd.symm ?_
    rintro (⟨hne, -⟩ | ⟨-, -, hcols, -⟩)
    · exact hne hq
    · exact hcols hf

theorem ofParts_eq_error_iff : ofParts q c f d = .error e ↔ Misfit q c f d e := by
  unfold ofParts
  dsimp only
  constructor
  · intro h
    split_ifs at h with hq hc hf hd
    · cases h
      exact .quadratic hq
    · cases h
      exact .linear (of_not_not hq) hc
    · cases h
      exact .columns (of_not_not hq) (of_not_not hc) hf
    · cases h
      exact .bounds (of_not_not hq) (of_not_not hc) (of_not_not hf) hd
  · intro h
    cases h with
    | quadratic hq => rw [if_pos hq]
    | linear hq hc => rw [if_neg (not_not.mpr hq), if_pos hc]
    | columns hq hc hf => rw [if_neg (not_not.mpr hq), if_neg (not_not.mpr hc), if_pos hf]
    | bounds hq hc hf hd =>
      rw [if_neg (not_not.mpr hq), if_neg (not_not.mpr hc), if_neg (not_not.mpr hf), if_pos hd]

theorem ofParts?_eq_some_iff {r : Except ShapeError (Quadratic F)} :
    ofParts? q c f d = some r ↔ ofParts q c f d = r ∧ ∀ e, r = .error e → e.Counted := by
  unfold ofParts?
  cases ofParts q c f d with
  | ok g =>
    rw [Option.some_inj, iff_self_and]
    rintro rfl
    exact nofun
  | error e =>
    dsimp only
    split_ifs with hcounted
    · rw [Option.some_inj, iff_self_and]
      rintro rfl e' he
      cases he
      exact hcounted
    · refine iff_of_false nofun ?_
      rintro ⟨rfl, h⟩
      exact hcounted (h e rfl)

theorem ofParts?_eq_ok_iff {g : Quadratic F} :
    ofParts? q c f d = some (.ok g) ↔ Fits q c f d ∧ g = assemble q c f d := by
  rw [ofParts?_eq_some_iff, ofParts_eq_ok, and_iff_left]
  exact nofun

theorem ofParts?_eq_error_iff :
    ofParts? q c f d = some (.error e) ↔ Misfit q c f d e ∧ e.Counted := by
  rw [ofParts?_eq_some_iff, ofParts_eq_error_iff]
  simp only [Except.error.injEq, forall_eq']

theorem ofParts?_eq_none_iff :
    ofParts? q c f d = none ↔ ∃ e, Misfit q c f d e ∧ ¬ e.Counted := by
  simp only [← ofParts_eq_error_iff]
  unfold ofParts?
  cases ofParts q c f d with
  | ok g => exact iff_of_false nofun nofun
  | error e => simp

/-- A matrix without columns stores nothing of its rows, and there can be too many to count. -/
example : ofParts? (.zeros (.packed 2) : Matrix Float) #[0, 0] (.zeros (.general (2 ^ 63) 0)) #[] =
    none := rfl

end Quadratic

/-! ## Blocks that need a square matrix -/

/-- The block of a matrix that is known to be square; another one is a misuse. -/
def LogDet.ofSquare? (q : Matrix F) (epsZero : F) : Option (LogDet F) :=
  if q.rows = q.cols then some ⟨q.rows, .ofFn (.packed q.rows) q.entry, epsZero⟩ else none

theorem LogDet.ofSquare?_of_ofMatrix {q : Matrix F} {epsZero : F} {f : LogDet F}
    (h : ofMatrix q epsZero = .ok f) : ofSquare? q epsZero = some f := by
  unfold ofMatrix at h
  split_ifs at h with hq
  cases h
  exact if_pos hq

namespace Covariance

theorem ofSquare?_of_ofMatrix {q : Matrix F} {epsZero : F} {p : Covariance F}
    (h : ofMatrix q epsZero = .ok p) :
    LogDet.ofSquare? p.sample p.epsZero = some p.logDet := by
  unfold ofMatrix at h
  split_ifs at h
  cases h
  exact if_pos rfl

theorem judges_estimate (p : Covariance F) {blocks : List (Array F)}
    (hsize : (blocks.headD #[]).size < 2 ^ 64) :
    Judges (p.estimate blocks) ((blocks.headD #[]).size = p.side * p.side) True := by
  unfold estimate
  dsimp only
  generalize blocks.headD #[] = x at hsize
  by_cases hx : x.size = p.side * p.side
  · obtain ⟨m, hm⟩ := (judges_ofColvec hsize).accepts.mpr ⟨p.side, hx.symm⟩
    rw [if_neg (not_not.mpr hx), hm]
    exact ⟨iff_of_true ⟨_, rfl⟩ hx, nofun⟩
  · rw [if_pos hx]
    refine ⟨iff_of_false nofun hx, fun e he => ?_⟩
    cases he
    exact iff_true_intro (Ne.symm hx)

end Covariance

/-! ## All of them -/

/-- Shapes that fit are taken, with nothing left for a later check to find, and no others are. What
an error says is so, unless a matrix that is not square has as many entries as one that is, or the
columns of an `F` without rows are not those of `Q`. A length is a count of 64 bits. -/
theorem shape_errors_truthful_iff :
    (∀ (q : Matrix F) (c : Array F) (f : Matrix F) (d : Array F),
        ((∃ g, Quadratic.ofParts? q c f d = some (.ok g)) ↔ Quadratic.Fits q c f d) ∧
        (∀ g, Quadratic.ofParts? q c f d = some (.ok g) →
          Quadratic.assemble? q c f d = some g) ∧
        (∀ e, Quadratic.ofParts? q c f d = some (.error e) →
          (e.Truthful ↔ ¬ Quadratic.Unseen q c f)) ∧
        (Quadratic.ofParts? q c f d = none ↔
          ∃ e, Quadratic.Misfit q c f d e ∧ ¬ e.Counted)) ∧
      (∀ (q : Matrix F) (epsZero : F),
        Judges (LogDet.ofMatrix q epsZero) (q.rows = q.cols) (¬ q.HasSquareCount) ∧
        ∀ f, LogDet.ofMatrix q epsZero = .ok f → LogDet.ofSquare? q epsZero = some f) ∧
      (∀ (q : Matrix F) (epsZero : F),
        Judges (Covariance.ofMatrix q epsZero) (q.rows = q.cols) (¬ q.HasSquareCount) ∧
        ∀ p, Covariance.ofMatrix q epsZero = .ok p →
          LogDet.ofSquare? p.sample p.epsZero = some p.logDet) ∧
      (∀ m : Matrix F, Judges m.toColvec (m.rows = m.cols) (¬ m.HasSquareCount)) ∧
      (∀ v : Array F, v.size < 2 ^ 64 →
        Judges (Matrix.ofColvec v) (∃ q, q * q = v.size) True) ∧
      ∀ (p : Covariance F) (blocks : List (Array F)), (blocks.headD #[]).size < 2 ^ 64 →
        Judges (p.estimate blocks) ((blocks.headD #[]).size = p.side * p.side) True := by
  refine ⟨fun q c f d => ⟨?_, fun g hg => ?_, fun e he => ?_, Quadratic.ofParts?_eq_none_iff⟩,
    fun q epsZero => ⟨judges_square q _, fun f => LogDet.ofSquare?_of_ofMatrix⟩,
    fun q epsZero => ⟨judges_square q _, fun p => Covariance.ofSquare?_of_ofMatrix⟩,
    fun m => judges_square m _, fun v => judges_ofColvec, fun p blocks => p.judges_estimate⟩
  · simp only [Quadratic.ofParts?_eq_ok_iff, exists_and_left, exists_eq, and_true]
  · obtain ⟨hfits, rfl⟩ := Quadratic.ofParts?_eq_ok_iff.mp hg
    exact if_pos hfits
  · exact (Quadratic.ofParts?_eq_error_iff.mp he).1.truthful_iff

def blank : Covariance Float := ⟨.zeros (.packed 2), none, 0⟩

theorem three_entries_refused :
    (#[1, 2, 3] : Array Float).size < 2 ^ 64 ∧
      (∃ e, Matrix.ofColvec (#[1, 2, 3] : Array Float) = .error e ∧ e.Truthful) ∧
      (∃ e, blank.estimate [#[1, 2, 3]] = .error e ∧ e.Truthful) ∧
      Quadratic.ofParts? blank.sample #[0, 0] (.zeros (.general 1 3)) #[0] =
        some (.error (.lenMismatch 2 3)) ∧ (ShapeError.lenMismatch 2 3).Truthful := by
  obtain ⟨hparts, -, -, -, hflat, hestimate⟩ := shape_errors_truthful_iff (F := Float)
  have hsize : (#[1, 2, 3] : Array Float).size < 2 ^ 64 := by decide
  have hnone : ¬ ∃ q, q * q = (#[1, 2, 3] : Array Float).size := by
    rintro ⟨q, hq⟩
    have hq : q * q = 3 := hq
    rcases Nat.lt_or_ge q 2 with h | h <;> nlinarith
  have hside : ¬ (#[1, 2, 3] : Array Float).size = blank.side * blank.side := by decide
  obtain ⟨e, he, htrue⟩ := (hflat #[1, 2, 3] hsize).refused hnone
  obtain ⟨e', he', htrue'⟩ := (hestimate blank [#[1, 2, 3]] hsize).refused hside
  obtain ⟨-, -, hreport, -⟩ := hparts blank.sample #[0, 0] (.zeros (.general 1 3)) #[0]
  refine ⟨hsize, ⟨e, he, htrue.mpr trivial⟩, ⟨e', he', htrue'.mpr trivial⟩, rfl,
    (hreport _ rfl).mpr ?_⟩
  rintro (⟨hne, -⟩ | ⟨-, -, -, hrows⟩)
  · exact hne rfl
  · cases hrows

def rowOfFour : Matrix Float := .zeros (.general 1 4)

/-- A row of four entries passes for a square of side two, and three columns without rows pass for
two. -/
theorem thin_shapes_misreported :
    rowOfFour.toColvec = .error (.notSquare 4) ∧
      LogDet.ofMatrix rowOfFour 0 = .error (.notSquare 4) ∧
      Covariance.ofMatrix rowOfFour 0 = .error (.notSquare 4) ∧
      ¬ (ShapeError.notSquare 4).Truthful ∧
      Quadratic.ofParts? blank.sample #[0, 0] (.zeros (.general 0 3)) #[] =
        some (.error (.lenMismatch 0 0)) ∧ ¬ (ShapeError.lenMismatch 0 0).Truthful :=
  ⟨rfl, rfl, rfl, not_not.mpr ⟨2, rfl⟩, rfl, not_not.mpr rfl⟩

end Splitting
