import Splitting.Proofs.Double.Side

/-!
# Flat vectors and square matrices

A flat vector and the square matrix made of it hold the same entries, whatever these are: nothing is
computed with them. A packed matrix flattens to both of its triangles, and the upper one of them is
all that it takes to get the packed matrix back.
-/

namespace Splitting

namespace Matrix

variable {F : Type}

/-! ## Both triangles written out -/

theorem side_of_packed {m : Matrix F} {n : Nat} (h : m.shape = .packed n) :
    m.rows = n ∧ m.cols = n := ⟨congrArg Shape.rows h, congrArg Shape.cols h⟩

variable [Scalar F]

def expanded (m : Matrix F) : Matrix F := ofFn (.general m.rows m.cols) m.entry

theorem entry_expanded {m : Matrix F} {r c : Nat} (hr : r < m.rows) (hc : c < m.cols) :
    m.expanded.entry r c = m.entry r c :=
  entry_ofFn (Shape.mem_cells_general.mpr ⟨hr, hc⟩) m.entry

theorem expanded_of_general {m : Matrix F} {rows cols : Nat} (h : m.shape = .general rows cols) :
    m.expanded = m := by
  have hshape : Shape.general m.rows m.cols = m.shape := by
    rw [Matrix.rows, Matrix.cols, h]
    rfl
  rw [expanded, hshape, ofFn_entry]

theorem shape_expanded {m : Matrix F} {n : Nat} (h : m.shape = .packed n) :
    m.expanded.shape = .general n n := by
  obtain ⟨hrows, hcols⟩ := side_of_packed h
  show Shape.general m.rows m.cols = _
  rw [hrows, hcols]

theorem ofFn_expanded {m : Matrix F} {n : Nat} (h : m.shape = .packed n) :
    ofFn (.packed n) m.expanded.entry = m := by
  obtain ⟨hrows, hcols⟩ := side_of_packed h
  calc ofFn (.packed n) m.expanded.entry = ofFn (.packed n) m.entry := by
        refine ofFn_congr fun p hp => ?_
        obtain ⟨hle, hlt⟩ := Shape.mem_cells_packed.mp hp
        exact entry_expanded (by omega) (by omega)
    _ = m := by rw [← h, ofFn_entry]

/-! ## One way and the other -/

theorem toColvec_of_square {m : Matrix F} (h : m.rows = m.cols) :
    m.toColvec = .ok m.expanded.entries := if_pos h

theorem toColvec_eq_error_iff {m : Matrix F} {e : ShapeError} :
    m.toColvec = .error e ↔ e = .notSquare (m.rows * m.cols) ∧ m.rows ≠ m.cols := by
  unfold toColvec
  split
  · rename_i h
    exact iff_of_false nofun fun hne => hne.2 h
  · rename_i h
    rw [Except.error.injEq, eq_comm, and_iff_left h]

theorem ofColvec_entries {m : Matrix F} {n : Nat} (h : m.shape = .general n n)
    (hn : n * n < 2 ^ 64) : ofColvec m.entries = .ok m := by
  have hsize : m.entries.size = n * n := by
    rw [m.size_entries, h]
    rfl
  have hside : squareSide m.entries.size = .ok n := by
    rw [hsize]
    exact squareSide_mul_self (by nlinarith)
  unfold ofColvec
  rw [hside]
  exact congrArg Except.ok (h ▸ ofStored_entries m)

theorem ofColvec_eq_error_iff {v : Array F} (hv : v.size < 2 ^ 64) {e : ShapeError} :
    ofColvec v = .error e ↔ e = .notSquare v.size ∧ ¬ ∃ q, q * q = v.size := by
  rw [← squareSide_eq_error_iff hv]
  unfold ofColvec
  cases squareSide v.size with
  | error e' =>
    show (Except.error e' : Except ShapeError (Matrix F)) = .error e ↔ _
    rw [Except.error.injEq, Except.error.injEq]
  | ok q => exact iff_of_false nofun nofun

theorem toColvec_of_general {m : Matrix F} {n : Nat} (h : m.shape = .general n n) :
    m.toColvec = .ok m.entries := by
  have hsquare : m.rows = m.cols := by
    rw [Matrix.rows, Matrix.cols, h]
    rfl
  rw [toColvec_of_square hsquare, expanded_of_general h]

theorem getElem?_expanded {m : Matrix F} {n : Nat} (h : m.shape = .packed n) {r c : Nat}
    (hr : r < n) (hc : c < n) :
    m.expanded.entries[c * n + r]? = m.entries[triangle (max r c) + min r c]? := by
  obtain ⟨hrows, hcols⟩ := side_of_packed h
  have hshape := shape_expanded h
  have hcell : (r, c) ∈ m.expanded.shape.cells := by
    rw [hshape]
    exact Shape.mem_cells_general.mpr ⟨hr, hc⟩
  have hstored : (min r c, max r c) ∈ m.shape.cells := by
    rw [h]
    exact Shape.mem_cells_packed.mpr ⟨min_le_max, max_lt hr hc⟩
  calc m.expanded.entries[c * n + r]? = some (m.expanded.entry r c) := by
        rw [← getElem?_position hcell, hshape]
        rfl
    _ = some (m.entry (min r c) (max r c)) := by
        rw [entry_expanded (hrows ▸ hr) (hcols ▸ hc), entry_min_max h]
    _ = m.entries[m.shape.position (min r c) (max r c)]? := (getElem?_position hstored).symm
    _ = m.entries[triangle (max r c) + min r c]? := by
        rw [h, Shape.position, if_pos min_le_max]

/-- Flattening and reshaping undo each other, entry for entry, and nothing but a wrong shape is
refused. A length is a count of 64 bits. -/
theorem flat_and_square_inverse :
    (∀ (v : Array F) (q : Nat), v.size = q * q → q * q < 2 ^ 64 →
        ∃ m, ofColvec v = .ok m ∧ m.toColvec = .ok v) ∧
      (∀ (m : Matrix F) (n : Nat), m.shape = .general n n → n * n < 2 ^ 64 →
        ∃ v, m.toColvec = .ok v ∧ ofColvec v = .ok m) ∧
      (∀ (m : Matrix F) (n : Nat), m.shape = .packed n →
        ∃ v, m.toColvec = .ok v ∧ v.size = n * n ∧
          (∀ r < n, ∀ c < n, ∃ e, m.entries[triangle (max r c) + min r c]? = some e ∧
            v[c * n + r]? = some e ∧ v[r * n + c]? = some e) ∧
          (n * n < 2 ^ 64 → ∃ g, ofColvec v = .ok g ∧ ofFn (.packed n) g.entry = m)) ∧
      (∀ m : Matrix F, (∃ e, m.toColvec = .error e) ↔ m.rows ≠ m.cols) ∧
      ∀ v : Array F, v.size < 2 ^ 64 →
        ((∃ e, ofColvec v = .error e) ↔ ¬ ∃ q, q * q = v.size) := by
  refine ⟨fun v q hv hq => ?_, fun m n hm hn => ?_, fun m n hm => ?_, fun m => ?_, fun v hv => ?_⟩
  · obtain ⟨m, hm, rfl⟩ : ∃ m : Matrix F, m.shape = .general q q ∧ m.entries = v :=
      ⟨⟨.general q q, v, hv⟩, rfl, rfl⟩
    exact ⟨m, ofColvec_entries hm hq, toColvec_of_general hm⟩
  · exact ⟨m.entries, toColvec_of_general hm, ofColvec_entries hm hn⟩
  · obtain ⟨hrows, hcols⟩ := side_of_packed hm
    have hsize : m.expanded.entries.size = n * n := by
      rw [size_entries, shape_expanded hm]
      rfl
    refine ⟨m.expanded.entries, toColvec_of_square (hrows.trans hcols.symm), hsize,
      fun r hr c hc => ?_, fun hn => ?_⟩
    · have hentry := getElem?_expanded hm hr hc
      have hmirrored := getElem?_expanded hm hc hr
      rw [max_comm, min_comm] at hmirrored
      have hlt : c * n + r < m.expanded.entries.size := by
        rw [hsize]
        nlinarith
      obtain ⟨e, he⟩ : ∃ e, m.expanded.entries[c * n + r]? = some e :=
        ⟨_, Array.getElem?_eq_getElem hlt⟩
      exact ⟨e, by rw [← hentry, he], he, by rw [hmirrored, ← hentry, he]⟩
    · exact ⟨m.expanded, ofColvec_entries (shape_expanded hm) hn, ofFn_expanded hm⟩
  · simp only [toColvec_eq_error_iff, exists_eq_left]
  · simp only [ofColvec_eq_error_iff hv, exists_eq_left]

/-- Entries that a comparison misjudges: one that is not a number, and zeros of either sign. -/
def unordered : Array Float := #[0 / 0, -0.0, 0.0, 1.5]

def unorderedTriangle : Matrix Float := ⟨.packed 2, #[0 / 0, -0.0, 1.5], rfl⟩

theorem unordered_flat_and_square :
    (∃ m, ofColvec unordered = .ok m ∧ m.toColvec = .ok unordered) ∧
      (∃ v g, unorderedTriangle.toColvec = .ok v ∧ v.size = 2 * 2 ∧ ofColvec v = .ok g ∧
        ofFn (.packed 2) g.entry = unorderedTriangle) ∧
      ∃ e, ofColvec unorderedTriangle.entries = .error e := by
  obtain ⟨hflat, -, hpacked, -, herror⟩ := flat_and_square_inverse (F := Float)
  refine ⟨hflat unordered 2 rfl (by norm_num), ?_, ?_⟩
  · obtain ⟨v, hv, hsize, -, hback⟩ := hpacked unorderedTriangle 2 rfl
    obtain ⟨g, hg, hm⟩ := hback (by norm_num)
    exact ⟨v, g, hv, hsize, hg, hm⟩
  · refine (herror unorderedTriangle.entries (by decide)).mpr ?_
    rintro ⟨q, hq⟩
    have hq : q * q = 3 := hq
    rcases Nat.lt_or_ge q 2 with h | h <;> nlinarith

end Matrix

end Splitting
