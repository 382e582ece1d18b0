import Splitting.Matrix.Pattern
import Splitting.Proofs.Double.Finite

/-!
# The drawing of a zero pattern

A matrix is drawn as one unit square for each entry that is not zero, with the first row on top. The
squares lie in a frame of the size of the matrix, no two of them in the same place, and reading the
row from the top of the frame gives the entry back. A symmetric pattern has a symmetric drawing.
-/

namespace Splitting

namespace Shape

theorem map_position_cells (s : Shape) :
    (s.cells.map fun p => s.position p.1 p.2) = List.range s.stored := by
  refine List.ext_getElem? fun k => ?_
  rw [List.getElem?_map]
  rcases Nat.lt_or_ge k s.stored with hk | hk
  · obtain ⟨r, c, hcell, rfl⟩ := exists_cell hk
    rw [getElem?_cells hcell, List.getElem?_range hk]
    rfl
  · rw [List.getElem?_eq_none (by rwa [length_cells]),
      List.getElem?_eq_none (by rwa [List.length_range])]
    rfl

theorem nodup_cells (s : Shape) : s.cells.Nodup := by
  refine List.Nodup.of_map (fun p => s.position p.1 p.2) ?_
  rw [map_position_cells]
  exact List.nodup_range

end Shape

namespace Matrix

namespace Cell

def unit (x y : Nat) : Cell := ⟨x, y, x + 1, y + 1⟩

/-- The unit square on the other side of the diagonal that falls to the right, in a frame of `n`
rows and columns. -/
def mirrored (n : Nat) (cell : Cell) : Cell := unit (n - 1 - cell.bottom) (n - 1 - cell.left)

/-- The square of an entry, unless a difference on the way is negative. -/
def checked? (rows : Nat) (p : Nat × Nat) : Option Cell := do
  let top ← rows.psub p.1
  let bottom ← top.psub 1
  return ⟨p.2, bottom, p.2 + 1, top⟩

theorem checked?_eq {rows r : Nat} (hr : r < rows) (c : Nat) :
    checked? rows (r, c) = some (ofEntry rows (r, c)) := by
  have htop : rows.psub r = some (rows - r) := Nat.psub_eq_sub (Nat.le_of_lt hr)
  have hbottom : (rows - r).psub 1 = some (rows - r - 1) := Nat.psub_eq_sub (Nat.sub_pos_of_lt hr)
  simp only [checked?, htop, hbottom, Option.bind_eq_bind, Option.bind_some]
  rfl

theorem ofEntry_eq_unit {rows r : Nat} (hr : r < rows) (c : Nat) :
    ofEntry rows (r, c) = unit c (rows - 1 - r) := by
  have hbottom : rows - r - 1 = rows - 1 - r := Nat.sub_right_comm ..
  have htop : rows - r = rows - 1 - r + 1 := by omega
  rw [ofEntry, unit, hbottom, htop]

end Cell

variable {F : Type} [Scalar F]

def nonzeroCells? (m : Matrix F) : Option (List Cell) :=
  (m.allCells.filter m.nonzeroAt).mapM (Cell.checked? m.rows)

theorem mem_drawn {m : Matrix F} {p : Nat × Nat} :
    p ∈ m.allCells.filter m.nonzeroAt ↔ (p.1 < m.rows ∧ p.2 < m.cols) ∧ m.nonzeroAt p = true := by
  rw [List.mem_filter, allCells, Shape.mem_cells_general]

theorem mapM_checked? {rows : Nat} {ps : List (Nat × Nat)} (h : ∀ p ∈ ps, p.1 < rows) :
    ps.mapM (Cell.checked? rows) = some (ps.map (Cell.ofEntry rows)) := by
  induction ps with
  | nil => rfl
  | cons p ps ih =>
    rw [List.mapM_cons, Cell.checked?_eq (h p List.mem_cons_self) p.2,
      ih fun q hq => h q (List.mem_cons_of_mem p hq)]
    rfl

theorem nonzeroCells?_eq (m : Matrix F) : m.nonzeroCells? = some m.nonzeroCells :=
  mapM_checked? fun _ hp => (mem_drawn.mp hp).1.1

theorem length_nonzeroCells (m : Matrix F) : m.nonzeroCells.length = m.countNonzeros := by
  rw [nonzeroCells, List.length_map, countNonzeros, List.countP_eq_length_filter]

theorem mem_nonzeroCells {m : Matrix F} {cell : Cell} :
    cell ∈ m.nonzeroCells ↔ ∃ r < m.rows, ∃ c < m.cols, m.nonzeroAt (r, c) = true ∧
      cell = Cell.unit c (m.rows - 1 - r) := by
  rw [nonzeroCells, List.mem_map]
  constructor
  · rintro ⟨⟨r, c⟩, hp, rfl⟩
    obtain ⟨⟨hr, hc⟩, hne⟩ := mem_drawn.mp hp
    exact ⟨r, hr, c, hc, hne, Cell.ofEntry_eq_unit hr c⟩
  · rintro ⟨r, hr, c, hc, hne, rfl⟩
    exact ⟨(r, c), mem_drawn.mpr ⟨⟨hr, hc⟩, hne⟩, Cell.ofEntry_eq_unit hr c⟩

theorem unit_mem_nonzeroCells {m : Matrix F} {x y : Nat} :
    Cell.unit x y ∈ m.nonzeroCells ↔
      x < m.cols ∧ y < m.rows ∧ m.nonzeroAt (m.rows - 1 - y, x) = true := by
  rw [mem_nonzeroCells]
  constructor
  · rintro ⟨r, hr, c, hc, hne, heq⟩
    obtain ⟨rfl, rfl⟩ : x = c ∧ y = m.rows - 1 - r :=
      ⟨congrArg Cell.left heq, congrArg Cell.bottom heq⟩
    have hrow : m.rows - 1 - (m.rows - 1 - r) = r := by omega
    exact ⟨hc, by omega, hrow.symm ▸ hne⟩
  · rintro ⟨hx, hy, hne⟩
    have hrow : m.rows - 1 - (m.rows - 1 - y) = y := by omega
    exact ⟨m.rows - 1 - y, by omega, x, hx, hne, by rw [hrow]⟩

theorem nodup_nonzeroCells (m : Matrix F) : m.nonzeroCells.Nodup := by
  refine List.Nodup.map_on ?_ ((Shape.nodup_cells _).filter _)
  rintro ⟨r, c⟩ hp ⟨r', c'⟩ hp' heq
  obtain ⟨⟨hr, -⟩, -⟩ := mem_drawn.mp hp
  obtain ⟨⟨hr', -⟩, -⟩ := mem_drawn.mp hp'
  rw [Cell.ofEntry_eq_unit hr, Cell.ofEntry_eq_unit hr'] at heq
  have hcol : c = c' := congrArg Cell.left heq
  have hrow : m.rows - 1 - r = m.rows - 1 - r' := congrArg Cell.bottom heq
  rw [hcol, show r = r' by omega]

theorem mirrored_perm {m : Matrix F} {n : Nat} (hrows : m.rows = n) (hcols : m.cols = n)
    (hsymm : ∀ r < n, ∀ c < n, m.nonzeroAt (r, c) = m.nonzeroAt (c, r)) :
    (m.nonzeroCells.map (Cell.mirrored n)).Perm m.nonzeroCells := by
  -- each square is the mirror image of one that is drawn, and there are as many of these
  have hsub : m.nonzeroCells ⊆ m.nonzeroCells.map (Cell.mirrored n) := by
    intro cell hcell
    obtain ⟨r, hr, c, hc, hne, rfl⟩ := mem_nonzeroCells.mp hcell
    rw [hrows] at hr
    rw [hcols] at hc
    have hne : m.nonzeroAt (c, r) = true := hsymm r hr c hc ▸ hne
    have hmirror : Cell.unit r (n - 1 - c) ∈ m.nonzeroCells := by
      rw [← hrows]
      exact mem_nonzeroCells.mpr ⟨c, by omega, r, by omega, hne, rfl⟩
    refine List.mem_map.mpr ⟨_, hmirror, ?_⟩
    have hcol : n - 1 - (n - 1 - c) = c := by omega
    rw [Cell.mirrored, hrows]
    exact congrArg (Cell.unit · (n - 1 - r)) hcol
  have hlength : (m.nonzeroCells.map (Cell.mirrored n)).length ≤ m.nonzeroCells.length :=
    Nat.le_of_eq (List.length_map _)
  exact ((m.nodup_nonzeroCells.subperm hsub).perm_of_length_le hlength).symm

theorem ne_zero_of_isNaN {e : Float} (h : e.isNaN = true) : (e != 0) = true := by
  rw [bne, Bool.not_eq_true']
  refine Bool.eq_false_iff.mpr fun hzero => ?_
  obtain ⟨s, hs⟩ : ∃ s, e.toModel.unpack = .zero s := Double.eq_zero_of_beq hzero
  have h : e.toModel.unpack.isNaN = true := h
  rw [hs] at h
  cases h

/-- The drawing shows the entries that are not zero, each once and in its place, and what is not a
number is not zero. No difference on the way is negative. -/
theorem drawing_shows_pattern (m : Matrix Float) :
    m.nonzeroCells? = some m.nonzeroCells ∧
      m.nonzeroCells.length = m.countNonzeros ∧
      m.nonzeroCells.Nodup ∧
      (∀ cell ∈ m.nonzeroCells, cell = Cell.unit cell.left cell.bottom ∧
        cell.right ≤ m.cols ∧ cell.top ≤ m.rows) ∧
      (∀ x y, Cell.unit x y ∈ m.nonzeroCells ↔
        x < m.cols ∧ y < m.rows ∧ (m.entry (m.rows - 1 - y) x != 0) = true) ∧
      (∀ x < m.cols, ∀ y < m.rows, (m.entry (m.rows - 1 - y) x).isNaN = true →
        Cell.unit x y ∈ m.nonzeroCells) ∧
      ∀ n, m.rows = n → m.cols = n →
        (∀ r < n, ∀ c < n, (m.entry r c != 0) = (m.entry c r != 0)) →
        (m.nonzeroCells.map (Cell.mirrored n)).Perm m.nonzeroCells := by
  refine ⟨m.nonzeroCells?_eq, m.length_nonzeroCells, m.nodup_nonzeroCells, fun cell hcell => ?_,
    fun x y => unit_mem_nonzeroCells, fun x hx y hy hnan => ?_, fun n hrows hcols hsymm => ?_⟩
  · obtain ⟨r, hr, c, hc, -, rfl⟩ := mem_nonzeroCells.mp hcell
    refine ⟨rfl, hc, ?_⟩
    show m.rows - 1 - r + 1 ≤ m.rows
    omega
  · exact unit_mem_nonzeroCells.mpr ⟨hx, hy, ne_zero_of_isNaN hnan⟩
  · exact mirrored_perm hrows hcols hsymm

/-- What is not a number stands for two entries off the diagonal. -/
def hollow : Matrix Float := ⟨.packed 2, #[0, 0 / 0, 1], rfl⟩

theorem hollow_drawn :
    hollow.nonzeroCells = [Cell.unit 0 0, Cell.unit 1 1, Cell.unit 1 0] ∧
      (hollow.entry 1 0).isNaN = true ∧ Cell.unit 0 0 ∈ hollow.nonzeroCells ∧
      (hollow.nonzeroCells.map (Cell.mirrored 2)).Perm hollow.nonzeroCells := by
  have hnan : (hollow.entry 1 0).isNaN = true := by decide +kernel
  have hsymm : ∀ r < 2, ∀ c < 2, (hollow.entry r c != 0) = (hollow.entry c r != 0) :=
    fun r _ c _ => by rw [entry_comm rfl]
  obtain ⟨-, -, -, -, -, hdrawn, hmirrored⟩ := drawing_shows_pattern hollow
  exact ⟨by decide +kernel, hnan, hdrawn 0 (by decide) 0 (by decide) hnan,
    hmirrored 2 rfl rfl hsymm⟩

end Matrix

end Splitting
