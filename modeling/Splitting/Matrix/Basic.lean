import Splitting.Vec

/-!
# Matrices

Dense matrices in one of two layouts: all entries column by column, or the upper triangle of a
symmetric matrix column by column.
-/

namespace Splitting

/-- The number of cells in a triangle with `n` columns. -/
@[inline] def triangle (n : Nat) : Nat := n * (n + 1) / 2

theorem triangle_succ (n : Nat) : triangle (n + 1) = triangle n + (n + 1) := by
  unfold triangle
  rw [show (n + 1) * (n + 1 + 1) = n * (n + 1) + (n + 1) * 2 by
    simp only [Nat.add_mul, Nat.mul_add]; omega]
  omega

inductive Shape where
  | general (rows cols : Nat)
  /-- A symmetric matrix of which the upper triangle is stored. -/
  | packed (side : Nat)
deriving DecidableEq

namespace Shape

@[inline] def rows : Shape → Nat
  | general rows _ => rows
  | packed side => side

@[inline] def cols : Shape → Nat
  | general _ cols => cols
  | packed side => side

@[inline] def isPacked : Shape → Bool
  | general _ _ => false
  | packed _ => true

@[inline] def stored : Shape → Nat
  | general rows cols => cols * rows
  | packed side => triangle side

/-- Where the entry of row `r` and column `c` is stored. -/
@[inline] def position (r c : Nat) : Shape → Nat
  | general rows _ => c * rows + r
  | packed _ => if r ≤ c then triangle c + r else triangle r + c

theorem position_comm (r c side : Nat) :
    (packed side).position r c = (packed side).position c r := by
  rcases Nat.lt_trichotomy r c with h | h | h
  · simp [position, Nat.le_of_lt h, Nat.not_le_of_lt h]
  · simp [h]
  · simp [position, Nat.le_of_lt h, Nat.not_le_of_lt h]

/-- The stored cells, in the order of storage. -/
def cells : Shape → List (Nat × Nat)
  | general rows cols => (List.range cols).flatMap fun c => (List.range rows).map fun r => (r, c)
  | packed side => (List.range side).flatMap fun c => (List.range (c + 1)).map fun r => (r, c)

/-- Columns of the given heights have as many cells as the heights add up to. -/
theorem length_columns (height : Nat → Nat) (n : Nat) :
    ((List.range n).flatMap fun c => (List.range (height c)).map fun r => (r, c)).length =
      total ((List.range n).map height) := by
  induction n with
  | zero => rfl
  | succ n ih => simp [List.range_succ, ih]

/-- Cell `r` of column `c` comes after the columns before and `r` cells of its own. -/
theorem getElem?_columns (height : Nat → Nat) {n r c : Nat} (hc : c < n) (hr : r < height c) :
    ((List.range n).flatMap fun c => (List.range (height c)).map fun r => (r, c))[
      total ((List.range c).map height) + r]? = some (r, c) := by
  induction n with
  | zero => omega
  | succ n ih =>
    rw [List.range_succ, List.flatMap_append]
    rcases Nat.lt_or_eq_of_le (Nat.le_of_lt_succ hc) with h | rfl
    · have found := ih h
      rw [List.getElem?_append_left (List.getElem?_eq_some_iff.1 found).1, found]
    · rw [List.getElem?_append_right (by rw [length_columns]; omega), length_columns]
      simp [hr]

theorem sum_rows (rows n : Nat) : total ((List.range n).map fun _ => rows) = n * rows := by
  induction n with
  | zero => simp
  | succ n ih => simp only [List.range_succ, List.map_append, List.map_cons, List.map_nil,
      total_append, total_cons, total_nil, ih, Nat.succ_mul, Nat.add_zero]

theorem sum_heights (n : Nat) : total ((List.range n).map fun c => c + 1) = triangle n := by
  induction n with
  | zero => rfl
  | succ n ih => simp [List.range_succ, triangle_succ, ih]

@[simp] theorem length_cells (s : Shape) : s.cells.length = s.stored := by
  cases s with
  | general rows cols => rw [cells, length_columns fun _ => rows, sum_rows, stored]
  | packed side => rw [cells, length_columns fun c => c + 1, sum_heights, stored]

theorem mem_columns (height : Nat → Nat) {n r c : Nat} :
    ((r, c) ∈ (List.range n).flatMap fun c => (List.range (height c)).map fun r => (r, c)) ↔
      r < height c ∧ c < n := by
  simp only [List.mem_flatMap, List.mem_map, List.mem_range, Prod.mk.injEq]
  constructor
  · rintro ⟨_, hc, _, hr, rfl, rfl⟩
    exact ⟨hr, hc⟩
  · rintro ⟨hr, hc⟩
    exact ⟨c, hc, r, hr, rfl, rfl⟩

@[simp] theorem mem_cells_general {rows cols r c : Nat} :
    (r, c) ∈ (general rows cols).cells ↔ r < rows ∧ c < cols :=
  mem_columns fun _ => rows

@[simp] theorem mem_cells_packed {side r c : Nat} :
    (r, c) ∈ (packed side).cells ↔ r ≤ c ∧ c < side := by
  rw [cells, mem_columns fun c => c + 1, Nat.lt_succ_iff]

/-- Every place of columns of the given heights belongs to a cell. -/
theorem exists_column (height : Nat → Nat) {n k : Nat}
    (hk : k < total ((List.range n).map height)) :
    ∃ c < n, ∃ r < height c, total ((List.range c).map height) + r = k := by
  induction n with
  | zero => exact absurd hk (Nat.not_lt_zero k)
  | succ n ih =>
    rw [List.range_succ, List.map_append, total_append] at hk
    rcases Nat.lt_or_ge k (total ((List.range n).map height)) with h | h
    · obtain ⟨c, hc, r, hr, hkr⟩ := ih h
      exact ⟨c, Nat.lt_succ_of_lt hc, r, hr, hkr⟩
    · simp only [List.map_cons, List.map_nil, total_cons, total_nil] at hk
      exact ⟨n, Nat.lt_succ_self n, k - total ((List.range n).map height), by omega, by omega⟩

/-- The cells are listed in the order of their positions. -/
theorem getElem?_cells {s : Shape} {r c : Nat} (h : (r, c) ∈ s.cells) :
    s.cells[s.position r c]? = some (r, c) := by
  cases s with
  | general rows cols =>
    obtain ⟨hr, hc⟩ := mem_cells_general.1 h
    have := getElem?_columns (fun _ => rows) hc hr
    rwa [sum_rows] at this
  | packed side =>
    obtain ⟨hr, hc⟩ := mem_cells_packed.1 h
    have := getElem?_columns (fun c => c + 1) hc (Nat.lt_succ_of_le hr)
    rw [sum_heights] at this
    rwa [position, if_pos hr]

/-- Every entry that is stored belongs to a cell. -/
theorem exists_cell {s : Shape} {k : Nat} (hk : k < s.stored) :
    ∃ r c, (r, c) ∈ s.cells ∧ s.position r c = k := by
  cases s with
  | general rows cols =>
    rw [stored, ← sum_rows] at hk
    obtain ⟨c, hc, r, hr, hkr⟩ := exists_column (fun _ => rows) hk
    rw [sum_rows] at hkr
    exact ⟨r, c, mem_cells_general.mpr ⟨hr, hc⟩, hkr⟩
  | packed side =>
    rw [stored, ← sum_heights] at hk
    obtain ⟨c, hc, r, hr, hkr⟩ := exists_column (fun c => c + 1) hk
    rw [sum_heights] at hkr
    have hrc : r ≤ c := Nat.le_of_lt_succ hr
    exact ⟨r, c, mem_cells_packed.mpr ⟨hrc, hc⟩, by rw [position, if_pos hrc, hkr]⟩

theorem cell_unique {s : Shape} {p q : Nat × Nat} (hp : p ∈ s.cells) (hq : q ∈ s.cells)
    (h : s.position p.1 p.2 = s.position q.1 q.2) : p = q := by
  have hcell := getElem?_cells hp
  rw [h, getElem?_cells hq] at hcell
  exact (Option.some.inj hcell).symm

/-- An entry of the diagonal is stored apart from those off it. -/
theorem position_diagonal_ne {n k r c : Nat} (hk : k < n) (hr : r < n) (hc : c < n)
    (hrc : r ≠ c) : (packed n).position k k ≠ (packed n).position r c := by
  intro hplace
  have hdiagonal : (k, k) ∈ (packed n).cells := mem_cells_packed.mpr ⟨Nat.le_refl k, hk⟩
  rcases Nat.le_total r c with h | h
  · have hcell := cell_unique hdiagonal (mem_cells_packed.mpr ⟨h, hc⟩) hplace
    cases hcell
    exact hrc rfl
  · rw [position_comm r c] at hplace
    have hcell := cell_unique hdiagonal (mem_cells_packed.mpr ⟨h, hr⟩) hplace
    cases hcell
    exact hrc rfl

end Shape

@[ext]
structure Matrix (F : Type) where
  shape : Shape
  entries : Array F
  size_entries : entries.size = shape.stored

namespace Matrix

variable {F : Type}

@[inline] def rows (m : Matrix F) : Nat := m.shape.rows

@[inline] def cols (m : Matrix F) : Nat := m.shape.cols

def isSquare (m : Matrix F) : Bool := m.rows == m.cols

def ofEntries? (shape : Shape) (entries : Array F) : Option (Matrix F) :=
  if h : entries.size = shape.stored then some ⟨shape, entries, h⟩ else none

/-- Matrices with the same entry in every cell that is stored are the same. -/
theorem eq_of_getElem? {a b : Matrix F} (hshape : a.shape = b.shape)
    (h : ∀ r c, (r, c) ∈ a.shape.cells →
      a.entries[a.shape.position r c]? = b.entries[a.shape.position r c]?) : a = b := by
  have hsize : a.entries.size = b.entries.size := by rw [a.size_entries, b.size_entries, hshape]
  refine Matrix.ext hshape (Array.ext_getElem? fun k => ?_)
  rcases Nat.lt_or_ge k a.entries.size with hk | hk
  · obtain ⟨r, c, hcell, rfl⟩ := Shape.exists_cell (a.size_entries ▸ hk)
    exact h r c hcell
  · rw [Array.getElem?_eq_none hk, Array.getElem?_eq_none (hsize ▸ hk)]

theorem position_lt {m : Matrix F} {r c : Nat} (h : (r, c) ∈ m.shape.cells) :
    m.shape.position r c < m.entries.size := by
  rw [m.size_entries, ← Shape.length_cells]
  exact (List.getElem?_eq_some_iff.mp (Shape.getElem?_cells h)).1

/-- The matrix whose stored cells hold `f r c`. -/
@[specialize] def ofFn (shape : Shape) (f : Nat → Nat → F) : Matrix F where
  shape := shape
  entries := (shape.cells.map fun p => f p.1 p.2).toArray
  size_entries := by simp

theorem ofFn_congr {s : Shape} {f g : Nat → Nat → F} (h : ∀ p ∈ s.cells, f p.1 p.2 = g p.1 p.2) :
    ofFn s f = ofFn s g := by
  simp only [ofFn, Matrix.mk.injEq, true_and]
  rw [List.map_congr_left h]

@[specialize] def mapEntries (f : F → F) (m : Matrix F) : Matrix F where
  shape := m.shape
  entries := m.entries.map f
  size_entries := by simp [m.size_entries]

theorem mapEntries_ofFn (f : F → F) (s : Shape) (g : Nat → Nat → F) :
    (ofFn s g).mapEntries f = ofFn s fun r c => f (g r c) := by
  simp [mapEntries, ofFn, Function.comp_def]

theorem mapEntries_mapEntries (f g : F → F) (m : Matrix F) :
    (m.mapEntries f).mapEntries g = m.mapEntries fun e => g (f e) := by
  simp [mapEntries, Function.comp_def]

@[inline] def put (m : Matrix F) (r c : Nat) (x : F) : Matrix F where
  shape := m.shape
  entries := m.entries.setIfInBounds (m.shape.position r c) x
  size_entries := by simp [m.size_entries]

/-- Writes `f r c` into every stored cell, one after the other. -/
@[specialize] def refill (m : Matrix F) (f : Nat → Nat → F) : Matrix F :=
  m.shape.cells.foldl (fun m p => m.put p.1 p.2 (f p.1 p.2)) m

section Refill

variable (f : Nat → Nat → F)

theorem shape_foldl_put (cells : List (Nat × Nat)) (m : Matrix F) :
    (cells.foldl (fun m p => m.put p.1 p.2 (f p.1 p.2)) m).shape = m.shape := by
  induction cells generalizing m with
  | nil => rfl
  | cons p cells ih => exact ih (m.put p.1 p.2 (f p.1 p.2))

theorem getElem?_foldl_put_of_ne {cells : List (Nat × Nat)} {m : Matrix F} {k : Nat}
    (h : ∀ p ∈ cells, m.shape.position p.1 p.2 ≠ k) :
    (cells.foldl (fun m p => m.put p.1 p.2 (f p.1 p.2)) m).entries[k]? = m.entries[k]? := by
  induction cells generalizing m with
  | nil => rfl
  | cons p cells ih =>
    rw [List.foldl_cons,
      ih (m := m.put p.1 p.2 (f p.1 p.2)) fun q hq => h q (List.mem_cons_of_mem p hq)]
    exact Array.getElem?_setIfInBounds_ne (h p List.mem_cons_self)

theorem getElem?_foldl_put {cells : List (Nat × Nat)} {m : Matrix F}
    (hcells : ∀ p ∈ cells, p ∈ m.shape.cells) {q : Nat × Nat} (hq : q ∈ cells) :
    (cells.foldl (fun m p => m.put p.1 p.2 (f p.1 p.2)) m).entries[m.shape.position q.1 q.2]? =
      some (f q.1 q.2) := by
  induction cells generalizing m with
  | nil => exact absurd hq List.not_mem_nil
  | cons p cells ih =>
    have hmem := hcells q hq
    by_cases hlater : q ∈ cells
    · exact ih (m := m.put p.1 p.2 (f p.1 p.2))
        (fun c hc => hcells c (List.mem_cons_of_mem p hc)) hlater
    · -- no cell that follows is stored in the same place
      obtain rfl : q = p := (List.mem_cons.mp hq).resolve_right hlater
      rw [List.foldl_cons,
        getElem?_foldl_put_of_ne f (m := m.put q.1 q.2 (f q.1 q.2)) fun c hc h => ?_]
      · exact Array.getElem?_setIfInBounds_self_of_lt (position_lt hmem)
      · have hc' := hcells c (List.mem_cons_of_mem q hc)
        exact hlater (Shape.cell_unique hc' hmem h ▸ hc)

/-- Nothing is left of what a matrix held before it is refilled. -/
theorem refill_eq_ofFn (m : Matrix F) : m.refill f = ofFn m.shape f := by
  have hshape : (m.refill f).shape = m.shape := shape_foldl_put f _ m
  refine eq_of_getElem? hshape fun r c hcell => ?_
  rw [hshape] at hcell ⊢
  rw [refill, getElem?_foldl_put f (fun _ h => h) hcell]
  simp [ofFn, Shape.getElem?_cells hcell]

@[simp] theorem shape_refill (m : Matrix F) : (m.refill f).shape = m.shape :=
  shape_foldl_put f _ m

end Refill

variable [Scalar F]

/-- The stored entries in order; entries that are missing are zero. -/
@[specialize] def ofStored (shape : Shape) (xs : Array F) : Matrix F where
  shape := shape
  entries := Array.ofFn fun k : Fin shape.stored => xs.getD k 0
  size_entries := by simp

theorem ofStored_entries (m : Matrix F) : ofStored m.shape m.entries = m := by
  obtain ⟨shape, entries, h⟩ := m
  unfold ofStored
  congr 1
  refine Array.ext (by simp [h]) fun i hi _ => ?_
  simp_all

def zeros (shape : Shape) : Matrix F where
  shape := shape
  entries := Vec.zeros shape.stored
  size_entries := by simp

@[specialize] def column (x : Array F) : Matrix F where
  shape := .general x.size 1
  entries := x
  size_entries := by simp [Shape.stored]

@[inline] def entry (m : Matrix F) (r c : Nat) : F := m.entries.getD (m.shape.position r c) 0

theorem getElem?_position {m : Matrix F} {r c : Nat} (h : (r, c) ∈ m.shape.cells) :
    m.entries[m.shape.position r c]? = some (m.entry r c) := by
  rw [entry, Array.getD_eq_getD_getElem?, Array.getElem?_eq_getElem (position_lt h),
    Option.getD_some]

theorem eq_of_entry {a b : Matrix F} (hshape : a.shape = b.shape)
    (h : ∀ r c, (r, c) ∈ a.shape.cells → a.entry r c = b.entry r c) : a = b := by
  refine eq_of_getElem? hshape fun r c hcell => ?_
  rw [getElem?_position hcell, h r c hcell]
  rw [hshape] at hcell ⊢
  exact (getElem?_position hcell).symm

theorem entry_put_of_ne {m : Matrix F} {k l r c : Nat}
    (h : m.shape.position k l ≠ m.shape.position r c) (x : F) :
    (m.put k l x).entry r c = m.entry r c := by
  simp only [entry, Array.getD_eq_getD_getElem?, put, Array.getElem?_setIfInBounds_ne h]

theorem entry_ofFn {s : Shape} {r c : Nat} (h : (r, c) ∈ s.cells) (f : Nat → Nat → F) :
    (ofFn s f).entry r c = f r c := by
  simp [entry, ofFn, Shape.getElem?_cells h]

theorem ofFn_entry (m : Matrix F) : ofFn m.shape m.entry = m :=
  eq_of_entry rfl fun _ _ h => entry_ofFn h m.entry

theorem entry_mapEntries {f : F → F} (hf : f 0 = 0) (m : Matrix F) (r c : Nat) :
    (m.mapEntries f).entry r c = f (m.entry r c) := by
  simp only [entry, mapEntries, Array.getD_eq_getD_getElem?, Array.getElem?_map]
  cases m.entries[m.shape.position r c]? with
  | none => exact hf.symm
  | some e => rfl

theorem entry_comm {m : Matrix F} {side : Nat} (h : m.shape = .packed side) (r c : Nat) :
    m.entry r c = m.entry c r := by
  unfold entry
  rw [h, Shape.position_comm]

theorem entry_min_max {m : Matrix F} {side : Nat} (h : m.shape = .packed side) (r c : Nat) :
    m.entry (min r c) (max r c) = m.entry r c := by
  rcases Nat.le_total r c with hrc | hrc
  · rw [Nat.min_eq_left hrc, Nat.max_eq_right hrc]
  · rw [Nat.min_eq_right hrc, Nat.max_eq_left hrc, entry_comm h]

/-- The upper triangle is what a packed matrix holds. -/
theorem entry_ofFn_upper (f : Nat → Nat → F) {n r c : Nat} (hr : r < n) (hc : c < n) :
    (ofFn (.packed n) f).entry r c = f (min r c) (max r c) := by
  have hle : min r c ≤ max r c := Nat.le_trans (Nat.min_le_left r c) (Nat.le_max_left r c)
  rw [← entry_min_max rfl]
  exact entry_ofFn (Shape.mem_cells_packed.mpr ⟨hle, Nat.max_lt.mpr ⟨hr, hc⟩⟩) f

theorem entry_ofFn_packed {f : Nat → Nat → F} {n r c : Nat} (hf : f r c = f c r) (hr : r < n)
    (hc : c < n) : (ofFn (.packed n) f).entry r c = f r c := by
  rw [entry_ofFn_upper f hr hc]
  rcases Nat.le_total r c with h | h
  · rw [Nat.min_eq_left h, Nat.max_eq_right h]
  · rw [Nat.min_eq_right h, Nat.max_eq_left h, hf]

def has (m : Matrix F) (r c : Nat) : Bool := r < m.rows && c < m.cols

def set? (m : Matrix F) (r c : Nat) (x : F) : Option (Matrix F) :=
  if m.has r c then some (m.put r c x) else none

@[specialize] def scale (a : F) (m : Matrix F) : Matrix F := m.mapEntries fun e => a * e

/-- Row `r` of the matrix times `x`. In a triangle the row runs down column `r` to the diagonal and
then to the right. -/
@[inline] def rowDot (m : Matrix F) (x : Array F) (r : Nat) : F :=
  match m.shape with
  | .general rows cols => Vec.addAlong m.entries x (fun k _ => k + rows) cols r 0 0
  | .packed side =>
    let left := min r side
    let s := Vec.addAlong m.entries x (fun k _ => k + 1) left (triangle r) 0 0
    Vec.addAlong m.entries x (fun k c => k + (c + 1)) (side - left) (triangle left + r) left s

@[inline] def colDot (m : Matrix F) (x : Array F) (c : Nat) : F :=
  match m.shape with
  | .general rows _ => Vec.addAlong m.entries x (fun k _ => k + 1) rows (c * rows) 0 0
  | .packed _ => m.rowDot x c

theorem rowDot_eq_sumBelow (m : Matrix F) (x : Array F) (r : Nat) :
    m.rowDot x r = Vec.sumBelow m.cols fun c => m.entry r c * x.getD c 0 := by
  obtain ⟨shape, entries, h⟩ := m
  cases shape with
  | general rows cols =>
    have := Vec.addAlong_eq_fold entries x (fun k _ => k + rows)
      (fun c => c * rows + r) (fun k => by simp only [Nat.succ_mul]; omega) cols 0 0
    simpa [rowDot, Vec.sumBelow, entry, Matrix.cols, Shape.cols, Shape.position] using this
  | packed side =>
    have below := Vec.addAlong_eq_fold entries x (fun k _ => k + 1)
      (fun c => triangle r + c) (fun _ => rfl) (min r side) 0 0
    have above := Vec.addAlong_eq_fold entries x (fun k c => k + (c + 1))
      (fun c => triangle c + r) (fun c => by rw [triangle_succ]; omega)
      (side - min r side) (min r side)
    simp only [Nat.zero_add, Nat.add_zero] at below
    simp only [rowDot, below, above, Vec.sumBelow, entry, Matrix.cols, Shape.cols, Shape.position]
    have split := Vec.fold_add (fun c s =>
      s + entries.getD (if r ≤ c then triangle c + r else triangle r + c) 0 * x.getD c 0)
      (min r side) (side - min r side) (0 : F)
    rw [show min r side + (side - min r side) = side by omega] at split
    rw [split, Vec.fold_congr (min r side) fun c hc s => ?_]
    · exact Vec.fold_congr _ (fun c hc s => by rw [if_pos (by omega)]) _
    · rw [if_neg (by omega)]

theorem colDot_eq_sumBelow (m : Matrix F) (x : Array F) (c : Nat) :
    m.colDot x c = Vec.sumBelow m.rows fun r => m.entry r c * x.getD r 0 := by
  obtain ⟨shape, entries, h⟩ := m
  cases shape with
  | general rows cols =>
    have := Vec.addAlong_eq_fold entries x (fun k _ => k + 1)
      (fun r => c * rows + r) (fun _ => rfl) rows 0 0
    simpa [colDot, Vec.sumBelow, entry, Matrix.rows, Shape.rows, Shape.position] using this
  | packed side =>
    simp only [colDot, rowDot_eq_sumBelow, entry, Shape.position_comm c]
    rfl

/-- `alpha m x + beta y`. A matrix without entries only scales `y`, whatever the lengths. -/
@[specialize] def mulAdd? (m : Matrix F) (alpha : F) (x : Array F) (beta : F) (y : Array F) :
    Option (Array F) :=
  if m.rows = 0 ∨ m.cols = 0 then some (Vec.scale beta y)
  else if x.size = m.cols ∧ y.size = m.rows then
    some (y.mapIdx fun r e => alpha * m.rowDot x r + beta * e)
  else none

@[specialize] def mulAddTransposed? (m : Matrix F) (alpha : F) (x : Array F) (beta : F)
    (y : Array F) : Option (Array F) :=
  if m.rows = 0 ∨ m.cols = 0 then some (Vec.scale beta y)
  else if x.size = m.rows ∧ y.size = m.cols then
    some (y.mapIdx fun c e => alpha * m.colDot x c + beta * e)
  else none

end Matrix

end Splitting
