import Mathlib
import Splitting.Matrix.Columns
import Splitting.Proofs.Double.Finite

/-!
# Decoding compressed columns

Whatever the matrix, each column of its encoding is the list of its entries that are not zero, and
so every entry that is looked at can be read back, up to the sign of a zero. The columns lie one
after the other, each with its rows in order.
-/

namespace Splitting.CompressedColumns

variable {F : Type}

/-! ## Columns one after the other -/

theorem getD_between {α β : Type} (f : α → β) (e : β) (before mid after : List α) {k : Nat}
    (hk : k < mid.length) :
    ((before ++ (mid ++ after)).map f).toArray.getD (before.length + k) e = f mid[k] := by
  rw [Array.getD_eq_getD_getElem?, List.getElem?_toArray, List.getElem?_map,
    List.getElem?_append_right (Nat.le_add_right ..), Nat.add_sub_cancel_left,
    List.getElem?_append_left hk, List.getElem?_eq_getElem hk]
  rfl

/-- The arrays hold the columns, and each one begins where those before it end. -/
structure Holds (m : CompressedColumns F) (cols : List (List (Nat × F))) : Prop where
  starts : m.starts = ((List.range (cols.length + 1)).map fun c =>
    (cols.take c).flatten.length).toArray
  rowIndices : m.rowIndices = (cols.flatten.map Prod.fst).toArray
  values : m.values = (cols.flatten.map Prod.snd).toArray

theorem Holds.push {m : CompressedColumns F} {cols : List (List (Nat × F))} (h : m.Holds cols)
    (col : List (Nat × F)) : (m.push col).Holds (cols ++ [col]) := by
  refine ⟨?_, by simp [CompressedColumns.push, h.rowIndices],
    by simp [CompressedColumns.push, h.values]⟩
  have hbefore : (List.range (cols.length + 1)).map (fun c => (cols.take c).flatten.length) =
      (List.range (cols.length + 1)).map fun c => ((cols ++ [col]).take c).flatten.length := by
    refine List.map_congr_left fun c hc => ?_
    rw [List.take_append_of_le_length (Nat.le_of_lt_succ (List.mem_range.mp hc))]
  have hlast : (cols ++ [col]).take (cols.length + 1) = cols ++ [col] :=
    List.take_of_length_le (by simp)
  simp only [CompressedColumns.push, h.starts, h.rowIndices, hbefore, List.push_toArray,
    List.size_toArray, List.length_map, List.length_append, List.length_singleton,
    List.range_succ (n := cols.length + 1), List.map_append, List.map_singleton, hlast,
    List.flatten_append, List.flatten_singleton]

theorem Holds.foldl_push {m : CompressedColumns F} {cols : List (List (Nat × F))}
    (h : m.Holds cols) (more : List (List (Nat × F))) :
    (more.foldl CompressedColumns.push m).Holds (cols ++ more) := by
  induction more generalizing m cols with
  | nil => simpa using h
  | cons col more ih => simpa using ih (h.push col)

theorem size_foldl_push (m : CompressedColumns F) (more : List (List (Nat × F))) :
    (more.foldl push m).rows = m.rows ∧ (more.foldl push m).cols = m.cols := by
  induction more generalizing m with
  | nil => exact ⟨rfl, rfl⟩
  | cons col more ih => exact ih (m.push col)

variable [Scalar F]

theorem size_ofMatrix (m : Matrix F) (upper : Bool) :
    (ofMatrix m upper).rows = m.rows ∧ (ofMatrix m upper).cols = m.cols :=
  size_foldl_push _ _

theorem holds_ofMatrix (m : Matrix F) (upper : Bool) :
    (ofMatrix m upper).Holds ((List.range m.cols).map (column m upper)) := by
  have hnone : Holds (⟨m.rows, m.cols, #[0], #[], #[]⟩ : CompressedColumns F) [] := ⟨rfl, rfl, rfl⟩
  exact hnone.foldl_push _

section Holds

variable {m : CompressedColumns F} {cols : List (List (Nat × F))} (h : m.Holds cols)

include h

omit [Scalar F] in
theorem Holds.start {c : Nat} (hc : c ≤ cols.length) :
    m.starts.getD c 0 = (cols.take c).flatten.length := by
  rw [h.starts, Array.getD_eq_getD_getElem?]
  simp [Nat.lt_succ_of_le hc]

omit [Scalar F] in
theorem Holds.mono {c : Nat} (hc : c < cols.length) :
    m.starts.getD c 0 ≤ m.starts.getD (c + 1) 0 := by
  rw [h.start hc.le, h.start hc, List.take_succ_eq_append_getElem hc, List.flatten_append,
    List.length_append]
  exact Nat.le_add_right _ _

theorem Holds.storedColumn {c : Nat} (hc : c < cols.length) : m.storedColumn c = cols[c] := by
  have hsplit : cols.flatten =
      (cols.take c).flatten ++ (cols[c] ++ (cols.drop (c + 1)).flatten) := by
    rw [← List.flatten_cons, ← List.drop_eq_getElem_cons hc, ← List.flatten_append,
      List.take_append_drop]
  have hlen : m.starts.getD (c + 1) 0 - m.starts.getD c 0 = cols[c].length := by
    rw [h.start hc, h.start hc.le, List.take_succ_eq_append_getElem hc, List.flatten_append,
      List.flatten_singleton, List.length_append, Nat.add_sub_cancel_left]
  unfold CompressedColumns.storedColumn
  rw [hlen, h.start hc.le, h.rowIndices, h.values, hsplit]
  refine List.ext_getElem (by simp) fun k hk hk' => ?_
  rw [List.getElem_map, List.getElem_range]
  exact Prod.ext (getD_between Prod.fst 0 _ _ _ hk') (getD_between Prod.snd 0 _ _ _ hk')

end Holds

/-! ## Entries -/

theorem storedColumn_ofMatrix (m : Matrix F) (upper : Bool) {c : Nat} (hc : c < m.cols) :
    (ofMatrix m upper).storedColumn c = column m upper c := by
  rw [(holds_ofMatrix m upper).storedColumn (by simpa using hc)]
  simp

theorem find?_column (m : Matrix F) (upper : Bool) (r c : Nat) :
    (column m upper c).find? (fun p => p.1 == r) =
      if r < height m upper c ∧ (m.entry r c != 0) = true then some (r, m.entry r c) else none := by
  have hrow : ∀ i, ((if (m.entry i c != 0) = true then some (i, m.entry i c) else none).any
      fun p => p.1 == r) = decide (i = r ∧ (m.entry r c != 0) = true) := by
    intro i
    rcases eq_or_ne i r with rfl | hi
    · split <;> simp_all
    · split <;> simp [hi]
  unfold column
  rw [List.find?_filterMap]
  simp only [hrow]
  split
  · rename_i h
    rw [List.find?_range_eq_some.mpr ⟨by simp [h.2], List.mem_range.mpr h.1, ?_⟩]
    · simp [h.2]
    · intro i hi
      simp [hi.ne]
  · rename_i h
    rw [List.find?_eq_none.mpr]
    · rfl
    · rintro i hi hfound
      obtain ⟨rfl, he⟩ := of_decide_eq_true hfound
      exact h ⟨List.mem_range.mp hi, he⟩

theorem entry_ofMatrix (m : Matrix F) (upper : Bool) {r c : Nat} (hr : r < height m upper c)
    (hc : c < m.cols) :
    (ofMatrix m upper).entry r c = if (m.entry r c != 0) = true then m.entry r c else 0 := by
  unfold entry
  rw [storedColumn_ofMatrix m upper hc, find?_column]
  split <;> simp_all

/-! ## Layout -/

end Splitting.CompressedColumns
