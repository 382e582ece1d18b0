import Splitting.Matrix.Pattern
import Splitting.Proofs.Double.Order
import Splitting.Proofs.Flattening

/-!
# Small entries taken for zero

An entry is replaced by zero if its magnitude is at most the tolerance. One tolerance after another
replaces what the larger of the two replaces, in any order, and a larger one leaves fewer entries.
Each stored entry is replaced by itself, so that it makes no difference whether a symmetric matrix
is packed or has both triangles written out.
-/

namespace Splitting

open Double

/-! ## Entries -/

def snapped (tol e : Float) : Float := if e.abs ≤ tol then 0 else e

theorem snapped_zero (tol : Float) : snapped tol 0 = 0 := ite_self 0

theorem snapped_snapped (a b e : Float) :
    snapped b (snapped a e) = if e.abs ≤ a ∨ e.abs ≤ b then 0 else e := by
  by_cases ha : e.abs ≤ a
  · have hgone : snapped a e = 0 := if_pos ha
    rw [hgone, snapped_zero, if_pos (Or.inl ha)]
  · have hkept : snapped a e = e := if_neg ha
    rw [hkept, snapped]
    exact if_congr (or_iff_right ha).symm rfl rfl

theorem abs_le_maxNumber_iff {a b e : Float} (ha : a.isNaN = false) (hb : b.isNaN = false) :
    e.abs ≤ maxNumber a b ↔ e.abs ≤ a ∨ e.abs ≤ b := by
  unfold maxNumber
  rw [ha, Bool.or_false]
  split
  · rename_i hlt
    have hab : a ≤ b := le_of_lt (of_decide_eq_true hlt)
    exact (or_iff_right_of_imp fun h => abs_le_trans h hab).symm
  · rename_i hlt
    have hba : b ≤ a := le_of_not_lt (fun h => hlt (decide_eq_true h)) ha hb
    exact (or_iff_left_of_imp fun h => abs_le_trans h hba).symm

theorem snapped_max {a b : Float} (ha : a.isNaN = false) (hb : b.isNaN = false) (e : Float) :
    snapped b (snapped a e) = snapped (maxNumber a b) e := by
  rw [snapped_snapped]
  exact if_congr (abs_le_maxNumber_iff ha hb).symm rfl rfl

theorem snapped_self (a e : Float) : snapped a (snapped a e) = snapped a e := by
  rw [snapped_snapped]
  exact if_congr or_self_iff rfl rfl

theorem snapped_comm (a b e : Float) : snapped b (snapped a e) = snapped a (snapped b e) := by
  rw [snapped_snapped, snapped_snapped]
  exact if_congr or_comm rfl rfl

theorem snapped_ne_zero {a b e : Float} (hab : a ≤ b) (h : (snapped b e != 0) = true) :
    (snapped a e != 0) = true := by
  have hb : ¬ e.abs ≤ b := by
    intro hb
    rw [snapped, if_pos hb] at h
    exact absurd h (by decide +kernel)
  rw [snapped, if_neg hb] at h
  rwa [snapped, if_neg fun ha => hb (abs_le_trans ha hab)]

/-! ## Matrices -/

namespace Matrix

section Entrywise

variable {F : Type} [Scalar F]

theorem expanded_mapEntries {f : F → F} (hf : f 0 = 0) (m : Matrix F) :
    (m.mapEntries f).expanded = m.expanded.mapEntries f := by
  have hentry : (m.mapEntries f).entry = fun r c => f (m.entry r c) :=
    funext fun r => funext fun c => entry_mapEntries hf m r c
  rw [expanded, expanded, mapEntries_ofFn, hentry]
  rfl

theorem toColvec_mapEntries {f : F → F} (hf : f 0 = 0) (m : Matrix F) :
    (m.mapEntries f).toColvec = m.toColvec.map fun v => v.map f := by
  by_cases hsquare : m.rows = m.cols
  · rw [toColvec_of_square (m := m.mapEntries f) hsquare, toColvec_of_square hsquare,
      expanded_mapEntries hf]
    rfl
  · have hrefused {g : Matrix F} (h : g.rows ≠ g.cols) :
        g.toColvec = .error (.notSquare (g.rows * g.cols)) :=
      toColvec_eq_error_iff.mpr ⟨rfl, h⟩
    rw [hrefused (g := m.mapEntries f) hsquare, hrefused hsquare]
    rfl

theorem countNonzeros_expanded (m : Matrix F) : m.expanded.countNonzeros = m.countNonzeros := by
  refine List.countP_congr fun p hp => ?_
  obtain ⟨hr, hc⟩ := Shape.mem_cells_general.mp hp
  rw [nonzeroAt, nonzeroAt, entry_expanded (m := m) hr hc]

theorem countNonzeros_mapEntries_le {f g : F → F} {m : Matrix F}
    (h : ∀ p, (m.mapEntries f).nonzeroAt p = true → (m.mapEntries g).nonzeroAt p = true) :
    (m.mapEntries f).countNonzeros ≤ (m.mapEntries g).countNonzeros :=
  List.countP_mono_left fun p _ => h p

end Entrywise

theorem snapZeros_eq (tol : Float) (m : Matrix Float) :
    m.snapZeros tol = m.mapEntries (snapped tol) := rfl

theorem nonzeroAt_snapZeros_of_le {a b : Float} (hab : a ≤ b) {m : Matrix Float} {p : Nat × Nat}
    (h : (m.snapZeros b).nonzeroAt p = true) : (m.snapZeros a).nonzeroAt p = true := by
  rw [nonzeroAt, snapZeros_eq, entry_mapEntries (snapped_zero _)] at h ⊢
  exact snapped_ne_zero hab h

theorem snapZeros_snapZeros (a b : Float) (m : Matrix Float) :
    (m.snapZeros a).snapZeros b = m.mapEntries fun e => snapped b (snapped a e) := by
  rw [snapZeros_eq, snapZeros_eq, mapEntries_mapEntries]

/-- Tolerances act as the larger of them, leave the fewer entries the larger they are, and see no
difference between a packed matrix and its two triangles. -/
theorem snapZeros_laws (m : Matrix Float) {a b : Float} (ha : a.isNaN = false)
    (hb : b.isNaN = false) :
    (m.snapZeros a).snapZeros b = m.snapZeros (maxNumber a b) ∧
      (m.snapZeros a).snapZeros a = m.snapZeros a ∧
      (m.snapZeros a).snapZeros b = (m.snapZeros b).snapZeros a ∧
      (a ≤ b →
        (∀ r c, (m.snapZeros b).nonzeroAt (r, c) = true →
          (m.snapZeros a).nonzeroAt (r, c) = true) ∧
        (m.snapZeros b).countNonzeros ≤ (m.snapZeros a).countNonzeros) ∧
      (m.snapZeros a).toColvec = m.toColvec.map (fun v => v.map (snapped a)) ∧
      ∀ n, m.shape = .packed n → ∃ g, g.shape = .general n n ∧
        m.toColvec = .ok g.entries ∧ (m.snapZeros a).toColvec = .ok (g.snapZeros a).entries ∧
        (n * n < 2 ^ 64 → ofColvec g.entries = .ok g) ∧
        g.countNonzeros = m.countNonzeros ∧
        (g.snapZeros a).countNonzeros = (m.snapZeros a).countNonzeros := by
  refine ⟨?_, ?_, ?_, fun hab => ⟨fun r c => nonzeroAt_snapZeros_of_le hab, ?_⟩,
    toColvec_mapEntries (snapped_zero a) m, fun n hm => ?_⟩
  · rw [snapZeros_snapZeros, snapZeros_eq]
    exact congrArg m.mapEntries (funext (snapped_max ha hb))
  · rw [snapZeros_snapZeros, snapZeros_eq]
    exact congrArg m.mapEntries (funext (snapped_self a))
  · rw [snapZeros_snapZeros, snapZeros_snapZeros]
    exact congrArg m.mapEntries (funext (snapped_comm a b))
  · exact countNonzeros_mapEntries_le fun p => nonzeroAt_snapZeros_of_le hab
  · obtain ⟨hrows, hcols⟩ := side_of_packed hm
    have hsquare : m.rows = m.cols := hrows.trans hcols.symm
    have hexpanded : (m.snapZeros a).expanded = m.expanded.snapZeros a :=
      expanded_mapEntries (snapped_zero a) m
    refine ⟨m.expanded, shape_expanded hm, toColvec_of_square hsquare, ?_,
      ofColvec_entries (shape_expanded hm), countNonzeros_expanded m, ?_⟩
    · rw [← hexpanded]
      exact toColvec_of_square (m := m.snapZeros a) hsquare
    · rw [← hexpanded, countNonzeros_expanded]

/-- A zero with a sign, a small entry that stands for two, and one that is not a number. -/
def speckled : Matrix Float := ⟨.packed 2, #[-0.0, 5e-5, 0 / 0], rfl⟩

theorem speckled_snapped :
    (-1 : Float).isNaN = false ∧ (1e-4 : Float).isNaN = false ∧ (-1 : Float) ≤ 1e-4 ∧
      (speckled.snapZeros (-1)).snapZeros 1e-4 = speckled.snapZeros (maxNumber (-1) 1e-4) ∧
      (speckled.snapZeros 1e-4).countNonzeros ≤ (speckled.snapZeros (-1)).countNonzeros ∧
      ∃ g : Matrix Float, g.shape = .general 2 2 ∧ g.countNonzeros = 3 ∧
        (g.snapZeros 1e-4).countNonzeros = 1 := by
  have ha : (-1 : Float).isNaN = false := by decide +kernel
  have hb : (1e-4 : Float).isNaN = false := by decide +kernel
  have hab : (-1 : Float) ≤ 1e-4 := by decide +kernel
  obtain ⟨hmax, -, -, hmono, -⟩ := snapZeros_laws speckled ha hb
  obtain ⟨-, -, -, -, -, hpacked⟩ := snapZeros_laws speckled hb ha
  obtain ⟨g, hshape, -, -, -, hbefore, hafter⟩ := hpacked 2 rfl
  have hthree : speckled.countNonzeros = 3 := by decide +kernel
  have hone : (speckled.snapZeros 1e-4).countNonzeros = 1 := by decide +kernel
  exact ⟨ha, hb, hab, hmax, (hmono hab).2, g, hshape, hbefore.trans hthree, hafter.trans hone⟩

end Matrix

end Splitting
