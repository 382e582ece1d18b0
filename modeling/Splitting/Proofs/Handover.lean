import Splitting.Proofs.Columns
import Splitting.Proofs.Retention
import Splitting.Qp.Backend

/-!
# Handing over

Both backends get the same cost and the same bounds, whatever the layouts. The compressed `G` is
that of the program as well. The full copy of `G` takes the stored entries for its columns, which a
packed `G` does not store.
-/

namespace Splitting

variable {F : Type} [Scalar F]

/-! ## Stored entries -/

namespace Matrix

theorem entry_ofStored {s : Shape} {r c : Nat} (h : (r, c) ∈ s.cells) (xs : Array F) :
    (ofStored s xs).entry r c = xs.getD (s.position r c) 0 := by
  have hplace : s.position r c < s.stored := by
    rw [← Shape.length_cells]
    exact (List.getElem?_eq_some_iff.mp (Shape.getElem?_cells h)).1
  rw [entry, ofStored, Array.getD_eq_getD_getElem?, Array.getElem?_eq_getElem (by simpa)]
  simp

theorem entry_of_cols {m : Matrix F} (h : m.cols = 1) {r : Nat} (hr : r < m.rows) :
    m.entry r 0 = m.entries.getD r 0 := by
  obtain ⟨shape, entries, hs⟩ := m
  cases shape with
  | general rows cols => simp [entry, Shape.position]
  | packed side =>
    obtain rfl : side = 1 := h
    obtain rfl : r = 0 := Nat.lt_one_iff.mp hr
    rfl

omit [Scalar F] in
theorem size_of_cols {m : Matrix F} (h : m.cols = 1) : m.entries.size = m.rows := by
  obtain ⟨shape, entries, hs⟩ := m
  cases shape with
  | general rows cols =>
    obtain rfl : cols = 1 := h
    simpa [Shape.stored, Matrix.rows, Shape.rows] using hs
  | packed side =>
    obtain rfl : side = 1 := h
    exact hs

theorem getD_entries {m : Matrix F} (h : m.shape.isPacked = false ∨ m.cols ≤ 1) {r c : Nat}
    (hr : r < m.rows) (hc : c < m.cols) : m.entries.getD (c * m.rows + r) 0 = m.entry r c := by
  obtain ⟨shape, entries, hs⟩ := m
  cases shape with
  | general rows cols => rfl
  | packed side =>
    have hside : side ≤ 1 := h.resolve_left Bool.noConfusion
    have hr : r < side := hr
    have hc : c < side := hc
    obtain rfl : r = 0 := by omega
    obtain rfl : c = 0 := by omega
    simp [entry, Shape.position, triangle]

omit [Scalar F] in
theorem rows_eq_cols {m : Matrix F} (h : m.shape.isPacked = true) : m.rows = m.cols := by
  obtain ⟨shape, entries, hs⟩ := m
  cases shape with
  | general rows cols => cases h
  | packed side => rfl

theorem getD_entries_last {m : Matrix F} (h : m.shape.isPacked = true) (hm : 2 ≤ m.cols) :
    m.entries.getD ((m.cols - 1) * m.rows + (m.cols - 1)) 0 = 0 := by
  obtain ⟨shape, entries, hs⟩ := m
  cases shape with
  | general rows cols => cases h
  | packed side =>
    have hside : 2 ≤ side := hm
    have hfew : entries.size ≤ (side - 1) * side + (side - 1) := by
      rw [hs, Shape.stored, triangle]
      obtain ⟨k, rfl⟩ := Nat.exists_eq_add_of_le' hside
      refine Nat.div_le_of_le_mul ?_
      rw [show k + 2 - 1 = k + 1 by omega]
      nlinarith
    show entries.getD ((side - 1) * side + (side - 1)) 0 = 0
    rw [Array.getD_eq_getD_getElem?, Array.getElem?_eq_none hfew]
    rfl

end Matrix

namespace Qp

structure Program.Sized (prog : Program F) (n m : Nat) : Prop where
  p_rows : prog.p.rows = n
  p_cols : prog.p.cols = n
  q_rows : prog.q.rows = n
  q_cols : prog.q.cols = 1
  g_rows : prog.g.rows = m
  g_cols : prog.g.cols = n
  h_rows : prog.h.rows = m
  h_cols : prog.h.cols = 1

/-- Stands for `e`: the same number, or zero in place of a zero of either sign. -/
def Reads (e found : F) : Prop := found = e ∨ (e == 0) = true ∧ found = 0

theorem reads_entry_ofMatrix (m : Matrix F) (upper : Bool) {r c : Nat}
    (hr : r < CompressedColumns.height m upper c) (hc : c < m.cols) :
    Reads (m.entry r c) ((CompressedColumns.ofMatrix m upper).entry r c) := by
  rw [CompressedColumns.entry_ofMatrix m upper hr hc]
  split
  · exact Or.inl rfl
  · rename_i h
    exact Or.inr ⟨by simpa [bne] using h, rfl⟩

/-- What both copies have in common: the cost, the bounds, and all sizes. -/
structure Handed (prog : Program F) (n m : Nat) (dense : Program F) (sparse : Sparse F) :
    Prop where
  p_shape : dense.p.shape = .packed n
  q_shape : dense.q.shape = .general n 1
  g_shape : dense.g.shape = .general m n
  h_shape : dense.h.shape = .general m 1
  fits : sparse.fits = true
  sizes : sparse.q.size = n ∧ sparse.h.size = m
  p : ∀ c < n, ∀ r ≤ c, dense.p.entry r c = prog.p.entry r c ∧
    Reads (prog.p.entry r c) (sparse.p.entry r c)
  q : ∀ r < n, dense.q.entry r 0 = prog.q.entry r 0 ∧ sparse.q.getD r 0 = prog.q.entry r 0
  h : ∀ r < m, dense.h.entry r 0 = prog.h.entry r 0 ∧ sparse.h.getD r 0 = prog.h.entry r 0
  g : ∀ r < m, ∀ c < n, Reads (prog.g.entry r c) (sparse.g.entry r c)

section Sized

variable {prog : Program F} {n m : Nat} (h : prog.Sized n m)

include h

theorem Program.Sized.fits : prog.sparse.fits = true := by
  have hq : prog.sparse.q.size = n := (Matrix.size_of_cols h.q_cols).trans h.q_rows
  have hh : prog.sparse.h.size = m := (Matrix.size_of_cols h.h_cols).trans h.h_rows
  have hp := CompressedColumns.size_ofMatrix prog.p true
  have hg := CompressedColumns.size_ofMatrix prog.g false
  rw [h.p_rows, h.p_cols] at hp
  rw [h.g_rows, h.g_cols] at hg
  have hb : prog.sparse.bounds = m := h.h_rows
  unfold Sparse.fits
  rw [hq, hh, hb]
  simp [Program.sparse, hp, hg]

theorem Program.Sized.dense?_eq : prog.dense? = some {
    p := .ofFn (.packed n) prog.p.entry
    q := .ofStored (.general n 1) prog.q.entries
    g := .ofStored (.general m n) prog.g.entries
    h := .ofStored (.general m 1) prog.h.entries } := by
  unfold Program.dense?
  rw [if_pos (by rw [h.q_rows, h.p_rows, h.p_cols]; exact ⟨le_rfl, le_rfl⟩), h.q_rows, h.h_rows]

/-- Both backends get the program, but for the full copy of `G`: its columns are the stored entries
of `G`, from the first to the last. That is `G` if all entries are stored or there is one at most;
of a larger packed `G` it never holds the last entry. -/
theorem Program.handed_over : ∃ dense, prog.dense? = some dense ∧
    Handed prog n m dense prog.sparse ∧
    (∀ r < m, ∀ c < n, dense.g.entry r c = prog.g.entries.getD (c * m + r) 0) ∧
    (prog.g.shape.isPacked = false ∨ n ≤ 1 →
      ∀ r < m, ∀ c < n, dense.g.entry r c = prog.g.entry r c) ∧
    (prog.g.shape.isPacked = true → 2 ≤ n → dense.g.entry (n - 1) (n - 1) = 0) := by
  have hstored : ∀ r < m, ∀ c < n, (Matrix.ofStored (.general m n) prog.g.entries).entry r c =
      prog.g.entries.getD (c * m + r) 0 := fun r hr c hc =>
    Matrix.entry_ofStored (Shape.mem_cells_general.mpr ⟨hr, hc⟩) _
  refine ⟨_, h.dense?_eq, ⟨rfl, rfl, rfl, rfl, h.fits, ⟨?_, ?_⟩, ?_, ?_, ?_, ?_⟩, hstored, ?_, ?_⟩
  · exact (Matrix.size_of_cols h.q_cols).trans h.q_rows
  · exact (Matrix.size_of_cols h.h_cols).trans h.h_rows
  · intro c hc r hrc
    refine ⟨Matrix.entry_ofFn (Shape.mem_cells_packed.mpr ⟨hrc, hc⟩) _,
      reads_entry_ofMatrix _ _ ?_ (h.p_cols ▸ hc)⟩
    simp only [CompressedColumns.height, if_true, h.p_rows]
    omega
  · intro r hr
    have hentry := Matrix.entry_of_cols h.q_cols (h.q_rows ▸ hr)
    refine ⟨?_, hentry.symm⟩
    rw [Matrix.entry_ofStored (Shape.mem_cells_general.mpr ⟨hr, Nat.one_pos⟩), hentry]
    simp [Shape.position]
  · intro r hr
    have hentry := Matrix.entry_of_cols h.h_cols (h.h_rows ▸ hr)
    refine ⟨?_, hentry.symm⟩
    rw [Matrix.entry_ofStored (Shape.mem_cells_general.mpr ⟨hr, Nat.one_pos⟩), hentry]
    simp [Shape.position]
  · intro r hr c hc
    refine reads_entry_ofMatrix _ _ ?_ (h.g_cols ▸ hc)
    simpa [CompressedColumns.height, h.g_rows] using hr
  · rintro hlayout r hr c hc
    rw [hstored r hr c hc, ← h.g_rows]
    exact Matrix.getD_entries (h.g_cols ▸ hlayout) (h.g_rows ▸ hr) (h.g_cols ▸ hc)
  · intro hpacked hn
    have hsame : m = n := by
      rw [← h.g_rows, ← h.g_cols, Matrix.rows_eq_cols hpacked]
    have hlast := Matrix.getD_entries_last hpacked (h.g_cols ▸ hn)
    rw [h.g_cols, h.g_rows] at hlast
    rw [hstored _ (by omega) _ (by omega), hlast]

end Sized

end Qp

/-! ## The programs of the quadratic block -/

namespace Quadratic

def freshProgram (g : Quadratic F) (t : F) (v : Array F) : Qp.Program F :=
  g.program g.scratch t v

theorem ofParts_eq_ok {q f : Matrix F} {c d : Array F} {g : Quadratic F} :
    ofParts q c f d = .ok g ↔ Fits q c f d ∧ g = assemble q c f d := by
  unfold ofParts Fits
  dsimp only
  split_ifs <;> simp_all [eq_comm]

theorem sized_freshProgram {q f : Matrix F} {c d : Array F} {g : Quadratic F}
    (h : ofParts q c f d = .ok g) (t : F) (v : Array F) :
    (g.freshProgram t v).Sized c.size d.size := by
  obtain ⟨⟨-, -, hf, hf'⟩, rfl⟩ := ofParts_eq_ok.mp h
  constructor
  all_goals simp only [freshProgram, program, Matrix.rows, Matrix.cols, Matrix.shape_refill]
  all_goals first | rfl | assumption

section Calls

variable {β : Type} (g : Quadratic F) (b : Qp.Backend β F)

theorem program_of_fitting {g : Quadratic F} {s : Scratch F × β} (h : g.Fitting s) (t : F)
    (v : Array F) : g.program s.1 t v = g.freshProgram t v :=
  program_congr h (g.fitting_scratch s.2) t v

theorem fitting_of_scratch {g : Quadratic F} {s : Scratch F × β} (h : s.1 = g.scratch) :
    g.Fitting s := by
  obtain ⟨s, b₀⟩ := s
  obtain rfl : s = g.scratch := h
  exact g.fitting_scratch b₀

theorem apply_prox (t : F) (v : Array F) (room : Nat) (w : World (Scratch F × β) F) :
    (g.prox b).apply t v room w =
      if v.size = g.dim ∧ room = g.dim then
        let prog := g.program w.state.1 t v
        match b.solve prog g.dim w.state.2 with
        | .ok x β =>
          if x.size = g.dim then .ok x (w.withState (⟨prog.p, prog.q⟩, β))
          else .error .misuse (w.withState (⟨prog.p, prog.q⟩, β))
        | .error h β => .error h (w.withState (⟨prog.p, prog.q⟩, β))
      else .error .misuse w := by
  unfold Prox.apply
  rw [Run.bind_apply, Run.require]
  by_cases hlen : v.size = g.dim ∧ room = g.dim
  · have hlen' : v.size = (g.prox b).dim ∧ room = (g.prox b).dim := hlen
    rw [if_pos hlen, if_pos hlen']
    dsimp only
    rw [Run.bind_apply]
    simp only [prox]
    cases b.solve (g.program w.state.1 t v) g.dim w.state.2 with
    | ok x s =>
      by_cases hx : x.size = g.dim
      · simp only [Run.bind_apply, Run.require, hx, if_true]
        rfl
      · simp only [Run.bind_apply, Run.require, hx, if_false]
    | error h s => rfl
  · have hlen' : ¬(v.size = (g.prox b).dim ∧ room = (g.prox b).dim) := hlen
    rw [if_neg hlen, if_neg hlen']

theorem fitting_left (t : F) (v : Array F) (room : Nat) {w : World (Scratch F × β) F}
    (hw : g.Fitting w.state) :
    g.Fitting (Run.left ((g.prox b).apply t v room w)).state := by
  rw [apply_prox]
  dsimp only
  split_ifs
  · cases b.solve (g.program w.state.1 t v) g.dim w.state.2 with
    | ok x s =>
      dsimp only
      split_ifs <;> exact fitting_program hw t v s
    | error h s => exact fitting_program hw t v s
  · exact hw

section Answer

variable {t : F} {v : Array F} (hv : v.size = g.dim) {w : World (Scratch F × β) F}
  (hw : g.Fitting w.state)

include hv hw

theorem answer_prox_of_ok {x : Array F} (hx : x.size = g.dim)
    (h : Run.answer (b.solve (g.freshProgram t v) g.dim w.state.2) = .ok x) :
    Run.answer ((g.prox b).apply t v g.dim w) = .ok x := by
  rw [apply_prox, if_pos ⟨hv, rfl⟩, program_of_fitting hw]
  dsimp only
  cases hs : b.solve (g.freshProgram t v) g.dim w.state.2 with
  | ok y s =>
    rw [hs] at h
    cases h
    exact congrArg Run.answer (if_pos hx)
  | error e s =>
    rw [hs] at h
    cases h

theorem answer_prox_of_error {e : Halt ProxError}
    (h : Run.answer (b.solve (g.freshProgram t v) g.dim w.state.2) = .error e) :
    Run.answer ((g.prox b).apply t v g.dim w) = .error e := by
  rw [apply_prox, if_pos ⟨hv, rfl⟩, program_of_fitting hw]
  dsimp only
  cases hs : b.solve (g.freshProgram t v) g.dim w.state.2 with
  | ok y s =>
    rw [hs] at h
    cases h
  | error h' s =>
    rw [hs] at h
    cases h
    rfl

end Answer

end Calls

end Quadratic

namespace Qp

def unit (s : Shape) : Matrix Float := Matrix.ofFn s fun r c => if r = c then 1 else 0

/-- `(x² + y²) / 2` over `x ≤ 1`, `y ≤ 1`, with these bounds in the given layout. -/
def unitBlock (s : Shape) : Quadratic Float :=
  .assemble ((unit (.packed 2)).scale 0.5) #[0, 0] (unit s) #[1, 1]

def unitProgram (s : Shape) : Program Float := (unitBlock s).freshProgram 1 #[4, 4]

theorem unitProgram_handed_over : (unitProgram (.general 2 2)).Sized 2 2 ∧
    ∃ dense, (unitProgram (.general 2 2)).dense? = some dense ∧
      Handed (unitProgram (.general 2 2)) 2 2 dense (unitProgram (.general 2 2)).sparse ∧
      dense.g.entry 1 1 = (unitProgram (.general 2 2)).g.entry 1 1 := by
  have hsized : (unitProgram (.general 2 2)).Sized 2 2 := ⟨rfl, rfl, rfl, rfl, rfl, rfl, rfl, rfl⟩
  obtain ⟨dense, hdense, hhanded, -, hsame, -⟩ := Program.handed_over hsized
  exact ⟨hsized, dense, hdense, hhanded, hsame (Or.inl rfl) 1 one_lt_two 1 one_lt_two⟩

/-- The block is accepted with packed bounds too, and the full copy of `G` has lost the second. -/
theorem unitProgram_packed_misread :
    Quadratic.ofParts ((unit (.packed 2)).scale 0.5) #[0, 0] (unit (.packed 2)) #[1, 1] =
        .ok (unitBlock (.packed 2)) ∧
      (unitProgram (.packed 2)).Sized 2 2 ∧
      (unitProgram (.packed 2)).g.entry 0 1 = 0 ∧ (unitProgram (.packed 2)).g.entry 1 1 = 1 ∧
      (unitProgram (.packed 2)).sparse.g.entry 0 1 = 0 ∧
      (unitProgram (.packed 2)).sparse.g.entry 1 1 = 1 ∧
      ∃ dense, (unitProgram (.packed 2)).dense? = some dense ∧ dense.g.entry 0 1 = 1 ∧
        dense.g.entry 1 1 = 0 := by
  refine ⟨rfl, ⟨rfl, rfl, rfl, rfl, rfl, rfl, rfl, rfl⟩, ?_, ?_, ?_, ?_, _, rfl, ?_, ?_⟩
  all_goals decide +kernel

end Qp

end Splitting
