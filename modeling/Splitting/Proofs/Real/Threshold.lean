import Splitting.Proofs.Real.Agreement
import Splitting.Proofs.Real.LogDet
import Splitting.Proofs.Covariance

/-!
# The threshold of a diagonal estimate

The iteration of the sparse inverse covariance has a fixed point with a diagonal estimate exactly
from the largest magnitude off the diagonal of the sample covariance on. The estimate is known then,
and so is a point to start from where a run ends at once.
-/

namespace Splitting

/-! ## Entries column by column -/

section Columnwise

variable {n : ℕ}

noncomputable def columnwise (n : ℕ) (f : ℕ → ℕ → ℝ) : Array ℝ :=
  (Matrix.ofFn (.general n n) f).entries

@[simp] theorem size_columnwise (f : ℕ → ℕ → ℝ) : (columnwise n f).size = n * n :=
  Matrix.size_entries _

theorem getD_columnwise (f : ℕ → ℕ → ℝ) {r c : ℕ} (hr : r < n) (hc : c < n) :
    (columnwise n f).getD (c * n + r) 0 = f r c :=
  Matrix.entry_ofFn (Shape.mem_cells_general.mpr ⟨hr, hc⟩) f

theorem cell_lt {r c : ℕ} (hr : r < n) (hc : c < n) : c * n + r < n * n := by
  have hcol : (c + 1) * n ≤ n * n := Nat.mul_le_mul_right n hc
  rw [Nat.succ_mul] at hcol
  omega

theorem forall_cell {P : ℕ → Prop} : (∀ i < n * n, P i) ↔ ∀ r < n, ∀ c < n, P (c * n + r) := by
  constructor
  · exact fun h r hr c hc => h _ (cell_lt hr hc)
  · intro h i hi
    have hpos : 0 < n := Nat.pos_of_ne_zero fun h0 => by simp [h0] at hi
    have hi' := h (i % n) (Nat.mod_lt i hpos) (i / n) (Nat.div_lt_of_lt_mul hi)
    rwa [Nat.div_add_mod'] at hi'

theorem eq_columnwise {x : Array ℝ} {f : ℕ → ℕ → ℝ} (hx : x.size = n * n)
    (h : ∀ r < n, ∀ c < n, x.getD (c * n + r) 0 = f r c) : x = columnwise n f := by
  have hentry : ∀ i < n * n, x.getD i 0 = (columnwise n f).getD i 0 :=
    forall_cell.mpr fun r hr c hc => by rw [h r hr c hc, getD_columnwise f hr hc]
  refine Array.ext (by rw [hx, size_columnwise]) fun i hi hi' => ?_
  rw [← getD_of_lt hi, ← getD_of_lt hi']
  exact hentry i (hx ▸ hi)

end Columnwise

theorem LogDet.prox_total [Spectral ℝ] (f : LogDet ℝ) (t : ℝ) : f.prox.Total t := by
  intro v w _
  have hfinite : ∀ x : Array ℝ, x.all Scalar.isFinite = true := fun x => by
    rw [Array.all_eq_true_iff_forall_mem]
    exact fun _ _ => rfl
  simp only [LogDet.prox, hfinite, if_true]
  exact ⟨_, _, rfl, LogDet.size_flat _ _⟩

namespace Covariance

/-! ## The largest magnitude -/

theorem fold_max_le_iff (g : ℕ → ℝ) (n : ℕ) (a b : ℝ) :
    n.fold (fun r _ a => Scalar.maxNum a (g r)) a ≤ b ↔ a ≤ b ∧ ∀ r < n, g r ≤ b := by
  induction n with
  | zero => simp
  | succ n ih =>
    rw [Nat.fold_succ]
    show max _ (g n) ≤ b ↔ _
    rw [max_le_iff, ih, Nat.forall_lt_succ_right, and_assoc]

theorem alphaMax_le_iff {prob : Covariance ℝ} {alpha : ℝ} (h : 0 ≤ alpha) :
    prob.alphaMax ≤ alpha ↔
      ∀ c < prob.side, ∀ r < c, |prob.sample.entry r c| ≤ alpha := by
  have hcols : ∀ n a, n.fold (fun c _ a => c.fold (fun r _ a =>
      Scalar.maxNum a (Scalar.abs (prob.sample.entry r c))) a) a ≤ alpha ↔
        a ≤ alpha ∧ ∀ c < n, ∀ r < c, |prob.sample.entry r c| ≤ alpha := by
    intro n a
    induction n with
    | zero => simp
    | succ n ih =>
      rw [Nat.fold_succ, fold_max_le_iff, ih, Nat.forall_lt_succ_right, and_assoc]
      rfl
  exact (hcols prob.side 0).trans (and_iff_right h)

theorem abs_entry_le_of_alphaMax {prob : Covariance ℝ} {alpha : ℝ}
    (hsample : prob.sample.shape = .packed prob.side) (halpha : 0 ≤ alpha)
    (hmax : prob.alphaMax ≤ alpha) {r c : ℕ} (hr : r < prob.side) (hc : c < prob.side)
    (hrc : r ≠ c) : |prob.sample.entry r c| ≤ alpha := by
  have hall := (alphaMax_le_iff halpha).mp hmax
  rcases Nat.lt_or_gt_of_ne hrc with hlt | hgt
  · exact hall c hc r hlt
  · rw [Matrix.entry_comm hsample]
    exact hall r hr c hgt

/-! ## An iteration -/

open Solver

/-- What the blocks answer at `v`: the first one maps the eigenvalues of `m`, the second one
shrinks. -/
structure Seen [Spectral ℝ] (prob : Covariance ℝ) (alpha rho : ℝ) (v x : Array ℝ)
    (m : Matrix ℝ) : Prop where
  shape : m.shape = .packed prob.side
  shifted : ∀ r < prob.side, ∀ c < prob.side, m.entry r c =
    (v.getD (c * prob.side + r) 0 + v.getD (r * prob.side + c) 0) / 2 -
      rho * prob.sample.entry r c
  first : ∀ r < prob.side, ∀ c < prob.side, x.getD (c * prob.side + r) 0 =
    (Spectral.mapEig m prob.epsZero (LogDet.root rho)).entry r c
  second : ∀ i < prob.side * prob.side, x.getD (prob.side * prob.side + i) 0 =
    AbsSum.shrink (rho * alpha) (v.getD (prob.side * prob.side + i) 0)

/-- The blocks answer the same, and their slopes cancel. -/
def Balanced (n : ℕ) (v x : Array ℝ) : Prop :=
  ∀ i < n, x.getD i 0 = x.getD (n + i) 0 ∧
    (v.getD i 0 - x.getD i 0) + (v.getD (n + i) 0 - x.getD (n + i) 0) = 0

section Entries

variable [Spectral ℝ] {prob : Covariance ℝ} {alpha rho : ℝ} {v x : Array ℝ} {m : Matrix ℝ}

section Settled

variable (hexact : ExactSpectrum) (hrho : 0 < rho) (h : prob.Seen alpha rho v x m)
  (hbal : Balanced (prob.side * prob.side) v x)
  (hdiag : IsDiagonal prob.side fun r c => x.getD (c * prob.side + r) 0)

include hexact hrho h hdiag

theorem Seen.isDiagonal : IsDiagonal prob.side m.entry := by
  refine LogDet.isDiagonal_of_image hexact h.shape hrho prob.epsZero fun r hr c hc hrc => ?_
  rw [← h.first r hr c hc]
  exact hdiag r hr c hc hrc

include hbal

theorem Seen.abs_entry_le {r c : ℕ} (hr : r < prob.side) (hc : c < prob.side) (hrc : r ≠ c) :
    |prob.sample.entry r c| ≤ alpha := by
  have hslope : ∀ r < prob.side, ∀ c < prob.side, r ≠ c →
      |v.getD (c * prob.side + r) 0| ≤ rho * alpha := by
    intro r hr c hc hrc
    have hi := cell_lt hr hc
    obtain ⟨hsame, hcancel⟩ := hbal _ hi
    have hfirst := hdiag r hr c hc hrc
    dsimp only at hfirst
    rw [hfirst] at hsame hcancel
    have hshrunk := h.second _ hi
    rw [← hsame] at hshrunk hcancel
    have hle := AbsSum.shrink_eq_zero_iff.mp hshrunk.symm
    have hneg : v.getD (c * prob.side + r) 0 =
        -v.getD (prob.side * prob.side + (c * prob.side + r)) 0 := by linarith
    rw [hneg, abs_neg]
    exact hle
  have hzero := h.isDiagonal hexact hrho hdiag r hr c hc hrc
  rw [h.shifted r hr c hc] at hzero
  have hupper := abs_le.mp (hslope r hr c hc hrc)
  have hlower := abs_le.mp (hslope c hc r hr hrc.symm)
  have hscaled : |rho * prob.sample.entry r c| ≤ rho * alpha :=
    abs_le.mpr ⟨by linarith, by linarith⟩
  rw [abs_mul, abs_of_pos hrho] at hscaled
  exact le_of_mul_le_mul_left hscaled hrho

theorem Seen.diagonal_entry {c : ℕ} (hc : c < prob.side) :
    x.getD (c * prob.side + c) 0 = 1 / (prob.sample.entry c c + alpha) := by
  have hi := cell_lt hc hc
  have hroot := h.first c hc c hc
  rw [LogDet.entry_image_of_isDiagonal hexact h.shape prob.epsZero
    (h.isDiagonal hexact hrho hdiag) hc hc, if_pos rfl] at hroot
  obtain ⟨hpos, hquad⟩ := LogDet.root_spec hrho (m.entry c c)
  rw [← hroot] at hpos hquad
  obtain ⟨hsame, hcancel⟩ := hbal _ hi
  have hshrunk := h.second _ hi
  rw [← hsame] at hshrunk hcancel
  have hlift := AbsSum.eq_add_of_shrink_pos (hshrunk ▸ hpos)
  rw [← hshrunk] at hlift
  have hentry := h.shifted c hc c hc
  generalize x.getD (c * prob.side + c) 0 = d at *
  have hshifted : m.entry c c = d - rho * (prob.sample.entry c c + alpha) := by
    rw [hentry]
    linarith
  rw [hshifted] at hquad
  have hone : rho * (d * (prob.sample.entry c c + alpha)) = rho * 1 := by linarith
  exact eq_one_div_of_mul_eq_one_left (mul_left_cancel₀ hrho.ne' hone)

end Settled

/-! ## The point to start from -/

/-- The matrix `1 / (Qᵢᵢ + alpha)`. -/
noncomputable def diagonalEntry (prob : Covariance ℝ) (alpha : ℝ) (r c : ℕ) : ℝ :=
  if r = c then 1 / (prob.sample.entry r r + alpha) else 0

/-- The slope at that matrix: `rho Q` off the diagonal, and `-rho alpha` on it. -/
noncomputable def slopeEntry (prob : Covariance ℝ) (alpha rho : ℝ) (r c : ℕ) : ℝ :=
  if r = c then -(rho * alpha) else rho * prob.sample.entry r c

section Start

variable (hexact : ExactSpectrum) (hsample : prob.sample.shape = .packed prob.side)
  (halpha : 0 ≤ alpha) (hrho : 0 < rho) (hpos : ∀ i < prob.side, 0 < prob.sample.entry i i + alpha)
  (hsmall : ∀ r < prob.side, ∀ c < prob.side, r ≠ c → |prob.sample.entry r c| ≤ alpha)
  (h : prob.Seen alpha rho v x m)

include hexact hsample hrho hpos h in
theorem Seen.first_of_start (hv : ∀ r < prob.side, ∀ c < prob.side,
      v.getD (c * prob.side + r) 0 = prob.diagonalEntry alpha r c + prob.slopeEntry alpha rho r c)
    {r c : ℕ} (hr : r < prob.side) (hc : c < prob.side) :
    x.getD (c * prob.side + r) 0 = prob.diagonalEntry alpha r c := by
  have hdiag : IsDiagonal prob.side m.entry := by
    intro r hr c hc hrc
    rw [h.shifted r hr c hc, hv r hr c hc, hv c hc r hr]
    unfold diagonalEntry slopeEntry
    rw [if_neg hrc, if_neg hrc, if_neg hrc.symm, if_neg hrc.symm, Matrix.entry_comm hsample c r]
    ring
  rw [h.first r hr c hc, LogDet.entry_image_of_isDiagonal hexact h.shape prob.epsZero hdiag hr hc]
  unfold diagonalEntry
  rcases eq_or_ne r c with rfl | hrc
  · rw [if_pos rfl, if_pos rfl]
    refine LogDet.root_eq (one_div_pos.mpr (hpos r hr)) ?_ hrho
    rw [h.shifted r hr r hr, hv r hr r hr]
    unfold diagonalEntry slopeEntry
    rw [if_pos rfl, if_pos rfl]
    have hone := one_div_mul_cancel (hpos r hr).ne'
    linear_combination rho * hone
  · rw [if_neg hrc, if_neg hrc]

include halpha hrho hpos hsmall h in
theorem Seen.second_of_start (hv : ∀ r < prob.side, ∀ c < prob.side,
      v.getD (prob.side * prob.side + (c * prob.side + r)) 0 =
        prob.diagonalEntry alpha r c - prob.slopeEntry alpha rho r c)
    {r c : ℕ} (hr : r < prob.side) (hc : c < prob.side) :
    x.getD (prob.side * prob.side + (c * prob.side + r)) 0 = prob.diagonalEntry alpha r c := by
  rw [h.second _ (cell_lt hr hc), hv r hr c hc]
  unfold diagonalEntry slopeEntry
  rcases eq_or_ne r c with rfl | hrc
  · rw [if_pos rfl, if_pos rfl, sub_neg_eq_add]
    exact AbsSum.shrink_add (one_div_pos.mpr (hpos r hr)).le (mul_nonneg hrho.le halpha)
  · rw [if_neg hrc, if_neg hrc, AbsSum.shrink_eq_zero_iff, zero_sub, abs_neg, abs_mul,
      abs_of_pos hrho]
    exact mul_le_mul_of_nonneg_left (hsmall r hr c hc hrc) hrho.le

end Start

end Entries

/-! ## Fixed points -/

section Shifted

variable {prob : Covariance ℝ} (hsample : prob.sample.shape = .packed prob.side)

include hsample

theorem entry_logDet {r c : ℕ}
    (hr : r < prob.side) (hc : c < prob.side) :
    prob.logDet.q.entry r c = prob.sample.entry r c :=
  Matrix.entry_ofFn_packed (Matrix.entry_comm hsample r c) hr hc

theorem entry_shifted (rho : ℝ) (v : Array ℝ)
    {r c : ℕ} (hr : r < prob.side) (hc : c < prob.side) :
    (Matrix.ofFn (.packed prob.side) (prob.logDet.shifted rho v)).entry r c =
      (v.getD (c * prob.side + r) 0 + v.getD (r * prob.side + c) 0) / 2 -
        rho * prob.sample.entry r c := by
  have htwo : (Scalar.two : ℝ) = 2 := one_add_one_eq_two
  have hcomm : prob.logDet.shifted rho v r c = prob.logDet.shifted rho v c r := by
    unfold LogDet.shifted
    rw [Matrix.entry_comm (m := prob.logDet.q) rfl r c, add_comm]
  rw [Matrix.entry_ofFn_packed hcomm hr hc, LogDet.shifted, htwo, entry_logDet hsample hr hc]
  rfl

end Shifted

section Look

variable [Spectral ℝ] {prob : Covariance ℝ} {alpha : ℝ} {par : Params ℝ} {proj : Projection ℝ}
  {q : Progress ℝ} {w u : World (LogDet.Scratch ℝ) ℝ} {s : Sight ℝ}

theorem blocks_of_look (hs : look par (prob.parts alpha).proxes proj q w = .ok s u) :
    ∃ x₁ x₂ u₁, s.x = x₁ ++ x₂ ∧
      prob.logDet.prox.apply par.rho (q.v.extract 0 (0 + prob.side * prob.side))
        (prob.side * prob.side) (opened par q.iter w) = .ok x₁ u₁ ∧
      (AbsSum.prox (prob.side * prob.side) alpha).apply par.rho
        (q.v.extract (0 + prob.side * prob.side)
          (0 + prob.side * prob.side + prob.side * prob.side)) (prob.side * prob.side) u₁ =
        .ok x₂ u := by
  obtain ⟨xs, hxs, hx⟩ := proxPoints_eq_ok.mp (look_eq_ok.mp hs).1
  cases hxs with
  | cons h₁ hrest =>
    cases hrest with
    | cons h₂ hnil =>
      cases hnil
      rw [Array.empty_append, stack_cons, stack_cons, stack_nil, Array.append_empty] at hx
      exact ⟨_, _, _, hx, h₁, h₂⟩

theorem seen_of_look (hsample : prob.sample.shape = .packed prob.side)
    (hv : q.v.size = prob.side * prob.side + prob.side * prob.side)
    (hw : w.state.image.shape = .packed prob.side)
    (hs : look par (prob.parts alpha).proxes proj q w = .ok s u) :
    ∃ m, prob.Seen alpha par.rho q.v s.x m := by
  obtain ⟨x₁, x₂, u₁, hx, h₁, h₂⟩ := blocks_of_look hs
  obtain ⟨-, -, heval₁, hsize₁⟩ := apply_eq_ok.mp h₁
  obtain ⟨-, -, heval₂, -⟩ := apply_eq_ok.mp h₂
  have hfirst := LogDet.flat_of_eval heval₁
  rw [state_opened, Matrix.refill_eq_ofFn, hw] at hfirst
  cases heval₂
  have hsize₁ : x₁.size = prob.side * prob.side := hsize₁
  have hpart : ∀ i < prob.side * prob.side,
      (q.v.extract 0 (0 + prob.side * prob.side)).getD i 0 = q.v.getD i 0 := fun i hi => by
    rw [Projection.getD_extract hi (by omega), Nat.zero_add]
  refine ⟨Matrix.ofFn (.packed prob.side) (prob.logDet.shifted par.rho
    (q.v.extract 0 (0 + prob.side * prob.side))), rfl, fun r hr c hc => ?_, fun r hr c hc => ?_,
    fun i hi => ?_⟩
  · rw [entry_shifted hsample par.rho _ hr hc, hpart _ (cell_lt hr hc), hpart _ (cell_lt hc hr)]
  · have hlt := cell_lt hr hc
    rw [hx, getD_append_left (by rw [hsize₁]; exact hlt), hfirst]
    exact getD_columnwise _ hr hc
  · rw [hx, ← hsize₁, getD_append_right, hsize₁, AbsSum.getD_map_shrink _ (by simp; omega),
      Projection.getD_extract hi (by omega), Nat.zero_add]

end Look

/-! ## The coupling of the problem -/

section Coupling

variable {prob : Covariance ℝ} {alpha : ℝ} [Spectral ℝ]

theorem parts_isLinear : ∀ g ∈ (prob.parts alpha).couplings, g.IsLinear := by
  intro g hg
  simp only [parts, List.mem_cons, List.not_mem_nil, or_false] at hg
  rcases hg with rfl | rfl
  · exact Operator.isLinear_scaledIdentity _ 1
  · exact Operator.isLinear_scaledIdentity _ (-1)

theorem agreement_of_parts {epsZero : ℝ} {proj : Projection ℝ}
    (hproj : Projection.ofCouplings? (prob.parts alpha).couplings (prob.parts alpha).dims
      (prob.parts alpha).rhs epsZero = some proj) :
    proj.Agreement (prob.side * prob.side) ∧
      proj.Linear (prob.side * prob.side + prob.side * prob.side) := by
  obtain ⟨hparts, hrhs, hlin⟩ :=
    linear_of_ofCouplings? parts_isLinear (prob.shapeDefect?_parts alpha) hproj
  exact ⟨⟨hparts, hrhs⟩, hlin⟩

theorem parts_total (t : ℝ) : ∀ f ∈ (prob.parts alpha).proxes, f.Total t := by
  intro f hf
  simp only [parts, List.mem_cons, List.not_mem_nil, or_false] at hf
  rcases hf with rfl | rfl
  · exact prob.logDet.prox_total t
  · exact AbsSum.prox_total _ alpha t

end Coupling

/-! ## The threshold -/

noncomputable def diagonalBlock (prob : Covariance ℝ) (alpha : ℝ) : Array ℝ :=
  columnwise prob.side (prob.diagonalEntry alpha)

/-- A point whose first part lies as far above the estimate as the second one lies below. -/
noncomputable def startBlocks (prob : Covariance ℝ) (alpha rho : ℝ) : List (Array ℝ) :=
  [columnwise prob.side fun r c => prob.diagonalEntry alpha r c + prob.slopeEntry alpha rho r c,
    columnwise prob.side fun r c => prob.diagonalEntry alpha r c - prob.slopeEntry alpha rho r c]

def HasDiagonal (prob : Covariance ℝ) (blocks : List (Array ℝ)) : Prop :=
  IsDiagonal prob.side fun r c => (blocks.headD #[]).getD (c * prob.side + r) 0

/-- The iteration at `v` sees `s`, and leads back to `v`. -/
def SettlesAt [Spectral ℝ] (prob : Covariance ℝ) (alpha : ℝ) (par : Params ℝ)
    (proj : Projection ℝ) (v : Array ℝ) (s : Sight ℝ) : Prop :=
  ∃ (q : Progress ℝ) (w u : World (LogDet.Scratch ℝ) ℝ), q.v = v ∧
    q.Sized (total (prob.parts alpha).dims) proj.rhs.size ∧
    w.state.image.shape = .packed prob.side ∧
    look par (prob.parts alpha).proxes proj q w = .ok s u ∧ s.measure.image = v

section Blocks

variable {prob : Covariance ℝ} {alpha : ℝ}

theorem hasDiagonal_diagonalBlock (rest : List (Array ℝ)) :
    prob.HasDiagonal (prob.diagonalBlock alpha :: rest) := by
  intro r hr c hc hrc
  exact (getD_columnwise _ hr hc).trans (if_neg hrc)

theorem size_stack_startBlocks (rho : ℝ) :
    (stack (prob.startBlocks alpha rho)).size =
      prob.side * prob.side + prob.side * prob.side := by
  simp [startBlocks]

theorem getD_startBlocks (rho : ℝ) {r c : ℕ} (hr : r < prob.side) (hc : c < prob.side) :
    (stack (prob.startBlocks alpha rho)).getD (c * prob.side + r) 0 =
        prob.diagonalEntry alpha r c + prob.slopeEntry alpha rho r c ∧
      (stack (prob.startBlocks alpha rho)).getD (prob.side * prob.side + (c * prob.side + r)) 0 =
        prob.diagonalEntry alpha r c - prob.slopeEntry alpha rho r c := by
  have hlt := cell_lt hr hc
  rw [startBlocks, stack_cons, stack_cons, stack_nil, Array.append_empty]
  constructor
  · rw [getD_append_left (by simpa using hlt), getD_columnwise _ hr hc]
  · have hright := getD_append_right
      (columnwise prob.side fun r c => prob.diagonalEntry alpha r c + prob.slopeEntry alpha rho r c)
      (columnwise prob.side fun r c => prob.diagonalEntry alpha r c - prob.slopeEntry alpha rho r c)
      (c * prob.side + r)
    rw [size_columnwise] at hright
    rw [hright, getD_columnwise _ hr hc]

variable [Spectral ℝ]

theorem cut_eq_diagonalBlock {x : Array ℝ}
    (hx : x.size = prob.side * prob.side + prob.side * prob.side)
    (hfirst : ∀ r < prob.side, ∀ c < prob.side,
      x.getD (c * prob.side + r) 0 = prob.diagonalEntry alpha r c)
    (hsecond : ∀ r < prob.side, ∀ c < prob.side,
      x.getD (prob.side * prob.side + (c * prob.side + r)) 0 = prob.diagonalEntry alpha r c) :
    cut x (prob.parts alpha).dims 0 = [prob.diagonalBlock alpha, prob.diagonalBlock alpha] := by
  show [x.extract 0 (0 + prob.side * prob.side), x.extract (0 + prob.side * prob.side)
    (0 + prob.side * prob.side + prob.side * prob.side)] = _
  congr 1
  · refine eq_columnwise (by simp; omega) fun r hr c hc => ?_
    rw [Projection.getD_extract (cell_lt hr hc) (by omega), Nat.zero_add]
    exact hfirst r hr c hc
  · congr 1
    refine eq_columnwise (by simp; omega) fun r hr c hc => ?_
    rw [Projection.getD_extract (cell_lt hr hc) (by omega), Nat.zero_add]
    exact hsecond r hr c hc

theorem isDiagonal_of_hasDiagonal {x : Array ℝ}
    (hx : x.size = prob.side * prob.side + prob.side * prob.side)
    (h : prob.HasDiagonal (cut x (prob.parts alpha).dims 0)) :
    IsDiagonal prob.side fun r c => x.getD (c * prob.side + r) 0 := by
  intro r hr c hc hrc
  have hentry : (x.extract 0 (0 + prob.side * prob.side)).getD (c * prob.side + r) 0 = 0 :=
    h r hr c hc hrc
  rwa [Projection.getD_extract (cell_lt hr hc) (by omega), Nat.zero_add] at hentry

end Blocks

section Threshold

variable [Spectral ℝ] (hexact : ExactSpectrum) {prob : Covariance ℝ} {alpha : ℝ} {par : Params ℝ}
  {proj : Projection ℝ} (hsample : prob.sample.shape = .packed prob.side) (halpha : 0 ≤ alpha)
  (hpos : ∀ i < prob.side, 0 < prob.sample.entry i i + alpha) (hrho : 0 < par.rho)
  (hagree : proj.Agreement (prob.side * prob.side))
  (hlin : proj.Linear (prob.side * prob.side + prob.side * prob.side))
  (hweight : ∀ y, proj.weight y = (1 / 2 : ℝ) • y)
  {q : Progress ℝ} {w u : World (LogDet.Scratch ℝ) ℝ} {s : Sight ℝ}
  (hq : q.Sized (total (prob.parts alpha).dims) proj.rhs.size)
  (hw : w.state.image.shape = .packed prob.side)
  (hs : look par (prob.parts alpha).proxes proj q w = .ok s u)

section Residuals

include hrho hagree hlin hweight hq hs

theorem balanced_iff :
    s.measure.image = q.v ↔ Balanced (prob.side * prob.side) q.v s.x :=
  settled_iff hagree hlin rfl hq hs hweight hrho

theorem residuals_of_balanced (hbal : Balanced (prob.side * prob.side) q.v s.x) :
    s.measure.primal = 0 ∧ s.measure.dual = 0 :=
  ⟨(primal_eq_zero_iff hagree hlin rfl hq hs).mpr fun i hi => (hbal i hi).1,
    (dual_eq_zero_iff hagree hlin rfl hq hs hweight hrho).mpr fun i hi => (hbal i hi).2⟩

end Residuals

include hexact hsample hrho hagree hlin hweight hq hw hs

theorem of_hasDiagonal (hfix : s.measure.image = q.v)
    (hdiag : prob.HasDiagonal (cut s.x (prob.parts alpha).dims 0)) :
    (∀ r < prob.side, ∀ c < prob.side, r ≠ c → |prob.sample.entry r c| ≤ alpha) ∧
      cut s.x (prob.parts alpha).dims 0 = [prob.diagonalBlock alpha, prob.diagonalBlock alpha] ∧
      s.measure.primal = 0 ∧ s.measure.dual = 0 := by
  have hx : s.x.size = prob.side * prob.side + prob.side * prob.side :=
    size_of_proxPoints (look_eq_ok.mp hs).1
  have hbal := (balanced_iff hrho hagree hlin hweight hq hs).mp hfix
  obtain ⟨m, hseen⟩ := seen_of_look hsample hq.v hw hs
  have hdiag := isDiagonal_of_hasDiagonal hx hdiag
  have hfirst : ∀ r < prob.side, ∀ c < prob.side,
      s.x.getD (c * prob.side + r) 0 = prob.diagonalEntry alpha r c := by
    intro r hr c hc
    unfold diagonalEntry
    rcases eq_or_ne r c with rfl | hrc
    · rw [if_pos rfl]
      exact hseen.diagonal_entry hexact hrho hbal hdiag hr
    · rw [if_neg hrc]
      exact hdiag r hr c hc hrc
  refine ⟨fun r hr c hc => hseen.abs_entry_le hexact hrho hbal hdiag hr hc,
    cut_eq_diagonalBlock hx hfirst fun r hr c hc => ?_,
    residuals_of_balanced hrho hagree hlin hweight hq hs hbal⟩
  rw [← (hbal _ (cell_lt hr hc)).1]
  exact hfirst r hr c hc

include halpha hpos in
theorem settles_of_start (hmax : prob.alphaMax ≤ alpha)
    (hv : q.v = stack (prob.startBlocks alpha par.rho)) :
    s.measure.image = q.v ∧
      cut s.x (prob.parts alpha).dims 0 = [prob.diagonalBlock alpha, prob.diagonalBlock alpha] ∧
      s.measure.primal = 0 ∧ s.measure.dual = 0 := by
  have hx : s.x.size = prob.side * prob.side + prob.side * prob.side :=
    size_of_proxPoints (look_eq_ok.mp hs).1
  obtain ⟨m, hseen⟩ := seen_of_look hsample hq.v hw hs
  have hstart : ∀ r < prob.side, ∀ c < prob.side,
      q.v.getD (c * prob.side + r) 0 =
          prob.diagonalEntry alpha r c + prob.slopeEntry alpha par.rho r c ∧
        q.v.getD (prob.side * prob.side + (c * prob.side + r)) 0 =
          prob.diagonalEntry alpha r c - prob.slopeEntry alpha par.rho r c :=
    fun r hr c hc => hv ▸ getD_startBlocks par.rho hr hc
  have hfirst : ∀ r < prob.side, ∀ c < prob.side,
      s.x.getD (c * prob.side + r) 0 = prob.diagonalEntry alpha r c := fun r hr c hc =>
    hseen.first_of_start hexact hsample hrho hpos (fun r hr c hc => (hstart r hr c hc).1) hr hc
  have hsecond : ∀ r < prob.side, ∀ c < prob.side,
      s.x.getD (prob.side * prob.side + (c * prob.side + r)) 0 = prob.diagonalEntry alpha r c :=
    fun r hr c hc => hseen.second_of_start halpha hrho hpos
      (fun r hr c hc => abs_entry_le_of_alphaMax hsample halpha hmax hr hc)
      (fun r hr c hc => (hstart r hr c hc).2) hr hc
  have hbal : Balanced (prob.side * prob.side) q.v s.x := forall_cell.mpr fun r hr c hc => by
    obtain ⟨habove, hbelow⟩ := hstart r hr c hc
    rw [hfirst r hr c hc, hsecond r hr c hc, habove, hbelow]
    exact ⟨rfl, by ring⟩
  exact ⟨(balanced_iff hrho hagree hlin hweight hq hs).mpr hbal,
    cut_eq_diagonalBlock hx hfirst hsecond,
    residuals_of_balanced hrho hagree hlin hweight hq hs hbal⟩

end Threshold

theorem solve_from_start [Spectral ℝ] (hexact : ExactSpectrum) {prob : Covariance ℝ}
    (hsample : prob.sample.shape = .packed prob.side) {alpha : ℝ} (halpha : 0 ≤ alpha)
    (hpos : ∀ i < prob.side, 0 < prob.sample.entry i i + alpha) {par : Params ℝ}
    (hpar : par.broken? = none) {proj : Projection ℝ}
    (hproj : Projection.ofCouplings? (prob.parts alpha).couplings (prob.parts alpha).dims
      (prob.parts alpha).rhs par.epsZero = some proj)
    (hweight : ∀ y, proj.weight y = (1 / 2 : ℝ) • y) (hmax : prob.alphaMax ≤ alpha)
    {budget : ℕ} (hbudget : 0 < budget) (hroom : HasRoom par (prob.parts alpha).dims)
    {w : World (LogDet.Scratch ℝ) ℝ} (hw : w.state.image.shape = .packed prob.side) :
    ∃ a v, solve budget par (some (prob.startBlocks alpha par.rho)) (prob.parts alpha) w =
        .ok (some a) v ∧ a.iterations = 1 ∧
      a.blocks = [prob.diagonalBlock alpha, prob.diagonalBlock alpha] := by
  have hsizes : ∀ vs, some (prob.startBlocks alpha par.rho) = some vs →
      vs.map Array.size = (prob.parts alpha).dims := by
    rintro _ ⟨⟩
    simp only [startBlocks, List.map_cons, List.map_nil, size_columnwise]
    rfl
  have hsound : ∀ g ∈ (prob.parts alpha).couplings, g.Sound :=
    fun g hg => (parts_isLinear g hg).sound
  have hd := defect?_eq_none.mpr ⟨hpar, prob.shapeDefect?_parts alpha, hsizes⟩
  obtain ⟨proj', u, hp⟩ := prepare_total hd hroom hsound w
  obtain ⟨-, hproj', -, hu⟩ := prepare_eq_ok.mp hp
  obtain rfl : proj = proj' := Option.some.inj (hproj.symm.trans hproj')
  obtain ⟨-, hrho, -⟩ := Params.broken?_eq_none.mp hpar
  obtain ⟨hagree, hlin⟩ := agreement_of_parts hproj
  obtain ⟨-, hfits, hbegin⟩ := fits_of_prepare hsound hp
  have hstate : u.state.image.shape = .packed prob.side := by simpa [hu] using hw
  obtain ⟨s, v, hs⟩ := look_total (parts_total par.rho) rfl hfits hbegin u
  obtain ⟨-, hcut, hprimal, hdual⟩ := settles_of_start hexact hsample halpha hpos hrho hagree hlin
    hweight hbegin hstate hs hmax rfl
  have hfirst := firstConvergesAt_of_residuals_zero
    (iteration_eq_ok.mpr ⟨proj, u, _, u, hp, rfl, hs⟩) hprimal hdual
  exact ⟨_, _, solve_eq_some.mpr ⟨0, proj, u, _, u, s, v, Params.limit_pos hpar hbudget, hp, rfl,
    hs, hfirst, rfl, rfl⟩, rfl, hcut⟩

/-- The iteration has a fixed point with a diagonal estimate exactly if no entry of the sample
covariance off the diagonal exceeds the weight. The estimate is then `1 / (Qᵢᵢ + alpha)`, both
residuals are zero, and a run from the starting point ends at once. -/
theorem diagonal_threshold [Spectral ℝ] (hexact : ExactSpectrum) {prob : Covariance ℝ}
    (hsample : prob.sample.shape = .packed prob.side) {alpha : ℝ} (halpha : 0 ≤ alpha)
    (hpos : ∀ i < prob.side, 0 < prob.sample.entry i i + alpha) {par : Params ℝ}
    (hrho : 0 < par.rho)
    (hclear : ∀ gram, Projection.gram? ((prob.parts alpha).couplings.zip (prob.parts alpha).dims)
      (prob.parts alpha).rhs.size = some gram →
      Projection.CutoffClear par.epsZero gram (prob.parts alpha).rhs.size) :
    (∀ (γ : Type) (w : World γ ℝ), prob.problem alpha w = .ok (prob.parts alpha) w) ∧
    ∃ proj, Projection.ofCouplings? (prob.parts alpha).couplings (prob.parts alpha).dims
        (prob.parts alpha).rhs par.epsZero = some proj ∧
      ((∃ v s, prob.SettlesAt alpha par proj v s ∧
          prob.HasDiagonal (cut s.x (prob.parts alpha).dims 0)) ↔ prob.alphaMax ≤ alpha) ∧
      (∀ v s, prob.SettlesAt alpha par proj v s →
        prob.HasDiagonal (cut s.x (prob.parts alpha).dims 0) →
        cut s.x (prob.parts alpha).dims 0 =
            [prob.diagonalBlock alpha, prob.diagonalBlock alpha] ∧
          s.measure.primal = 0 ∧ s.measure.dual = 0) ∧
      (prob.alphaMax ≤ alpha →
        (∃ s, prob.SettlesAt alpha par proj (stack (prob.startBlocks alpha par.rho)) s ∧
          prob.HasDiagonal (cut s.x (prob.parts alpha).dims 0)) ∧
        ∀ budget w, 0 < budget → par.broken? = none → HasRoom par (prob.parts alpha).dims →
          w.state.image.shape = .packed prob.side →
          ∃ a v, solve budget par (some (prob.startBlocks alpha par.rho)) (prob.parts alpha) w =
              .ok (some a) v ∧ a.iterations = 1 ∧
            a.blocks = [prob.diagonalBlock alpha, prob.diagonalBlock alpha]) := by
  obtain ⟨proj, hproj⟩ := Projection.ofCouplings?_total
    (fun g hg => (parts_isLinear g hg).sound) (prob.shapeDefect?_parts alpha) par.epsZero
  obtain ⟨hagree, hlin⟩ := agreement_of_parts hproj
  have hweight := hagree.weight_eq hexact hlin hproj hclear
  have hstart : prob.alphaMax ≤ alpha →
      ∃ s, prob.SettlesAt alpha par proj (stack (prob.startBlocks alpha par.rho)) s ∧
        prob.HasDiagonal (cut s.x (prob.parts alpha).dims 0) := by
    intro hmax
    have hsized : Progress.Sized ⟨0, stack (prob.startBlocks alpha par.rho), proj.fresh, none, #[],
        #[], none⟩ (total (prob.parts alpha).dims) proj.rhs.size :=
      ⟨size_stack_startBlocks par.rho, Projection.fresh_sized proj, nofun⟩
    obtain ⟨s, u, hs⟩ := look_total (parts_total par.rho) rfl hlin.toFits hsized
      (World.start prob.logDet.scratch none)
    obtain ⟨himage, hcut, -⟩ := settles_of_start hexact hsample halpha hpos hrho hagree hlin
      hweight hsized rfl hs hmax rfl
    exact ⟨s, ⟨_, _, u, rfl, hsized, rfl, hs, himage⟩, hcut ▸ hasDiagonal_diagonalBlock _⟩
  refine ⟨fun γ w => prob.problem_of_nonneg halpha w, proj, hproj, ⟨?_, fun hmax => ?_⟩, ?_,
    fun hmax => ⟨hstart hmax, fun budget w hbudget hpar hroom hw => ?_⟩⟩
  · rintro ⟨v, s, ⟨q, w, u, rfl, hq, hw, hs, hfix⟩, hdiag⟩
    obtain ⟨hsmall, -⟩ := of_hasDiagonal hexact hsample hrho hagree hlin hweight hq hw hs hfix hdiag
    exact (alphaMax_le_iff halpha).mpr fun c hc r hr => hsmall r (by omega) c hc (by omega)
  · obtain ⟨s, hs⟩ := hstart hmax
    exact ⟨_, s, hs⟩
  · rintro v s ⟨q, w, u, rfl, hq, hw, hs, hfix⟩ hdiag
    exact (of_hasDiagonal hexact hsample hrho hagree hlin hweight hq hw hs hfix hdiag).2
  · exact solve_from_start hexact hsample halpha hpos hpar hproj hweight hmax hbudget hroom hw

/-! ## Two variables that never differ -/

noncomputable def correlated : Covariance ℝ where
  sample := Matrix.ofFn (.packed 2) fun _ _ => 1
  truth := none
  epsZero := 0

theorem entry_correlated {r c : ℕ} (hr : r < 2) (hc : c < 2) : correlated.sample.entry r c = 1 :=
  Matrix.entry_ofFn_packed rfl hr hc

theorem alphaMax_correlated_le_iff {alpha : ℝ} (h : 0 ≤ alpha) :
    correlated.alphaMax ≤ alpha ↔ 1 ≤ alpha := by
  have hentry : |correlated.sample.entry 0 1| = 1 := by
    rw [entry_correlated (by omega) (by omega), abs_one]
  rw [alphaMax_le_iff h]
  constructor
  · intro hall
    rw [← hentry]
    exact hall 1 Nat.one_lt_two 0 Nat.one_pos
  · intro hle c hc r hr
    have hc : c < 2 := hc
    obtain ⟨rfl, rfl⟩ : c = 1 ∧ r = 0 := by omega
    rw [hentry]
    exact hle

section Correlated

attribute [local instance] Spectral.exact

theorem correlated_diagonal_threshold :
    (∃ a v, solve 1 (plainly 1) (some (correlated.startBlocks 1 1))
        (correlated.parts 1) (World.start correlated.logDet.scratch none) =
          .ok (some a) v ∧ a.iterations = 1 ∧
        a.blocks = [correlated.diagonalBlock 1, correlated.diagonalBlock 1]) ∧
      ∃ proj, Projection.ofCouplings? (correlated.parts 0.5).couplings
          (correlated.parts 0.5).dims (correlated.parts 0.5).rhs 0 = some proj ∧
        ∀ v s, correlated.SettlesAt 0.5 (plainly 1) proj v s →
          ¬ correlated.HasDiagonal (cut s.x (correlated.parts 0.5).dims 0) := by
  have hpar : (plainly 1).broken? = none := plainly_broken? zero_le_one
  have hrho : 0 < (plainly 1).rho := one_pos
  have hsample : correlated.sample.shape = .packed correlated.side := rfl
  have hpos : ∀ alpha : ℝ, 0 ≤ alpha →
      ∀ i < correlated.side, 0 < correlated.sample.entry i i + alpha := by
    intro alpha h i hi
    rw [entry_correlated hi hi]
    linarith
  have hsmall : (0 : ℝ) ≤ 0.5 := by norm_num
  constructor
  · obtain ⟨-, proj, -, -, -, hrun⟩ := diagonal_threshold exactSpectrum_exact hsample zero_le_one
      (hpos _ zero_le_one) hrho fun gram _ => Projection.cutoffClear_zero gram _
    refine (hrun ((alphaMax_correlated_le_iff zero_le_one).mpr le_rfl)).2 1 _ Nat.one_pos hpar
      ⟨?_, ?_⟩ rfl
    · simp [plainly]
    · show 4 + (4 + 0) < Vec.sizeLimit
      decide
  · obtain ⟨-, proj, hproj, hiff, -⟩ := diagonal_threshold exactSpectrum_exact hsample hsmall
      (hpos _ hsmall) hrho fun gram _ => Projection.cutoffClear_zero gram _
    refine ⟨proj, hproj, fun v s hs hdiag => ?_⟩
    have hle := (alphaMax_correlated_le_iff hsmall).mp (hiff.mp ⟨v, s, hs, hdiag⟩)
    norm_num at hle

end Correlated

end Covariance

end Splitting
