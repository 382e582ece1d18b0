import Splitting.Proofs.Real.Definite
import Splitting.Proofs.Generation

/-!
# Measures of a point

The blocks together are one quadratic program in the stacked variables: it minimises
`xᵀ P x / 2 + qᵀ x`, where `P` has the doubled matrices of the blocks along its diagonal. In exact
arithmetic the measures that are taken block by block are those of this program.
-/

namespace Splitting

/-! ## Products of rows -/

namespace Matrix

noncomputable def rowProduct (a : Matrix ℝ) (x : Array ℝ) (r : ℕ) : ℝ :=
  ∑ c ∈ Finset.range x.size, a.entry r c * x.getD c 0

theorem getD_of_mulAdd? {a : Matrix ℝ} {alpha beta : ℝ} {x y z : Array ℝ} (hx : x.size = a.cols)
    (hy : y.size = a.rows) (h : a.mulAdd? alpha x beta y = some z) {r : ℕ} (hr : r < a.rows) :
    z.getD r 0 = alpha * a.rowProduct x r + beta * y.getD r 0 := by
  have hvec := congrFun (congrArg WithLp.ofLp (mulAdd?_vec hy h)) ⟨r, hr⟩
  rw [PiLp.add_apply, PiLp.smul_apply, PiLp.smul_apply, linearOf_vec, ← hx] at hvec
  exact hvec

theorem getD_of_general {a : Matrix ℝ} {rows cols : ℕ} (ha : a.shape = .general rows cols)
    {alpha beta : ℝ} {x y z : Array ℝ} (hx : x.size = cols) (hy : y.size = rows)
    (h : a.mulAdd? alpha x beta y = some z) {r : ℕ} (hr : r < rows) :
    z.getD r 0 = alpha * a.rowProduct x r + beta * y.getD r 0 := by
  have hrows : a.rows = rows := congrArg Shape.rows ha
  have hcols : a.cols = cols := congrArg Shape.cols ha
  exact getD_of_mulAdd? (hx.trans hcols.symm) (hy.trans hrows.symm) h (hrows ▸ hr)

end Matrix

/-! ## Sums along a list -/

theorem foldlM_eq_add {α : Type} {f : ℝ → α → Option ℝ} {g : α → ℝ} {l : List α}
    (h : ∀ a ∈ l, ∀ s, f s a = some (s + g a)) (s : ℝ) :
    l.foldlM f s = some (s + (l.map g).sum) := by
  induction l generalizing s with
  | nil => simp
  | cons a l ih =>
    rw [List.foldlM_cons, h a List.mem_cons_self, Option.bind_eq_bind, Option.bind_some,
      ih fun b hb => h b (List.mem_cons_of_mem a hb), List.map_cons, List.sum_cons, add_assoc]

theorem sum_zip {α β : Type} {l : List α} {m : List β} (h : m.length = l.length)
    (f : α × β → ℝ) (d : β) :
    ((l.zip m).map f).sum = ∑ i : Fin l.length, f (l[i], m.getD i d) := by
  have hlist : (l.zip m).map f = List.ofFn fun i : Fin l.length => f (l[i], m.getD i d) := by
    refine List.ext_getElem (by simp [h]) fun i hi hi' => ?_
    have him : i < m.length := by simp_all
    simp [him]
  rw [hlist, List.sum_ofFn]

namespace CoupledQp

/-! ## The program of all blocks -/

section Stacked

variable (prob : CoupledQp ℝ) (xs : List (Array ℝ))

abbrev Variable := (l : Fin prob.blocks.length) × Fin prob.blocks[l].c.size

abbrev Inequality := (l : Fin prob.blocks.length) × Fin prob.blocks[l].d.size

noncomputable def stacked : prob.Variable → ℝ := fun i => (xs.getD i.1 #[]).getD i.2 0

/-- The matrices of the blocks, doubled, along the diagonal. -/
noncomputable def hessian := Matrix.blockDiagonal' fun l : Fin prob.blocks.length =>
  ((2 : ℕ) : ℝ) • squareOf prob.blocks[l].c.size prob.blocks[l].q.entry

noncomputable def linear : prob.Variable → ℝ := fun i => prob.blocks[i.1].c.getD i.2 0

/-- By how much a point exceeds each of the inequalities. -/
noncomputable def excess : prob.Inequality → ℝ := fun i =>
  max (prob.blocks[i.1].f.rowProduct (xs.getD i.1 #[]) i.2 - prob.blocks[i.1].d.getD i.2 0) 0

noncomputable def gap : Fin prob.rhs.size → ℝ := fun r =>
  ∑ l : Fin prob.blocks.length, prob.blocks[l].g.rowProduct (xs.getD l #[]) r - prob.rhs.getD r 0

end Stacked

section Measures

variable {prob : CoupledQp ℝ} {xs : List (Array ℝ)}

/-! ## The objective -/

theorem getD_toList (x : Array ℝ) (i : ℕ) : x.toList.getD i 0 = x.getD i 0 := by
  rw [Array.getD_eq_getD_getElem?, List.getD_eq_getElem?_getD, Array.getElem?_toList]

theorem addProducts_eq {x y c : List ℝ} (hy : y.length = x.length) (hc : c.length = x.length)
    (s : ℝ) : addProducts x y c s =
      s + ∑ i ∈ Finset.range x.length, x.getD i 0 * (y.getD i 0 + c.getD i 0) := by
  induction x generalizing y c s with
  | nil => simp [addProducts]
  | cons a x ih =>
    obtain ⟨b, y, rfl⟩ := List.exists_cons_of_length_eq_add_one hy
    obtain ⟨e, c, rfl⟩ := List.exists_cons_of_length_eq_add_one hc
    rw [addProducts, ih (Nat.succ.inj hy) (Nat.succ.inj hc), List.length_cons,
      Finset.sum_range_succ']
    simp only [List.getD_cons_succ, List.getD_cons_zero]
    ring

noncomputable def cost (b : QpBlock ℝ) (x : Array ℝ) : ℝ :=
  ∑ i ∈ Finset.range x.size, x.getD i 0 * (b.q.rowProduct x i + b.c.getD i 0)

theorem addProducts_mulAdd? {b : QpBlock ℝ} {x : Array ℝ} {s p : ℕ} (h : HasShape s x.size p b)
    (t : ℝ) : (do
      let y ← b.q.mulAdd? 1 x 0 (Vec.zeros x.size)
      return addProducts x.toList y.toList b.c.toList t) = some (t + cost b x) := by
  have hrows : b.q.rows = x.size := congrArg Shape.rows h.square
  have hcols : b.q.cols = x.size := congrArg Shape.cols h.square
  have hzeros : (Vec.zeros x.size : Array ℝ).size = b.q.rows := (Vec.size_zeros _).trans hrows.symm
  obtain ⟨y, hy, hsize⟩ := b.q.mulAdd?_total 1 0 hcols.symm hzeros
  rw [hy, Option.bind_eq_bind, Option.bind_some, addProducts_eq (hsize.trans hrows) h.c_size]
  refine congrArg (fun e => some (t + e)) (Finset.sum_congr rfl fun i hi => ?_)
  have hyi := Matrix.getD_of_mulAdd? hcols.symm hzeros hy (hrows ▸ Finset.mem_range.mp hi)
  rw [getD_toList, getD_toList, getD_toList, hyi, one_mul, zero_mul, add_zero]

theorem objective?_eq_sum (h : prob.Fits xs) : prob.objective? xs =
    some (∑ l : Fin prob.blocks.length, cost prob.blocks[l] (xs.getD l #[])) := by
  rw [objective?, h.pairs?, Option.bind_eq_bind, Option.bind_some,
    foldlM_eq_add (g := fun y => cost y.1 y.2) fun y hy s => ?_, zero_add,
    sum_zip h.length_eq.symm (fun y => cost y.1 y.2) #[]]
  obtain ⟨b, x⟩ := y
  exact addProducts_mulAdd? (h.hasShape hy) s

theorem hessian_mulVec (h : prob.Fits xs) (l : Fin prob.blocks.length)
    (r : Fin prob.blocks[l].c.size) : prob.hessian.mulVec (prob.stacked xs) ⟨l, r⟩ =
      2 * prob.blocks[l].q.rowProduct (xs.getD l #[]) r := by
  simp only [Matrix.mulVec, dotProduct, Fintype.sum_sigma]
  rw [Fintype.sum_eq_single l fun k hk => ?_]
  · rw [Matrix.rowProduct, ← h.c_size l, Finset.sum_range, Finset.mul_sum]
    refine Finset.sum_congr rfl fun c _ => ?_
    rw [hessian, Matrix.blockDiagonal'_apply_eq, Nat.cast_ofNat, ← mul_assoc]
    rfl
  · -- the columns of the other blocks are empty in this row
    refine Finset.sum_eq_zero fun c _ => ?_
    rw [hessian, Matrix.blockDiagonal'_apply_ne _ _ _ hk.symm, zero_mul]

theorem objective?_eq (h : prob.Fits xs) : prob.objective? xs =
    some (1 / 2 * (prob.stacked xs ⬝ᵥ prob.hessian.mulVec (prob.stacked xs)) +
      prob.linear ⬝ᵥ prob.stacked xs) := by
  rw [objective?_eq_sum h]
  simp only [dotProduct, Fintype.sum_sigma, hessian_mulVec h, Finset.mul_sum,
    ← Finset.sum_add_distrib]
  refine congrArg some (Finset.sum_congr rfl fun l _ => ?_)
  rw [cost, ← h.c_size l, Finset.sum_range]
  refine Finset.sum_congr rfl fun i _ => ?_
  simp only [stacked, linear]
  ring

/-! ## Violations -/

theorem addExcess_eq (r : Array ℝ) (s : ℝ) :
    addExcess s r = s + ∑ i ∈ Finset.range r.size, max (r.getD i 0) 0 ^ 2 := by
  have hsquares := foldl_add_sq (r.toList.map fun e => max e 0) s
  rw [List.foldl_map, List.map_map, ← Fin.sum_univ_fun_getElem] at hsquares
  rw [Finset.sum_range, addExcess, ← Array.foldl_toList]
  refine hsquares.trans (congrArg _ (Finset.sum_congr rfl fun i _ => ?_))
  rw [getD_of_lt i.isLt]
  rfl

noncomputable def excessSq (b : QpBlock ℝ) (x : Array ℝ) : ℝ :=
  ∑ i ∈ Finset.range b.d.size, max (b.f.rowProduct x i - b.d.getD i 0) 0 ^ 2

theorem addExcess_mulAdd? {b : QpBlock ℝ} {x : Array ℝ} {s p : ℕ} (h : HasShape s x.size p b)
    (t : ℝ) : (do
      let r ← b.f.mulAdd? 1 x (-1) b.d
      return addExcess t r) = some (t + excessSq b x) := by
  obtain ⟨r, hr, hsize⟩ := Matrix.mulAdd?_eq_some h.f_shape rfl h.d_size 1 (-1)
  rw [hr, Option.bind_eq_bind, Option.bind_some, addExcess_eq, hsize, excessSq, h.d_size]
  refine congrArg (fun e => some (t + e)) (Finset.sum_congr rfl fun i hi => ?_)
  rw [Matrix.getD_of_general h.f_shape rfl h.d_size hr (Finset.mem_range.mp hi), one_mul,
    neg_one_mul, sub_eq_add_neg]

theorem ineqViolation?_eq (h : prob.Fits xs) :
    prob.ineqViolation? xs = some ‖WithLp.toLp 2 (prob.excess xs)‖ := by
  have hsum : ∑ l : Fin prob.blocks.length, excessSq prob.blocks[l] (xs.getD l #[]) =
      ∑ i, prob.excess xs i ^ 2 := by
    rw [Fintype.sum_sigma]
    refine Finset.sum_congr rfl fun l _ => ?_
    rw [excessSq, Finset.sum_range]
    rfl
  rw [ineqViolation?, h.pairs?, Option.bind_eq_bind, Option.bind_some,
    foldlM_eq_add (g := fun y => excessSq y.1 y.2) fun y hy s => ?_, zero_add,
    sum_zip h.length_eq.symm (fun y => excessSq y.1 y.2) #[], hsum]
  · rw [EuclideanSpace.norm_eq]
    simp only [Real.norm_eq_abs, sq_abs]
    rfl
  · obtain ⟨b, x⟩ := y
    exact addExcess_mulAdd? (h.hasShape hy) s

theorem foldlM_mulAdd? {s : ℕ} {l : List (QpBlock ℝ × Array ℝ)}
    (hl : ∀ y ∈ l, y.1.g.shape = .general s y.2.size) {r : Array ℝ} (hr : r.size = s) :
    ∃ z, l.foldlM (fun r y => y.1.g.mulAdd? 1 y.2 1 r) r = some z ∧ z.size = s ∧
      ∀ i < s, z.getD i 0 = (l.map fun y => y.1.g.rowProduct y.2 i).sum + r.getD i 0 := by
  induction l generalizing r with
  | nil => exact ⟨r, rfl, hr, fun i _ => by simp⟩
  | cons y l ih =>
    have hshape := hl y List.mem_cons_self
    obtain ⟨r₁, hr₁, hsize⟩ := Matrix.mulAdd?_eq_some hshape rfl hr 1 1
    obtain ⟨z, hz, hzsize, hentries⟩ := ih (fun a ha => hl a (List.mem_cons_of_mem _ ha)) hsize
    refine ⟨z, by rw [List.foldlM_cons, hr₁]; exact hz, hzsize, fun i hi => ?_⟩
    rw [hentries i hi, Matrix.getD_of_general hshape rfl hr hr₁ hi, List.map_cons, List.sum_cons]
    ring

theorem eqResidual?_eq (h : prob.Fits xs) :
    prob.eqResidual? xs = some ‖WithLp.toLp 2 (prob.gap xs)‖ := by
  obtain ⟨z, hz, hsize, hentries⟩ := foldlM_mulAdd? (r := Vec.scale (-1) prob.rhs)
    (fun y hy => (h.hasShape hy).g_shape) (Vec.size_scale _ _)
  -- the sum starts from the negative of the right-hand side
  have hvec : vec prob.rhs.size z = WithLp.toLp 2 (prob.gap xs) := by
    refine vec_ext fun i => ?_
    have hscaled := congrFun (congrArg WithLp.ofLp (vec_scale prob.rhs.size (-1) prob.rhs)) i
    rw [PiLp.smul_apply, vec_apply, vec_apply, neg_one_smul] at hscaled
    rw [hentries i i.isLt, hscaled, ← sub_eq_add_neg,
      sum_zip h.length_eq.symm (fun y => y.1.g.rowProduct y.2 i) #[]]
    rfl
  rw [eqResidual?, h.pairs?, Option.bind_eq_bind, Option.bind_some]
  show ((prob.blocks.zip xs).foldlM (fun r y => y.1.g.mulAdd? 1 y.2 1 r)
    (Vec.scale (-1) prob.rhs) >>= fun r => some (Vec.norm r)) = _
  rw [hz, Option.bind_eq_bind, Option.bind_some, norm_eq hsize, hvec]

theorem violation?_eq (h : prob.Fits xs) : prob.violation? xs =
    some ‖WithLp.toLp 2 (Sum.elim (prob.excess xs) (prob.gap xs))‖ := by
  rw [violation?, ineqViolation?_eq h, eqResidual?_eq h]
  simp only [Option.bind_eq_bind, Option.bind_some]
  rw [← sq, ← sq, EuclideanSpace.real_norm_sq_eq, EuclideanSpace.real_norm_sq_eq,
    EuclideanSpace.norm_eq, Fintype.sum_sum_type]
  simp only [Real.norm_eq_abs, sq_abs]
  rfl

/-! ## Feasible points -/

/-- The points, one for each block, keep the bounds of the blocks and the coupling. -/
structure Feasible (prob : CoupledQp ℝ) (xs : List (Array ℝ)) : Prop where
  length : xs.length = prob.blocks.length
  sizes : ∀ y ∈ prob.blocks.zip xs, y.2.size = y.1.c.size
  within : ∀ y ∈ prob.blocks.zip xs, ∀ r < y.1.d.size, y.1.f.rowProduct y.2 r ≤ y.1.d.getD r 0
  coupled : ∀ r < prob.rhs.size,
    ((prob.blocks.zip xs).map fun y => y.1.g.rowProduct y.2 r).sum = prob.rhs.getD r 0

theorem excess_eq_zero_iff (h : prob.Fits xs) : prob.excess xs = 0 ↔
    ∀ y ∈ prob.blocks.zip xs, ∀ r < y.1.d.size, y.1.f.rowProduct y.2 r ≤ y.1.d.getD r 0 := by
  constructor
  · intro hzero y hy r hr
    obtain ⟨l, hl, rfl⟩ := List.mem_iff_getElem.mp hy
    rw [List.length_zip, Nat.lt_min] at hl
    rw [List.getElem_zip] at hr ⊢
    have hmax := congrFun hzero ⟨⟨l, hl.1⟩, ⟨r, hr⟩⟩
    simp only [excess, List.getD_eq_getElem _ _ hl.2, Pi.zero_apply, max_eq_right_iff] at hmax
    exact sub_nonpos.mp hmax
  · intro hall
    funext ⟨l, r⟩
    exact max_eq_right (sub_nonpos.mpr (hall _ (h.getD_mem l) r r.isLt))

theorem gap_eq_zero_iff (h : prob.Fits xs) : prob.gap xs = 0 ↔ ∀ r < prob.rhs.size,
    ((prob.blocks.zip xs).map fun y => y.1.g.rowProduct y.2 r).sum = prob.rhs.getD r 0 := by
  rw [funext_iff, Fin.forall_iff]
  refine forall₂_congr fun r _ => ?_
  rw [sum_zip h.length_eq.symm (fun y => y.1.g.rowProduct y.2 r) #[]]
  exact sub_eq_zero

theorem violation?_eq_zero_iff (h : prob.Fits xs) :
    prob.violation? xs = some 0 ↔ prob.Feasible xs := by
  have hparts : WithLp.toLp 2 (Sum.elim (prob.excess xs) (prob.gap xs)) = 0 ↔
      prob.excess xs = 0 ∧ prob.gap xs = 0 := by
    rw [WithLp.toLp_eq_zero, ← Sum.elim_zero_zero]
    exact Sum.elim_eq_iff
  rw [violation?_eq h, Option.some_inj, norm_eq_zero, hparts, excess_eq_zero_iff h,
    gap_eq_zero_iff h]
  refine ⟨fun ⟨hwithin, hcoupled⟩ => ⟨h.length_eq.symm, fun y hy => ?_, hwithin, hcoupled⟩,
    fun hf => ⟨hf.within, hf.coupled⟩⟩
  exact (h.hasShape hy).c_size.symm

/-! ## The measures -/

theorem isSymm_hessian (h : prob.Fits xs) : prob.hessian.IsSymm := by
  rw [Matrix.IsSymm, hessian, Matrix.blockDiagonal'_transpose]
  refine congrArg _ (funext fun l => ?_)
  ext r c
  exact congrArg (((2 : ℕ) : ℝ) * ·) (Matrix.entry_comm (h.hasShape (h.getD_mem l)).square c r)

/-- The measures that are taken block by block are those of the program of all blocks, and a point
has no violation just if it is feasible. -/
theorem measures_eq_stacked (h : prob.Fits xs) :
    prob.hessian.IsSymm ∧
    prob.objective? xs =
      some (1 / 2 * (prob.stacked xs ⬝ᵥ prob.hessian.mulVec (prob.stacked xs)) +
        prob.linear ⬝ᵥ prob.stacked xs) ∧
    prob.ineqViolation? xs = some ‖WithLp.toLp 2 (prob.excess xs)‖ ∧
    prob.eqResidual? xs = some ‖WithLp.toLp 2 (prob.gap xs)‖ ∧
    prob.violation? xs = some ‖WithLp.toLp 2 (Sum.elim (prob.excess xs) (prob.gap xs))‖ ∧
    (prob.violation? xs = some 0 ↔ prob.Feasible xs) :=
  ⟨isSymm_hessian h, objective?_eq h, ineqViolation?_eq h, eqResidual?_eq h, violation?_eq h,
    violation?_eq_zero_iff h⟩

end Measures

noncomputable def lopsided : CoupledQp ℝ where
  blocks := [⟨.ofStored (.packed 1) #[1], #[0], .column #[1], #[0], .column #[1]⟩,
    ⟨.ofStored (.packed 2) #[1, 0, 1], #[0, 1], .ofStored (.general 0 2) #[], #[],
      .ofStored (.general 1 2) #[1, 1]⟩]
  rhs := #[1]

theorem lopsided_measures :
    lopsided.Fits [#[0], #[1, 0]] ∧ lopsided.violation? [#[0], #[1, 0]] = some 0 ∧
      lopsided.Fits [#[1], #[1, 0]] ∧ lopsided.violation? [#[1], #[1, 0]] ≠ some 0 := by
  have hfits (a b c : ℝ) : lopsided.Fits [#[a], #[b, c]] :=
    .cons ⟨rfl, rfl, rfl, rfl, rfl⟩ (.cons ⟨rfl, rfl, rfl, rfl, rfl⟩ .nil)
  obtain ⟨-, -, -, -, -, hfeasible⟩ := measures_eq_stacked (hfits 0 1 0)
  obtain ⟨-, -, -, -, -, hviolated⟩ := measures_eq_stacked (hfits 1 1 0)
  refine ⟨hfits 0 1 0, hfeasible.mpr ⟨rfl, ?_, ?_, ?_⟩, hfits 1 1 0, fun hzero => ?_⟩
  · simp [lopsided]
  · simp [lopsided, Matrix.rowProduct]
  · simp [lopsided, Matrix.rowProduct, Matrix.entry, Matrix.ofStored, Shape.position,
      Shape.stored, Finset.sum_range_succ]
  · have hwithin := (hviolated.mp hzero).within _ List.mem_cons_self 0 Nat.one_pos
    norm_num [Matrix.rowProduct, Matrix.entry, Matrix.column, Shape.position] at hwithin

end CoupledQp

end Splitting
