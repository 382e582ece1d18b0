import Splitting.Proofs.Real.Measures

/-!
# Feasible programs

In exact arithmetic a generated program is convex: the matrix of a block is a multiple of a square.
And it is feasible: the hidden points keep the bounds, which leave as much room for them as was
drawn, and the coupling, of which the right-hand side is their sum.
-/

namespace Splitting.CoupledQp

/-! ## Convexity -/

theorem entry_scaledSquare {n : ℕ} {m : Matrix ℝ} (hm : m.shape = .general n n) (factor : ℝ)
    {r c : ℕ} (hr : r < n) (hc : c < n) : (scaledSquare factor m).entry r c =
      (∑ k ∈ Finset.range n, m.entry r k * m.entry c k) * factor := by
  have hrows : m.rows = n := congrArg Shape.rows hm
  have hcols : m.cols = n := congrArg Shape.cols hm
  have hsymm (r c : ℕ) : Vec.sumBelow n (fun k => m.entry r k * m.entry c k) * factor =
      Vec.sumBelow n (fun k => m.entry c k * m.entry r k) * factor := by
    simp only [mul_comm (m.entry r _)]
  rw [scaledSquare, hrows, hcols, Matrix.entry_ofFn_packed (hsymm r c) hr hc, sumBelow_eq]

theorem posSemidef_scaledSquare {n : ℕ} {m : Matrix ℝ} (hm : m.shape = .general n n) {factor : ℝ}
    (hfactor : 0 ≤ factor) : Matrix.PosSemidef (squareOf n (scaledSquare factor m).entry) := by
  have hsquare : squareOf n (scaledSquare factor m).entry =
      factor • (squareOf n m.entry * Matrix.conjTranspose (squareOf n m.entry)) := by
    ext r c
    rw [Matrix.smul_apply, Matrix.mul_apply, smul_eq_mul, mul_comm]
    exact (entry_scaledSquare hm factor r.isLt c.isLt).trans (by rw [Finset.sum_range]; rfl)
  rw [hsquare]
  exact (Matrix.posSemidef_self_mul_conjTranspose _).smul hfactor

/-! ## The hidden points -/

section Drawn

variable {γ : Type} {src : Random.Source γ ℝ} {q p : ℕ} {rhs rhs' x : Array ℝ} {b : QpBlock ℝ}
  {bs : List (QpBlock ℝ)} {xs : List (Array ℝ)}

theorem Drawn.convex (h : Drawn src q p rhs b x rhs') :
    Matrix.PosSemidef (squareOf q b.q.entry) := by
  obtain ⟨root, hroot, hsquare⟩ := h.square
  rw [hsquare]
  exact posSemidef_scaledSquare hroot (one_div_nonneg.mpr (Nat.cast_nonneg (max q 1)))

theorem Drawn.within (huniform : ∀ g, 0 ≤ (src.uniform g).1) (h : Drawn src q p rhs b x rhs')
    {r : ℕ} (hr : r < p) : b.f.rowProduct x r ≤ b.d.getD r 0 := by
  obtain ⟨g, hd⟩ := h.bounds
  have hsize : (Random.Source.many src.uniform p g).1.size = p := Random.Source.size_many p g
  rw [Matrix.getD_of_general h.shape.f_shape h.size_hidden hsize hd hr, one_mul, one_mul]
  refine le_add_of_nonneg_right ?_
  rw [getD_of_lt (hsize.symm ▸ hr)]
  exact Random.Source.forall_many huniform p g _ (Array.getElem_mem _)

theorem Drawn.share_getD (h : Drawn src q p rhs b x rhs') {r : ℕ} (hr : r < rhs.size) :
    rhs'.getD r 0 = b.g.rowProduct x r + rhs.getD r 0 := by
  rw [Matrix.getD_of_general h.shape.g_shape h.size_hidden rfl h.share hr, one_mul, one_mul]

theorem DrawnAll.shares (h : DrawnAll src q p rhs bs xs rhs') {r : ℕ} (hr : r < rhs.size) :
    rhs'.getD r 0 = ((bs.zip xs).map fun y => y.1.g.rowProduct y.2 r).sum + rhs.getD r 0 := by
  induction h with
  | nil rhs => simp
  | cons head tail ih =>
    rw [ih (head.size_rhs ▸ hr), head.share_getD hr, List.zip_cons_cons, List.map_cons,
      List.sum_cons]
    ring

theorem DrawnAll.feasible (huniform : ∀ g, 0 ≤ (src.uniform g).1) {s : ℕ}
    (h : DrawnAll src q p (Vec.zeros s) bs xs rhs) : Feasible ⟨bs, rhs⟩ xs := by
  have hdrawn : ∀ y ∈ bs.zip xs, ∃ r r', Drawn src q p r y.1 y.2 r' := by
    intro y hy
    obtain ⟨r, r', -, hdrawn⟩ := List.forall₂_zip h.forall₂ hy
    exact ⟨r, r', hdrawn⟩
  refine ⟨h.forall₂.length_eq.symm, fun y hy => ?_, fun y hy r hr => ?_, fun r hr => ?_⟩
  · obtain ⟨_, _, hdrawn⟩ := hdrawn y hy
    exact hdrawn.size_hidden.trans hdrawn.shape.c_size.symm
  · obtain ⟨_, _, hdrawn⟩ := hdrawn y hy
    exact hdrawn.within huniform (hdrawn.shape.d_size ▸ hr)
  · have hr : r < (Vec.zeros s : Array ℝ).size := h.size_rhs ▸ hr
    have hzero : (Vec.zeros s : Array ℝ).getD r 0 = 0 :=
      (getD_of_lt hr).trans (Array.getElem_replicate _)
    rw [h.shares hr, hzero, add_zero]

end Drawn

/-! ## Generated programs -/

theorem violation?_eq_zero {prob : CoupledQp ℝ} {xs : List (Array ℝ)} {s q p : ℕ}
    (hshape : ∀ b ∈ prob.blocks, HasShape s q p b) (hrhs : prob.rhs.size = s)
    (h : Feasible prob xs) : prob.violation? xs = some 0 :=
  (violation?_eq_zero_iff (.of_hasShape hshape hrhs h.length h.sizes)).mpr h

/-- A program of `n` convex blocks of one shape. -/
structure WellMade (n s q p : ℕ) (prob : CoupledQp ℝ) : Prop where
  length : prob.blocks.length = n
  rhs_size : prob.rhs.size = s
  shapes : ∀ b ∈ prob.blocks, HasShape s q p b
  convex : ∀ b ∈ prob.blocks, Matrix.PosSemidef (squareOf q b.q.entry)

/-- Whatever is drawn, the program is convex, and the points that its blocks were drawn around keep
its constraints. It has an operator for each block, with a backend that is made for this block
alone. -/
theorem generated_feasible {γ ε : Type} {src : Random.Source γ ℝ}
    (huniform : ∀ g, 0 ≤ (src.uniform g).1) (hn : 0 < n) (s q p : ℕ) (w : World γ ℝ) :
    ∃ prob xs g,
      drawBlocks? src q p n [] (Vec.zeros s) w.state = some (prob.blocks, prob.rhs, g) ∧
      (generate src n s q p : Run γ ℝ ε (CoupledQp ℝ)) w =
        (if HasRoom n s q p then .ok prob ((w.withState g).note (.generatedQp n s q p))
        else .error .misuse w) ∧
      WellMade n s q p prob ∧
      DrawnAll src q p (Vec.zeros s) prob.blocks xs prob.rhs ∧
      Feasible prob xs ∧ prob.violation? xs = some 0 ∧
      (∀ l < n, ∃ f, (prob.blocks[l]?).bind quadratic? = some f ∧ f.dim = q) ∧
      ∃ fs, prob.blocks.mapM quadratic? = some fs ∧ fs.length = n ∧
        (∀ {β φ : Type} (make : φ → (Qp.Backend β ℝ × β) × φ) (u : World φ ℝ),
          prob.equipped make u = .ok
            (⟨fs.mapIdx fun l f => (f.prox (made make u.state l).1).slot l,
              prob.blocks.map fun b => .ofMatrix b.g, prob.rhs⟩,
            (fs.mapIdx fun l f => (f.scratch, (made make u.state l).2)).toArray)
            (u.withState ((fun s => (make s).2)^[n] u.state))) ∧
        ∀ {β φ : Type} (b : Qp.Backend β ℝ) (u : World φ ℝ),
          prob.problem b u = .ok ⟨fs.mapIdx fun l f => (f.prox b).slot l,
            prob.blocks.map fun b => .ofMatrix b.g, prob.rhs⟩ u := by
  obtain ⟨bs, xs, rhs, g, hdraw, hlen, hall⟩ := drawBlocks?_spec src q p n [] (Vec.zeros s) w.state
  have hrhs : rhs.size = s := hall.size_rhs.trans Array.size_replicate
  have hshape : ∀ b ∈ bs, HasShape s q p b :=
    (Array.size_replicate : (Vec.zeros s : Array ℝ).size = s) ▸ hall.hasShape
  have hne : (⟨bs, rhs⟩ : CoupledQp ℝ).blocks ≠ [] := List.ne_nil_of_length_pos (hlen.symm ▸ hn)
  have hfeasible : Feasible ⟨bs, rhs⟩ xs := hall.feasible huniform
  obtain ⟨fs, hfs, hfslen, -⟩ := mapM_total fun b hb => (hshape b hb).exists_quadratic
  refine ⟨⟨bs, rhs⟩, xs, g, hdraw, generate_eq hdraw,
    ⟨hlen, hrhs, hshape, hall.forall_blocks fun _ _ _ _ _ hdrawn => hdrawn.convex⟩, hall,
    hfeasible, violation?_eq_zero hshape hrhs hfeasible, fun l hl => ?_,
    fs, hfs, hfslen.trans hlen, fun make u => ?_, fun b u => ?_⟩
  · have hl : l < bs.length := hlen.symm ▸ hl
    obtain ⟨f, hf, hfdim⟩ := (hshape bs[l] (List.getElem_mem hl)).exists_quadratic
    exact ⟨f, by rw [List.getElem?_eq_getElem hl, Option.bind_some, hf], hfdim⟩
  · rw [← hlen]
    exact equipped_eq hne (hrhs.symm ▸ hshape) hfs make u
  · exact problem_eq_ok.mpr
      ⟨shapeDefect?_of_hasShape hne (hrhs.symm ▸ hshape) hfs fun _ => b, rfl, fs, hfs, rfl⟩

/-- Alternating signs and slacks that shrink; the state counts the draws. -/
noncomputable def alternating : Random.Source ℕ ℝ where
  normal g := ((-1) ^ g, g + 1)
  uniform g := ((g + 1 + 1 : ℝ)⁻¹, g + 1)
  chance _ g := (true, g + 1)

theorem alternating_generated_feasible :
    (∀ g, 0 ≤ (alternating.uniform g).1) ∧ 0 < 2 ∧ ∃ prob xs g,
      (generate alternating 2 1 2 1 : Run ℕ ℝ Empty (CoupledQp ℝ)) (World.start 0 none) =
        .ok prob (World.start g none) ∧
      WellMade 2 1 2 1 prob ∧ Feasible prob xs ∧ prob.violation? xs = some 0 := by
  have huniform : ∀ g, 0 ≤ (alternating.uniform g).1 := fun g => by
    show (0 : ℝ) ≤ ((g + 1 + 1 : ℝ))⁻¹
    positivity
  obtain ⟨prob, xs, g, -, hgenerate, hmade, -, hfeasible, hviolation, -⟩ :=
    generated_feasible (ε := Empty) huniform (by decide : 0 < 2) 1 2 1 (World.start 0 none)
  refine ⟨huniform, by decide, prob, xs, g, ?_, hmade, hfeasible, hviolation⟩
  rw [hgenerate, if_pos (by decide)]
  rfl

end Splitting.CoupledQp
