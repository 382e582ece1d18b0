import Splitting.Proofs.Handover
import Splitting.Proofs.Real.LogDet

/-!
# The quadratic block in exact arithmetic

The program handed to the backend has the cost of the proximal point up to a constant, and the same
points are feasible. So a backend that solves its programs makes the block a proximal operator.
-/

namespace Splitting

/-! ## Quadratic functions -/

noncomputable def quadraticForm (n : ℕ) (a : ℕ → ℕ → ℝ) (x : EuclideanSpace ℝ (Fin n)) : ℝ :=
  ∑ r : Fin n, ∑ c : Fin n, a r c * x r * x c

theorem quadraticForm_congr {n : ℕ} {a b : ℕ → ℕ → ℝ} (h : ∀ r < n, ∀ c < n, a r c = b r c) :
    quadraticForm n a = quadraticForm n b := by
  funext x
  exact Finset.sum_congr rfl fun r _ => Finset.sum_congr rfl fun c _ => by
    rw [h r r.isLt c c.isLt]

theorem quadraticForm_shifted (n : ℕ) (a : ℕ → ℕ → ℝ) (k e : ℝ) (x : EuclideanSpace ℝ (Fin n)) :
    quadraticForm n (fun r c => k * a r c + if r = c then e else 0) x =
      k * quadraticForm n a x + e * ‖x‖ ^ 2 := by
  rw [EuclideanSpace.real_norm_sq_eq]
  unfold quadraticForm
  rw [Finset.mul_sum, Finset.mul_sum, ← Finset.sum_add_distrib]
  refine Finset.sum_congr rfl fun r _ => ?_
  rw [Finset.mul_sum]
  simp only [add_mul, Finset.sum_add_distrib, ite_mul, zero_mul, Fin.val_inj,
    Finset.sum_ite_eq, Finset.mem_univ, if_true]
  congr 1
  · exact Finset.sum_congr rfl fun c _ => by ring
  · ring

theorem quadraticForm_midpoint (n : ℕ) (a : ℕ → ℕ → ℝ) (x y : EuclideanSpace ℝ (Fin n)) :
    quadraticForm n a (midpoint ℝ x y) =
      (quadraticForm n a x + quadraticForm n a y) / 2 - quadraticForm n a (x - y) / 4 := by
  unfold quadraticForm
  simp only [add_div, Finset.sum_div, ← Finset.sum_add_distrib, ← Finset.sum_sub_distrib]
  refine Finset.sum_congr rfl fun r _ => Finset.sum_congr rfl fun c _ => ?_
  simp only [midpoint_eq_smul_add, PiLp.smul_apply, PiLp.add_apply, PiLp.sub_apply, smul_eq_mul,
    invOf_eq_inv]
  ring

/-- A point of the set where the function is least on it. -/
def Minimises {α : Type} (f : α → ℝ) (s : Set α) (x : α) : Prop := x ∈ s ∧ IsMinOn f s x

theorem Minimises.add_const {α : Type} {f g : α → ℝ} {s : Set α} {x : α} (e : ℝ)
    (hf : ∀ x, f x = g x + e) : Minimises f s x ↔ Minimises g s x := by
  unfold Minimises
  simp only [isMinOn_iff, hf, add_le_add_iff_right]

namespace Qp.Program

noncomputable def cost (prog : Program ℝ) (n : ℕ) (x : EuclideanSpace ℝ (Fin n)) : ℝ :=
  quadraticForm n prog.p.entry x / (2 : ℕ) + ∑ i : Fin n, prog.q.entry i 0 * x i

def feasible (prog : Program ℝ) (n m : ℕ) : Set (EuclideanSpace ℝ (Fin n)) :=
  {x | ∀ i : Fin m, linearOf n m prog.g.entry x i ≤ prog.h.entry i 0}

end Qp.Program

namespace Quadratic

/-- The entries of the symmetric matrix with the upper triangle of `q`. -/
noncomputable def mirrored (q : Matrix ℝ) (r c : ℕ) : ℝ := q.entry (min r c) (max r c)

/-- `xᵀ Q x + cᵀ x + |x - v|² / 2t`. -/
noncomputable def objective (q : Matrix ℝ) (c : Array ℝ) (t : ℝ) (v : Array ℝ)
    (x : EuclideanSpace ℝ (Fin c.size)) : ℝ :=
  quadraticForm c.size (mirrored q) x + ∑ i : Fin c.size, c.getD i 0 * x i +
    ‖x - vec c.size v‖ ^ 2 / ((2 : ℕ) * t)

def region (n : ℕ) (f : Matrix ℝ) (d : Array ℝ) : Set (EuclideanSpace ℝ (Fin n)) :=
  {x | ∀ i : Fin d.size, linearOf n d.size f.entry x i ≤ d.getD i 0}

section Program

variable (q f : Matrix ℝ) (c d : Array ℝ) (t : ℝ) (v : Array ℝ)

theorem entry_freshProgram_p {i j : ℕ} (hi : i < c.size) (hj : j < c.size) :
    ((assemble q c f d).freshProgram t v).p.entry i j =
      2 * mirrored q i j + if i = j then t⁻¹ else 0 := by
  have htwo : (Scalar.two : ℝ) = 2 := one_add_one_eq_two
  have hp : ((assemble q c f d).freshProgram t v).p =
      Matrix.ofFn (.packed c.size) ((assemble q c f d).curvature t) := Matrix.refill_eq_ofFn _ _
  have hq : (assemble q c f d).q.entry (min i j) (max i j) = mirrored q i j :=
    Matrix.entry_ofFn (Shape.mem_cells_packed.mpr ⟨min_le_max, max_lt hi hj⟩) _
  have hdiag : min i j = max i j ↔ i = j := by omega
  rw [hp, Matrix.entry_ofFn_upper _ hi hj, curvature, hq, htwo, if_congr hdiag rfl rfl]
  congr 2
  exact one_div t

theorem entry_freshProgram_q {i : ℕ} (hi : i < c.size) :
    ((assemble q c f d).freshProgram t v).q.entry i 0 = c.getD i 0 - v.getD i 0 * t⁻¹ := by
  have hq : ((assemble q c f d).freshProgram t v).q =
      Matrix.ofFn (.general c.size 1) ((assemble q c f d).slope t v) := Matrix.refill_eq_ofFn _ _
  have hc : (assemble q c f d).c.entry i 0 = c.getD i 0 := Matrix.entry_of_cols rfl hi
  have hrecip : Scalar.recip t = t⁻¹ := one_div t
  rw [hq, Matrix.entry_ofFn (Shape.mem_cells_general.mpr ⟨hi, one_pos⟩), slope, hc, hrecip]

theorem cost_freshProgram (x : EuclideanSpace ℝ (Fin c.size)) :
    ((assemble q c f d).freshProgram t v).cost c.size x =
      objective q c t v x - ‖vec c.size v‖ ^ 2 / (2 * t) := by
  have hcurved : quadraticForm c.size ((assemble q c f d).freshProgram t v).p.entry x =
      2 * quadraticForm c.size (mirrored q) x + t⁻¹ * ‖x‖ ^ 2 := by
    rw [quadraticForm_congr fun i hi j hj => entry_freshProgram_p q f c d t v hi hj]
    exact quadraticForm_shifted _ _ _ _ _
  have hsloped : ∑ i : Fin c.size, ((assemble q c f d).freshProgram t v).q.entry i 0 * x i =
      ∑ i : Fin c.size, c.getD i 0 * x i - t⁻¹ * inner ℝ x (vec c.size v) := by
    rw [inner_eq_sum, Finset.mul_sum, ← Finset.sum_sub_distrib]
    refine Finset.sum_congr rfl fun i _ => ?_
    rw [entry_freshProgram_q q f c d t v i.isLt, vec_apply]
    ring
  rw [Qp.Program.cost, objective, hcurved, hsloped, norm_sub_sq_real, Nat.cast_ofNat]
  ring

theorem feasible_freshProgram :
    ((assemble q c f d).freshProgram t v).feasible c.size d.size = region c.size f d := by
  ext x
  refine forall_congr' fun i => ?_
  have hd : ((assemble q c f d).freshProgram t v).h.entry i 0 = d.getD i 0 :=
    Matrix.entry_of_cols rfl i.isLt
  rw [hd]
  rfl

end Program

section Unique

variable {q f : Matrix ℝ} {c d : Array ℝ} {t : ℝ} {v : Array ℝ}

theorem midpoint_mem_region {n : ℕ} {x y : EuclideanSpace ℝ (Fin n)} (hx : x ∈ region n f d)
    (hy : y ∈ region n f d) : midpoint ℝ x y ∈ region n f d := by
  intro i
  have hsum := add_le_add (hx i) (hy i)
  rw [midpoint_eq_smul_add, map_smul, map_add, PiLp.smul_apply, PiLp.add_apply, smul_eq_mul,
    invOf_eq_inv]
  linarith

theorem objective_midpoint (x y : EuclideanSpace ℝ (Fin c.size)) :
    objective q c t v (midpoint ℝ x y) = (objective q c t v x + objective q c t v y) / 2 -
      (quadraticForm c.size (mirrored q) (x - y) / 4 + ‖x - y‖ ^ 2 / (8 * t)) := by
  have hhalf : midpoint ℝ x y - vec c.size v =
      (2 : ℝ)⁻¹ • ((x - vec c.size v) + (y - vec c.size v)) := by
    rw [midpoint_eq_smul_add, invOf_eq_inv]
    module
  have hdiff : x - y = (x - vec c.size v) - (y - vec c.size v) := by abel
  have hlinear : ∑ i : Fin c.size, c.getD i 0 * midpoint ℝ x y i =
      (∑ i : Fin c.size, c.getD i 0 * x i + ∑ i : Fin c.size, c.getD i 0 * y i) / 2 := by
    rw [← Finset.sum_add_distrib, Finset.sum_div]
    refine Finset.sum_congr rfl fun i _ => ?_
    rw [midpoint_eq_smul_add, invOf_eq_inv, PiLp.smul_apply, PiLp.add_apply, smul_eq_mul]
    ring
  have hnorm : ‖midpoint ℝ x y - vec c.size v‖ ^ 2 =
      (‖x - vec c.size v‖ ^ 2 + ‖y - vec c.size v‖ ^ 2) / 2 - ‖x - y‖ ^ 2 / 4 := by
    rw [hhalf, hdiff]
    generalize x - vec c.size v = a
    generalize y - vec c.size v = b
    rw [norm_smul, mul_pow, norm_add_sq_real, norm_sub_sq_real, Real.norm_eq_abs, sq_abs]
    ring
  unfold objective
  rw [quadraticForm_midpoint, hlinear, hnorm, Nat.cast_ofNat]
  ring

theorem eq_of_minimises (ht : 0 < t) (hq : ∀ x, 0 ≤ quadraticForm c.size (mirrored q) x)
    {x y : EuclideanSpace ℝ (Fin c.size)}
    (hx : Minimises (objective q c t v) (region c.size f d) x)
    (hy : Minimises (objective q c t v) (region c.size f d) y) : x = y := by
  have hxm := isMinOn_iff.mp hx.2 _ (midpoint_mem_region hx.1 hy.1)
  have hym := isMinOn_iff.mp hy.2 _ (midpoint_mem_region hx.1 hy.1)
  rw [objective_midpoint] at hxm hym
  have hform := hq (x - y)
  have hnorm : ‖x - y‖ ^ 2 / (8 * t) ≤ 0 := by linarith
  have hzero : ‖x - y‖ ^ 2 ≤ 0 := by
    by_contra! hpos
    exact hnorm.not_gt (by positivity)
  rw [← sub_eq_zero, ← norm_eq_zero]
  exact pow_eq_zero_iff two_ne_zero |>.mp (le_antisymm hzero (sq_nonneg _))

end Unique

/-- After any earlier calls the backend gets a program with the cost of the proximal point, up to a
constant, and its feasible points. Halts of the backend are passed on; an answer is returned as it
is, and minimises if it solves the program. With a positive semidefinite `Q` nothing else does. -/
theorem prox_minimises {q f : Matrix ℝ} {c d : Array ℝ} {g : Quadratic ℝ}
    (hg : ofParts q c f d = .ok g) {t : ℝ} (ht : 0 < t) {v : Array ℝ} (hv : v.size = c.size) :
    (g.freshProgram t v).Sized c.size d.size ∧
      (∀ x, (g.freshProgram t v).cost c.size x =
        objective q c t v x - ‖vec c.size v‖ ^ 2 / (2 * t)) ∧
      (g.freshProgram t v).feasible c.size d.size = region c.size f d ∧
      ∀ (β : Type) (b : Qp.Backend β ℝ) (calls : List (ℝ × Array ℝ × ℕ))
        (w u : World (Scratch ℝ × β) ℝ), w.state.1 = g.scratch →
        u = Run.after (calls.map fun k => (g.prox b).apply k.1 k.2.1 k.2.2) w →
        (∀ e, Run.answer (b.solve (g.freshProgram t v) c.size u.state.2) = .error e →
          Run.answer ((g.prox b).apply t v c.size u) = .error e) ∧
        ∀ x, x.size = c.size →
          Run.answer (b.solve (g.freshProgram t v) c.size u.state.2) = .ok x →
          Run.answer ((g.prox b).apply t v c.size u) = .ok x ∧
            (Minimises ((g.freshProgram t v).cost c.size)
                ((g.freshProgram t v).feasible c.size d.size) (vec c.size x) →
              Minimises (objective q c t v) (region c.size f d) (vec c.size x) ∧
                ((∀ y, 0 ≤ quadraticForm c.size (mirrored q) y) → ∀ y,
                  Minimises (objective q c t v) (region c.size f d) y → y = vec c.size x)) := by
  have hsized := sized_freshProgram hg t v
  obtain ⟨-, rfl⟩ := ofParts_eq_ok.mp hg
  refine ⟨hsized, cost_freshProgram q f c d t v, feasible_freshProgram q f c d t v,
    fun β b calls w u hw hu => ?_⟩
  have hfit : (assemble q c f d).Fitting u.state := by
    rw [hu]
    refine Run.keeps_after (fun m hm w hw => ?_) (fitting_of_scratch hw)
    obtain ⟨k, -, rfl⟩ := List.mem_map.mp hm
    exact fitting_left _ b k.1 k.2.1 k.2.2 hw
  refine ⟨fun e => answer_prox_of_error _ b hv hfit, fun x hsize hx =>
    ⟨answer_prox_of_ok _ b hv hfit hsize hx, fun hmin => ?_⟩⟩
  rw [feasible_freshProgram, Minimises.add_const (-(‖vec c.size v‖ ^ 2 / (2 * t)))
    (cost_freshProgram q f c d t v)] at hmin
  exact ⟨hmin, fun hq y hy => eq_of_minimises ht hq hy hmin⟩

/-! ## One variable -/

/-- Solves the programs of one variable with one upper bound, if they are convex. -/
noncomputable def clipped : Qp.Backend Unit ℝ where
  solve prog _ s := .ok #[min (-prog.q.entry 0 0 / prog.p.entry 0 0)
    (prog.h.entry 0 0 / prog.g.entry 0 0)] s

noncomputable def parabola : Quadratic ℝ := assemble (.column #[1]) #[0] (.column #[1]) #[1]

theorem entries_parabola : (parabola.freshProgram 1 #[6]).p.entry 0 0 = 3 ∧
    (parabola.freshProgram 1 #[6]).q.entry 0 0 = -6 ∧
    (parabola.freshProgram 1 #[6]).h.entry 0 0 = 1 ∧
    (parabola.freshProgram 1 #[6]).g.entry 0 0 = 1 := by
  refine ⟨?_, ?_, rfl, rfl⟩
  · rw [parabola, entry_freshProgram_p _ _ _ _ _ _ one_pos one_pos]
    have hq : mirrored (.column #[1]) 0 0 = 1 := rfl
    rw [hq]
    norm_num
  · rw [parabola, entry_freshProgram_q _ _ _ _ _ _ one_pos]
    have hc : (#[0] : Array ℝ).getD 0 0 = 0 := rfl
    have hv : (#[6] : Array ℝ).getD 0 0 = 6 := rfl
    rw [hc, hv]
    norm_num

theorem clipped_parabola : clipped.solve (parabola.freshProgram 1 #[6]) 1 () = .ok #[1] () := by
  obtain ⟨hp, hq, hh, hg⟩ := entries_parabola
  show EStateM.Result.ok #[min _ _] () = _
  rw [hp, hq, hh, hg]
  norm_num

theorem minimises_parabola : Minimises ((parabola.freshProgram 1 #[6]).cost 1)
    ((parabola.freshProgram 1 #[6]).feasible 1 1) (vec 1 #[1]) := by
  obtain ⟨hp, hq, hh, hg⟩ := entries_parabola
  have hcost : ∀ x, (parabola.freshProgram 1 #[6]).cost 1 x = 3 * x 0 * x 0 / 2 - 6 * x 0 := by
    intro x
    simp only [Qp.Program.cost, quadraticForm, Fin.sum_univ_one, Fin.val_zero, hp, hq,
      Nat.cast_ofNat]
    ring
  have hfeasible : ∀ x, x ∈ (parabola.freshProgram 1 #[6]).feasible 1 1 ↔ x 0 ≤ 1 := by
    intro x
    simp only [Qp.Program.feasible, Set.mem_ofPred_eq, Fin.forall_fin_one, linearOf_apply,
      Fin.sum_univ_one, Fin.val_zero, hg, hh, one_mul]
  have hone : vec 1 #[1] 0 = 1 := rfl
  refine ⟨(hfeasible _).mpr hone.le, isMinOn_iff.mpr fun x hx => ?_⟩
  have hx := (hfeasible x).mp hx
  rw [hcost, hcost, hone]
  nlinarith

theorem parabola_prox_minimises :
    ofParts (.column #[1]) #[0] (.column #[1]) #[1] = .ok parabola ∧
      Run.answer ((parabola.prox clipped).apply 1 #[6] 1
        (Run.after [(parabola.prox clipped).apply 2 #[0] 1]
          (World.start (parabola.scratch, ()) none))) = .ok #[1] ∧
      Minimises (objective (.column #[1]) #[0] 1 #[6]) (region 1 (.column #[1]) #[1])
        (vec 1 #[1]) ∧
      ∀ y, Minimises (objective (.column #[1]) #[0] 1 #[6]) (region 1 (.column #[1]) #[1]) y →
        y = vec 1 #[1] := by
  have hconvex : ∀ y, 0 ≤ quadraticForm 1 (mirrored (.column #[1])) y := by
    intro y
    have hq : mirrored (.column #[1]) 0 0 = 1 := rfl
    simp only [quadraticForm, Fin.sum_univ_one, Fin.val_zero, hq, one_mul]
    exact mul_self_nonneg _
  obtain ⟨-, -, -, hall⟩ := prox_minimises (q := .column #[1]) (c := #[0]) (f := .column #[1])
    (d := #[1]) (g := parabola) rfl one_pos (v := #[6]) rfl
  obtain ⟨-, hall⟩ := hall Unit clipped [(2, #[0], 1)] (World.start (parabola.scratch, ()) none)
    _ rfl rfl
  obtain ⟨hanswer, hmin⟩ := hall #[1] rfl (congrArg Run.answer clipped_parabola)
  obtain ⟨hleast, hunique⟩ := hmin minimises_parabola
  exact ⟨rfl, hanswer, hleast, hunique hconvex⟩

end Quadratic

end Splitting
