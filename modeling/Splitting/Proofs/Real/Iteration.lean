import Splitting.Proofs.Real.Coupling
import Splitting.Proofs.Safety

/-!
# An iteration in exact arithmetic

What an iteration measures, as formulas in the coupling and the weight of the projection, and what
sums over stacked vectors say about the blocks.
-/

namespace Splitting

/-! ## Sums over blocks -/

theorem sum_append {x y : Array ℝ} {n : ℕ} (hx : x.size = n) (hy : y.size = n) (x' y' : Array ℝ)
    (k : ℕ) (f : ℕ → ℝ → ℝ → ℝ) :
    ∑ i ∈ Finset.range (n + k), f i ((x ++ x').getD i 0) ((y ++ y').getD i 0) =
      ∑ i ∈ Finset.range n, f i (x.getD i 0) (y.getD i 0) +
        ∑ i ∈ Finset.range k, f (n + i) (x'.getD i 0) (y'.getD i 0) := by
  rw [Finset.sum_range_add]
  congr 1
  · refine Finset.sum_congr rfl fun i hi => ?_
    have hi := Finset.mem_range.mp hi
    rw [getD_append_left (by omega), getD_append_left (by omega)]
  · refine Finset.sum_congr rfl fun i _ => ?_
    have hxi := getD_append_right x x' i
    have hyi := getD_append_right y y' i
    rw [hx] at hxi
    rw [hy] at hyi
    rw [hxi, hyi]

/-! ## Feasible points -/

namespace Problem

variable {σ : Type}

/-- `A`: the operators of all blocks, side by side. -/
noncomputable def coupling (p : Problem σ ℝ) :
    EuclideanSpace ℝ (Fin (total p.dims)) →ₗ[ℝ] EuclideanSpace ℝ (Fin p.rhs.size) :=
  linearOf (total p.dims) p.rhs.size (Projection.stackCoeff (p.couplings.zip p.dims))

/-- Entry `r` of `G₁ z₁ + … + Gₙ zₙ`. -/
noncomputable def coupled (p : Problem σ ℝ) (zs : List (Array ℝ)) (r : ℕ) : ℝ :=
  ((p.couplings.zip zs).map fun part =>
    ∑ c ∈ Finset.range part.1.cols, part.1.coeff r c * part.2.getD c 0).sum

/-- The blocks `zs` are coupled as the right-hand side asks. -/
structure Feasible (p : Problem σ ℝ) (zs : List (Array ℝ)) : Prop where
  sizes : zs.map Array.size = p.dims
  coupled : ∀ r < p.rhs.size, p.coupled zs r = p.rhs.getD r 0

noncomputable def coupledNorm (p : Problem σ ℝ) (zs : List (Array ℝ)) : ℝ :=
  √(∑ r ∈ Finset.range p.rhs.size, p.coupled zs r ^ 2)

end Problem

namespace Projection

theorem sum_stackCoeff_stack (r : ℕ) {gs : List (Operator ℝ)} {zs : List (Array ℝ)}
    (h : ∀ g z, (g, z) ∈ gs.zip zs → g.cols = z.size) :
    ∑ i ∈ Finset.range (total ((gs.zip (zs.map Array.size)).map Prod.snd)),
        stackCoeff (gs.zip (zs.map Array.size)) r i * (Solver.stack zs).getD i 0 =
      ((gs.zip zs).map fun part =>
        ∑ c ∈ Finset.range part.1.cols, part.1.coeff r c * part.2.getD c 0).sum := by
  induction gs generalizing zs with
  | nil => simp
  | cons g gs ih =>
    cases zs with
    | nil => simp
    | cons z zs =>
      have hg : g.cols = z.size := h g z (by simp)
      have htail : ∀ g' z', (g', z') ∈ gs.zip zs → g'.cols = z'.size :=
        fun g' z' hm => h g' z' (by simp [hm])
      simp only [List.map_cons, List.zip_cons_cons, total_cons, List.sum_cons, Solver.stack_cons]
      rw [sum_stackCoeff_cons, ← ih htail, hg]
      congr 1
      · refine Finset.sum_congr rfl fun c hc => ?_
        rw [getD_append_left (Finset.mem_range.mp hc)]
      · refine Finset.sum_congr rfl fun i _ => ?_
        rw [getD_append_right]

end Projection

namespace Problem

variable {σ : Type} {p : Problem σ ℝ}

theorem coupling_stack (h : p.shapeDefect? = none) {zs : List (Array ℝ)}
    (hz : zs.map Array.size = p.dims) (r : Fin p.rhs.size) :
    p.coupling (vec (total p.dims) (Solver.stack zs)) r = p.coupled zs r := by
  obtain ⟨-, -, hfit⟩ := shapeDefect?_eq_none.mp h
  have hsnd := dims_of_parts h (Nat.ne_of_gt (Nat.zero_lt_of_lt r.isLt))
  have hcols : ∀ g z, (g, z) ∈ p.couplings.zip zs → g.cols = z.size := by
    intro g z hm
    have hmem : (g, z.size) ∈ p.couplings.zip p.dims := by
      rw [← hz, List.zip_map_right]
      exact List.mem_map.mpr ⟨(g, z), hm, rfl⟩
    obtain ⟨-, q, hq, hqz⟩ := exists_of_mem_zip_dims hmem
    rw [← hqz]
    exact (hfit q g hq).1
  have hsum := Projection.sum_stackCoeff_stack r hcols
  rw [hz, hsnd] at hsum
  rw [coupling, linearOf_vec, hsum]
  rfl

theorem Feasible.mem_range {zs : List (Array ℝ)} (hf : p.Feasible zs)
    (h : p.shapeDefect? = none) : vec p.rhs.size p.rhs ∈ LinearMap.range p.coupling := by
  refine ⟨vec (total p.dims) (Solver.stack zs), ?_⟩
  ext r
  rw [coupling_stack h hf.sizes, vec_apply]
  exact hf.coupled r r.isLt

end Problem

namespace Solver

/-! ## What is measured -/

theorem measure?_vec {p : Projection ℝ} {n : ℕ} (h : p.Linear n) {rho : ℝ}
    {s : Projection.Scratch ℝ} (hs : s.Sized p.rhs.size) {v x : Array ℝ} (hv : v.size = n)
    (hx : x.size = n) {m : Measure ℝ} (hm : measure? p rho s v x = some m) :
    m.primal = ‖p.coupling n (vec n x) - vec p.rhs.size p.rhs‖ ∧
      m.dual = ‖p.unreached n ((1 / rho) • (vec n v - vec n x))‖ ∧
      vec n m.residual = vec n x - p.nearest n ((2 : ℝ) • vec n x - vec n v) ∧
      vec n m.image = vec n v - vec n m.residual := by
  simp only [measure?, Option.bind_eq_bind, Option.bind_eq_some_iff] at hm
  obtain ⟨r, hr, ⟨y, s₁⟩, hy, g, hg, f, hf, ⟨a, s₂⟩, ha, l, hl, ⟨b, s₃⟩, hb, hm⟩ := hm
  cases hm
  have hsr := (Vec.sizes_of_sub? hr).2
  rw [Vec.size_scale, hx] at hsr
  obtain ⟨y', t₁, hy', -, hs₁⟩ := Projection.project?_total h.toFits hs hsr
  rw [hy] at hy'
  cases hy'
  obtain ⟨a', t₂, ha', hs₂⟩ := Projection.residual?_total h.toFits hs₁ hx
  rw [ha] at ha'
  cases ha'
  have hsl := (Vec.sizes_of_sub? hl).2
  have htwo : (Scalar.two : ℝ) = 2 := one_add_one_eq_two
  refine ⟨Projection.residual?_vec h hx ha, ?_, ?_, vec_sub? hf n⟩
  · rw [Projection.rangeResidual?_vec h hs₂ (by rw [Vec.size_scale]; omega) hb, vec_scale,
      vec_sub? hl]
    rfl
  · rw [vec_sub? hg, Projection.project?_vec h hs hsr hy, vec_sub? hr, vec_scale, htwo]

theorem look_vec {σ : Type} {par : Params ℝ} {proxes : List (Prox σ ℝ)} {proj : Projection ℝ}
    {n : ℕ} (h : proj.Linear n) (hn : total (proxes.map Prox.dim) = n) {q : Progress ℝ}
    (hq : q.Sized n proj.rhs.size) {w v : World σ ℝ} {s : Sight ℝ}
    (hs : look par proxes proj q w = .ok s v) :
    s.measure.primal = ‖proj.coupling n (vec n s.x) - vec proj.rhs.size proj.rhs‖ ∧
      s.measure.dual = ‖proj.unreached n ((1 / par.rho) • (vec n q.v - vec n s.x))‖ ∧
      vec n s.measure.residual =
        vec n s.x - proj.nearest n ((2 : ℝ) • vec n s.x - vec n q.v) ∧
      vec n s.measure.image = vec n q.v - vec n s.measure.residual := by
  obtain ⟨hprox, hmeasure⟩ := look_eq_ok.mp hs
  have hx : s.x.size = n := by rw [size_of_proxPoints hprox, hn]
  exact measure?_vec h hq.scratch hq.v hx hmeasure

/-! ## What is prepared -/

variable {σ : Type} [Spectral ℝ]

section Prepare

variable {par : Params ℝ} {init : Option (List (Array ℝ))} {p : Problem σ ℝ}
  {proj : Projection ℝ} {w v : World σ ℝ}

theorem linear_of_ofCouplings? (hl : ∀ g ∈ p.couplings, g.IsLinear) (hshape : p.shapeDefect? = none)
    {epsZero : ℝ} (hp : Projection.ofCouplings? p.couplings p.dims p.rhs epsZero = some proj) :
    proj.parts = p.couplings.zip p.dims ∧ proj.rhs = p.rhs ∧ proj.Linear (total p.dims) := by
  have hsound : ∀ g ∈ p.couplings, g.Sound := fun g hg => (hl g hg).sound
  obtain ⟨hparts, hrhs, hfit⟩ := Projection.fits_of_ofCouplings? hsound hshape hp
  refine ⟨hparts, hrhs, hfit, ?_, ?_⟩
  · rw [hparts, hrhs]
    exact Projection.partsLinear_of_shape hl hshape
  · intro ha
    obtain ⟨hne, hlen, -⟩ := Problem.shapeDefect?_eq_none.mp hshape
    rw [hrhs]
    rcases hlen with hlen | ⟨-, h0⟩
    · by_contra hm
      have hpos : 0 < p.rhs.size := Nat.pos_of_ne_zero hm
      have hempty : p.couplings = [] ∨ p.dims = [] := by
        simpa [Projection.active, hparts, hrhs, hpos] using ha
      rcases hempty with he | he
      · rw [he] at hlen
        exact hne (List.length_eq_zero_iff.mp hlen.symm)
      · exact hne (by simpa [Problem.dims] using he)
    · exact h0

theorem linear_of_prepare (hl : ∀ g ∈ p.couplings, g.IsLinear)
    (h : prepare par init p w = .ok proj v) :
    proj.parts = p.couplings.zip p.dims ∧ proj.rhs = p.rhs ∧ proj.Linear (total p.dims) := by
  obtain ⟨hd, hp, -, -⟩ := prepare_eq_ok.mp h
  exact linear_of_ofCouplings? hl (shapeDefect?_of_defect? hd) hp

theorem coupling_stack (hl : ∀ g ∈ p.couplings, g.IsLinear)
    (h : prepare par init p w = .ok proj v) {zs : List (Array ℝ)}
    (hz : zs.map Array.size = p.dims) (r : Fin proj.rhs.size) :
    proj.coupling (total p.dims) (vec (total p.dims) (stack zs)) r = p.coupled zs r := by
  obtain ⟨hparts, hrhs, -⟩ := linear_of_prepare hl h
  obtain ⟨parts, rhs, pinv⟩ := proj
  dsimp only at hparts hrhs
  subst hparts hrhs
  exact Problem.coupling_stack (shapeDefect?_of_defect? (prepare_eq_ok.mp h).1) hz r

theorem feasible_iff (hl : ∀ g ∈ p.couplings, g.IsLinear)
    (h : prepare par init p w = .ok proj v) {zs : List (Array ℝ)}
    (hz : zs.map Array.size = p.dims) :
    p.Feasible zs ↔ proj.coupling (total p.dims) (vec (total p.dims) (stack zs)) =
      vec proj.rhs.size proj.rhs := by
  have hrhs := (linear_of_prepare hl h).2.1
  have hentry : ∀ r, proj.rhs.getD r 0 = p.rhs.getD r 0 := fun r => by rw [hrhs]
  constructor
  · intro hf
    ext r
    rw [coupling_stack hl h hz, vec_apply, hentry]
    exact hf.coupled r (hrhs ▸ r.isLt)
  · intro he
    refine ⟨hz, fun r hr => ?_⟩
    have hr' : r < proj.rhs.size := by rw [hrhs]; exact hr
    have hc := coupling_stack hl h hz ⟨r, hr'⟩
    rw [he, vec_apply, hentry] at hc
    exact hc.symm

theorem norm_coupling_eq (hl : ∀ g ∈ p.couplings, g.IsLinear)
    (hp : prepare par init p w = .ok proj v) {zs : List (Array ℝ)}
    (hz : zs.map Array.size = p.dims) :
    ‖proj.coupling (total p.dims) (vec (total p.dims) (stack zs))‖ = p.coupledNorm zs := by
  have hrhs := (linear_of_prepare hl hp).2.1
  rw [EuclideanSpace.norm_eq, Problem.coupledNorm, ← hrhs,
    ← Fin.sum_univ_eq_sum_range fun r => p.coupled zs r ^ 2]
  congr 1
  refine Finset.sum_congr rfl fun r _ => ?_
  rw [coupling_stack hl hp hz, Real.norm_eq_abs, sq_abs]

end Prepare

theorem firstConvergesAt_of_residuals_zero {par : Params ℝ} {init : Option (List (Array ℝ))}
    {p : Problem σ ℝ} {w v : World σ ℝ} {s : Sight ℝ} (hs : iteration par init p 0 w = .ok s v)
    (hprimal : s.measure.primal = 0) (hdual : s.measure.dual = 0) :
    FirstConvergesAt par init p w 0 := by
  obtain ⟨proj, u, q, t, hp, -⟩ := iteration_eq_ok.mp hs
  obtain ⟨-, -, habs, -⟩ :=
    Params.broken?_eq_none.mp (broken?_of_defect? (prepare_eq_ok.mp hp).1)
  have hr : residuals? par init p w 0 = some (0, 0) := by
    unfold residuals?
    rw [hs]
    dsimp only
    rw [hprimal, hdual]
  have hle : 0 ≤ par.epsAbs + par.epsRel * 0 := by
    rw [mul_zero, add_zero]
    exact habs
  exact ⟨⟨(0, 0), (0, 0), hr, hr, hle, hle⟩, fun j hj => absurd hj (Nat.not_lt_zero j)⟩

end Solver

end Splitting
