import Splitting.Proofs.Real.Operator

/-!
# The coupling in exact arithmetic

Operators that are linear maps with their adjoints couple the blocks by one linear map `A` on the
stacked vector. The projection, and both residuals, are formulas in `A` and the weight `W` that
stands for the pseudo-inverse of `A Aᵀ`, whatever it holds.
-/

namespace Splitting

namespace Projection

/-! ## The stacked map -/

/-- Linear operators with the dimensions of their blocks, all with `m` rows. -/
def PartsLinear (parts : List (Operator ℝ × ℕ)) (m : ℕ) : Prop :=
  ∀ g n, (g, n) ∈ parts → g.IsLinear ∧ g.cols = n ∧ g.rows = m

theorem PartsLinear.fit {parts : List (Operator ℝ × ℕ)} {m : ℕ} (h : PartsLinear parts m) :
    PartsFit parts m := by
  intro g n hg
  obtain ⟨hl, hc, hr⟩ := h g n hg
  exact ⟨hl.sound, hc, hr⟩

theorem PartsLinear.tail {part : Operator ℝ × ℕ} {parts : List (Operator ℝ × ℕ)} {m : ℕ}
    (h : PartsLinear (part :: parts) m) : PartsLinear parts m :=
  fun g n hg => h g n (List.mem_cons_of_mem part hg)

theorem partsLinear_of_shape {σ : Type} {p : Problem σ ℝ} (hl : ∀ g ∈ p.couplings, g.IsLinear)
    (hshape : p.shapeDefect? = none) : PartsLinear (p.couplings.zip p.dims) p.rhs.size :=
  fun g n hg => ⟨hl g (Problem.exists_of_mem_zip_dims hg).1,
    (Problem.partsFit (fun g hg => (hl g hg).sound) hshape g n hg).2⟩

noncomputable def stackCoeff : List (Operator ℝ × ℕ) → ℕ → ℕ → ℝ
  | [], _, _ => 0
  | (g, n) :: parts, r, i => if i < n then g.coeff r i else stackCoeff parts r (i - n)

theorem stackCoeff_of_lt {g : Operator ℝ} {n i : ℕ} (h : i < n) (parts : List (Operator ℝ × ℕ))
    (r : ℕ) : stackCoeff ((g, n) :: parts) r i = g.coeff r i := if_pos h

@[simp] theorem stackCoeff_add (g : Operator ℝ) (n : ℕ) (parts : List (Operator ℝ × ℕ))
    (r i : ℕ) : stackCoeff ((g, n) :: parts) r (n + i) = stackCoeff parts r i := by
  simp [stackCoeff]

theorem sum_stackCoeff_cons (g : Operator ℝ) (n : ℕ) (parts : List (Operator ℝ × ℕ)) (k r : ℕ)
    (f : ℕ → ℝ) :
    ∑ i ∈ Finset.range (n + k), stackCoeff ((g, n) :: parts) r i * f i =
      ∑ c ∈ Finset.range n, g.coeff r c * f c +
        ∑ i ∈ Finset.range k, stackCoeff parts r i * f (n + i) := by
  rw [Finset.sum_range_add]
  congr 1
  · refine Finset.sum_congr rfl fun c hc => ?_
    rw [stackCoeff_of_lt (Finset.mem_range.mp hc)]
  · simp only [stackCoeff_add]

theorem getD_extract {x : Array ℝ} {k n c : ℕ} (hc : c < n) (hx : k + n ≤ x.size) :
    (x.extract k (k + n)).getD c 0 = x.getD (k + c) 0 := by
  rw [getD_of_lt (by simp; omega), getD_of_lt (by omega)]
  exact Array.getElem_extract ..

theorem sum_extract {x : Array ℝ} {k n : ℕ} (hx : (x.extract k (k + n)).size = n)
    (f : ℕ → ℝ → ℝ) :
    ∑ c ∈ Finset.range n, f c ((x.extract k (k + n)).getD c 0) =
      ∑ c ∈ Finset.range n, f c (x.getD (k + c) 0) := by
  refine Finset.sum_congr rfl fun c hc => ?_
  have hc := Finset.mem_range.mp hc
  rw [Array.size_extract] at hx
  rw [getD_extract hc (by omega)]

theorem addCoupled?_getD {parts : List (Operator ℝ × ℕ)} {m : ℕ} (h : PartsLinear parts m)
    {x y z : Array ℝ} {k : ℕ} (hx : k + total (parts.map Prod.snd) ≤ x.size) (hy : y.size = m)
    (hz : addCoupled? x parts k y = some z) {r : ℕ} (hr : r < m) :
    z.getD r 0 = y.getD r 0 +
      ∑ i ∈ Finset.range (total (parts.map Prod.snd)), stackCoeff parts r i * x.getD (k + i) 0 := by
  induction parts generalizing k y with
  | nil =>
    cases hz
    simp
  | cons part parts ih =>
    obtain ⟨g, n⟩ := part
    obtain ⟨hg, rfl, rfl⟩ := h g n (by simp)
    simp only [List.map_cons, total_cons] at hx ⊢
    have hex : (x.extract k (k + g.cols)).size = g.cols := by simp; omega
    obtain ⟨a, ha, hsa, -⟩ := hg.apply 1 (x.extract k (k + g.cols)) 1 y hex hy
    have hrest : addCoupled? x parts (k + g.cols) a = some z := by
      simpa [addCoupled?, ha] using hz
    rw [ih h.tail (by omega) hsa hrest, hg.apply_getD hex hy ha hr]
    have hblock := sum_extract hex fun c a => g.coeff r c * a
    have hsplit := sum_stackCoeff_cons g g.cols parts (total (parts.map Prod.snd)) r
      fun i => x.getD (k + i) 0
    rw [hsplit, hblock, one_mul, one_mul]
    simp only [Nat.add_assoc]
    ring

theorem subTransposed?_getD {parts : List (Operator ℝ × ℕ)} {m : ℕ} (h : PartsLinear parts m)
    {w y z out : Array ℝ} {k : ℕ} (hw : w.size = m)
    (hy : k + total (parts.map Prod.snd) ≤ y.size) (hz : subTransposed? w y parts k out = some z) :
    (∀ i < out.size, z.getD i 0 = out.getD i 0) ∧
      ∀ i < total (parts.map Prod.snd), z.getD (out.size + i) 0 =
        y.getD (k + i) 0 - ∑ r ∈ Finset.range m, stackCoeff parts r i * w.getD r 0 := by
  induction parts generalizing k out with
  | nil =>
    cases hz
    exact ⟨fun _ _ => rfl, fun i hi => absurd hi (Nat.not_lt_zero i)⟩
  | cons part parts ih =>
    obtain ⟨g, n⟩ := part
    obtain ⟨hg, rfl, rfl⟩ := h g n (by simp)
    simp only [List.map_cons, total_cons] at hy ⊢
    have hey : (y.extract k (k + g.cols)).size = g.cols := by simp; omega
    obtain ⟨a, ha, hsa, -⟩ := hg.applyTransposed (-1) w 1 (y.extract k (k + g.cols)) hw hey
    have hrest : subTransposed? w y parts (k + g.cols) (out ++ a) = some z := by
      simpa [subTransposed?, ha] using hz
    obtain ⟨hold, hnew⟩ := ih h.tail (by omega) hrest
    rw [Array.size_append, hsa] at hold hnew
    constructor
    · intro i hi
      rw [hold i (by omega), getD_append_left hi]
    · intro i hi
      rcases Nat.lt_or_ge i g.cols with hlt | hge
      · have hentry := hg.applyTransposed_getD hw hey ha hlt
        rw [getD_extract hlt (by omega)] at hentry
        rw [hold _ (by omega), getD_append_right, hentry]
        simp only [stackCoeff_of_lt hlt]
        ring
      · obtain ⟨j, rfl⟩ := Nat.exists_eq_add_of_le hge
        have hj := hnew j (by omega)
        simp only [stackCoeff_add, ← Nat.add_assoc]
        exact hj

/-! ## The projection -/

variable {p : Projection ℝ} {n : ℕ}

/-- `A`, on stacked vectors of `n` entries. -/
noncomputable def coupling (p : Projection ℝ) (n : ℕ) :
    EuclideanSpace ℝ (Fin n) →ₗ[ℝ] EuclideanSpace ℝ (Fin p.rhs.size) :=
  linearOf n p.rhs.size (stackCoeff p.parts)

/-- `Aᵀ`. -/
noncomputable def transposed (p : Projection ℝ) (n : ℕ) :
    EuclideanSpace ℝ (Fin p.rhs.size) →ₗ[ℝ] EuclideanSpace ℝ (Fin n) :=
  linearOf p.rhs.size n fun i r => stackCoeff p.parts r i

theorem adjoint_coupling (p : Projection ℝ) (n : ℕ) :
    LinearMap.adjoint (p.coupling n) = p.transposed n :=
  adjoint_linearOf n p.rhs.size (stackCoeff p.parts)

theorem inner_transposed (p : Projection ℝ) {n : ℕ} (y : EuclideanSpace ℝ (Fin p.rhs.size))
    (x : EuclideanSpace ℝ (Fin n)) :
    inner ℝ (p.transposed n y) x = inner ℝ y (p.coupling n x) := by
  rw [← adjoint_coupling, LinearMap.adjoint_inner_left]

/-- `W`. -/
noncomputable def weight (p : Projection ℝ) :
    EuclideanSpace ℝ (Fin p.rhs.size) →ₗ[ℝ] EuclideanSpace ℝ (Fin p.rhs.size) :=
  linearOf p.rhs.size p.rhs.size p.pinv.entry

/-- `u - Aᵀ W A u`. -/
noncomputable def unreached (p : Projection ℝ) (n : ℕ) (u : EuclideanSpace ℝ (Fin n)) :
    EuclideanSpace ℝ (Fin n) :=
  u - p.transposed n (p.weight (p.coupling n u))

/-- `u - Aᵀ W (A u - h)`. -/
noncomputable def nearest (p : Projection ℝ) (n : ℕ) (u : EuclideanSpace ℝ (Fin n)) :
    EuclideanSpace ℝ (Fin n) :=
  u - p.transposed n (p.weight (p.coupling n u - vec p.rhs.size p.rhs))

/-- A projection for linear operators on blocks of `n` entries in all. -/
structure Linear (p : Projection ℝ) (n : ℕ) : Prop extends p.Fits n where
  linear : PartsLinear p.parts p.rhs.size
  idle : p.active = false → p.rhs.size = 0

theorem Linear.subsingleton (h : p.Linear n) (ha : p.active = false) :
    Subsingleton (EuclideanSpace ℝ (Fin p.rhs.size)) := by
  rw [h.idle ha]
  infer_instance

theorem addCoupled?_vec (h : p.Linear n) (ha : p.active = true) {x y z : Array ℝ}
    (hx : x.size = n) (hy : y.size = p.rhs.size) (hz : addCoupled? x p.parts 0 y = some z) :
    z.size = p.rhs.size ∧
      vec p.rhs.size z = vec p.rhs.size y + p.coupling n (vec n x) := by
  have htot := h.total ha
  obtain ⟨z', hz', hs⟩ := addCoupled?_total h.parts (x := x) (k := 0) (by omega) hy
  rw [hz] at hz'
  cases hz'
  refine ⟨hs, vec_ext fun r => ?_⟩
  rw [addCoupled?_getD h.linear (by omega) hy hz r.isLt, PiLp.add_apply, vec_apply, coupling,
    linearOf_vec, htot]
  simp only [Nat.zero_add]

theorem gap?_vec (h : p.Linear n) (ha : p.active = true) {x z : Array ℝ} (hx : x.size = n)
    (hz : p.gap? x = some z) :
    z.size = p.rhs.size ∧
      vec p.rhs.size z = p.coupling n (vec n x) - vec p.rhs.size p.rhs := by
  obtain ⟨hs, hv⟩ := addCoupled?_vec h ha hx (by simp) hz
  refine ⟨hs, ?_⟩
  rw [hv, vec_scale]
  have : (-1 : ℝ) • vec p.rhs.size p.rhs = -vec p.rhs.size p.rhs := neg_one_smul ℝ _
  rw [this]
  abel

theorem correct?_vec (h : p.Linear n) (ha : p.active = true) {gap multiplier y z : Array ℝ}
    {s : Scratch ℝ} (hg : gap.size = p.rhs.size) (hm : multiplier.size = p.rhs.size)
    (hy : y.size = n) (hz : p.correct? gap multiplier y = some (z, s)) :
    vec n z = vec n y - p.transposed n (p.weight (vec p.rhs.size gap)) := by
  have htot := h.total ha
  have hrows : p.pinv.rows = p.rhs.size := congrArg Shape.rows h.shape
  have hcols : p.pinv.cols = p.rhs.size := congrArg Shape.cols h.shape
  obtain ⟨w, hw, hsw⟩ := p.pinv.mulAdd?_total 1 0 (x := gap) (y := multiplier)
    (by rw [hg, hcols]) (by rw [hm, hrows])
  have hwv : vec p.rhs.size w = p.weight (vec p.rhs.size gap) := by
    have hv := Matrix.mulAdd?_vec (by rw [hm, hrows]) hw
    rw [hrows, hcols, one_smul, zero_smul, add_zero] at hv
    exact hv
  obtain ⟨z', hz', -⟩ := subTransposed?_total h.parts (w := w) (y := y) (k := 0)
    (by rw [hsw, hrows]) (by omega) #[]
  simp only [correct?, hw, hz', Option.bind_eq_bind, Option.bind_some] at hz
  cases hz
  obtain ⟨-, hnew⟩ := subTransposed?_getD h.linear (w := w) (y := y) (k := 0)
    (by rw [hsw, hrows]) (by omega) hz'
  refine vec_ext fun i => ?_
  have hi := hnew i (by omega)
  rw [Array.size_empty, Nat.zero_add] at hi
  rw [hi, PiLp.sub_apply, vec_apply, ← hwv, transposed, linearOf_vec]

/-! ## Projecting and measuring -/

theorem project?_vec (h : p.Linear n) {s s' : Scratch ℝ} (hs : s.Sized p.rhs.size)
    {v z : Array ℝ} (hv : v.size = n) (hz : p.project? s v = some (z, s')) :
    vec n z = p.nearest n (vec n v) := by
  unfold project? at hz
  cases ha : p.active with
  | true =>
    rw [if_pos ha] at hz
    obtain ⟨gap, hg, hz⟩ := Option.bind_eq_some_iff.mp hz
    obtain ⟨hsg, hgv⟩ := gap?_vec h ha hv hg
    rw [correct?_vec h ha hsg hs.2 hv hz, hgv]
    rfl
  | false =>
    rw [if_neg (by simp [ha])] at hz
    cases hz
    have := h.subsingleton ha
    rw [nearest, Subsingleton.elim (p.weight _) 0, map_zero, sub_zero]

theorem residual?_vec (h : p.Linear n) {s s' : Scratch ℝ} {x : Array ℝ} {r : ℝ} (hx : x.size = n)
    (hr : p.residual? s x = some (r, s')) :
    r = ‖p.coupling n (vec n x) - vec p.rhs.size p.rhs‖ := by
  unfold residual? at hr
  cases ha : p.active with
  | true =>
    rw [if_pos ha] at hr
    obtain ⟨gap, hg, hr⟩ := Option.bind_eq_some_iff.mp hr
    cases hr
    obtain ⟨hsg, hgv⟩ := gap?_vec h ha hx hg
    rw [norm_eq hsg, hgv]
  | false =>
    rw [if_neg (by simp [ha])] at hr
    cases hr
    have := h.subsingleton ha
    rw [Subsingleton.elim (p.coupling n (vec n x) - _) 0]
    exact norm_zero.symm

theorem rangeResidual?_vec (h : p.Linear n) {s s' : Scratch ℝ} (hs : s.Sized p.rhs.size)
    {g : Array ℝ} {r : ℝ} (hg : g.size = n) (hr : p.rangeResidual? s g = some (r, s')) :
    r = ‖p.unreached n (vec n g)‖ := by
  unfold rangeResidual? at hr
  cases ha : p.active with
  | true =>
    rw [if_pos ha] at hr
    obtain ⟨gap, hgap, hr⟩ := Option.bind_eq_some_iff.mp hr
    obtain ⟨⟨rest, t⟩, hc, hr⟩ := Option.bind_eq_some_iff.mp hr
    cases hr
    obtain ⟨hsg, hgv⟩ := addCoupled?_vec h ha hg (by simp [hs.1]) hgap
    obtain ⟨z, t', hz, hsz, -⟩ := correct?_total h.toFits ha hsg hs.2 hg
    rw [hc] at hz
    cases hz
    rw [norm_eq hsz, correct?_vec h ha hsg hs.2 hg hc, hgv, vec_scale]
    have : (0 : ℝ) • vec p.rhs.size s.gap = 0 := zero_smul ℝ _
    rw [this, zero_add]
    rfl
  | false =>
    rw [if_neg (by simp [ha])] at hr
    cases hr
    have := h.subsingleton ha
    rw [norm_eq hg, unreached, Subsingleton.elim (p.weight _) 0, map_zero, sub_zero]

end Projection

end Splitting
