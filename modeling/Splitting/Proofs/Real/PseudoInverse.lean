import Splitting.Proofs.Real.Coupling
import Splitting.Proofs.Real.Spectrum

/-!
# The pseudo-inverse in exact arithmetic

With exact eigenvalues, none of which is cut off wrongly, the weight is the Moore–Penrose inverse of
`A Aᵀ`. So it inverts `A Aᵀ` on the range of `A`, which is all that the projection needs.
-/

namespace Splitting

open LinearMap (adjoint)

namespace Projection

/-! ## The Gram matrix -/

theorem addGram?_getD {parts : List (Operator ℝ × ℕ)} {m : ℕ} (h : PartsLinear parts m)
    {e y z : Array ℝ} (he : e.size = m) (hy : y.size = m) (hz : addGram? e parts y = some z) {r : ℕ}
    (hr : r < m) :
    z.getD r 0 = y.getD r 0 + ∑ i ∈ Finset.range (total (parts.map Prod.snd)),
      stackCoeff parts r i * ∑ k ∈ Finset.range m, stackCoeff parts k i * e.getD k 0 := by
  -- each block adds its own product to `y`, so `y` varies with the blocks that are left
  induction parts generalizing y with
  | nil =>
    cases hz
    simp
  | cons part parts ih =>
    obtain ⟨g, n⟩ := part
    obtain ⟨hg, rfl, rfl⟩ := h g n (by simp)
    obtain ⟨a, ha, hsa, -⟩ := hg.applyTransposed 1 e 0 (Vec.zeros g.cols) he (by simp)
    obtain ⟨b, hb, hsb, -⟩ := hg.apply 1 a 1 y hsa hy
    have hrest : addGram? e parts b = some z := by simpa [addGram?, ha, hb] using hz
    have hentry : ∀ c ∈ Finset.range g.cols, g.coeff r c * a.getD c 0 =
        g.coeff r c * ∑ k ∈ Finset.range g.rows, g.coeff k c * e.getD k 0 := fun c hc => by
      rw [hg.applyTransposed_getD he (by simp) ha (Finset.mem_range.mp hc), one_mul, zero_mul,
        add_zero]
    rw [ih h.tail hsb hrest, hg.apply_getD hsa hy hb hr, Finset.sum_congr rfl hentry]
    simp only [List.map_cons, total_cons]
    rw [sum_stackCoeff_cons]
    have hfirst : ∀ c ∈ Finset.range g.cols,
        g.coeff r c * ∑ k ∈ Finset.range g.rows,
          stackCoeff ((g, g.cols) :: parts) k c * e.getD k 0 =
        g.coeff r c * ∑ k ∈ Finset.range g.rows, g.coeff k c * e.getD k 0 := fun c hc => by
      simp only [stackCoeff_of_lt (Finset.mem_range.mp hc)]
    rw [Finset.sum_congr rfl hfirst]
    simp only [stackCoeff_add]
    ring

theorem addGram?_unit {parts : List (Operator ℝ × ℕ)} {m : ℕ} (h : PartsLinear parts m)
    {y z : Array ℝ} (hy : y.size = m) {c r : ℕ} (hc : c < m) (hr : r < m)
    (hz : addGram? (unit m c) parts (Vec.scale 0 y) = some z) :
    z.getD r 0 = ∑ i ∈ Finset.range (total (parts.map Prod.snd)),
      stackCoeff parts r i * stackCoeff parts c i := by
  have hzero : (Vec.scale 0 y).getD r 0 = (0 : ℝ) := by
    have hv := vec_scale m 0 y
    have hr' := congrArg (fun u => u ⟨r, hr⟩) hv
    rwa [vec_apply, PiLp.smul_apply, smul_eq_mul, zero_mul] at hr'
  rw [addGram?_getD h (by simp [unit]) (by simp [hy]) hz hr, hzero, zero_add]
  refine Finset.sum_congr rfl fun i _ => ?_
  congr 1
  rw [Finset.sum_eq_single_of_mem c (Finset.mem_range.mpr hc), getD_unit hc, if_pos rfl, mul_one]
  intro k hk hkc
  rw [getD_unit (Finset.mem_range.mp hk), if_neg hkc, mul_zero]

theorem gramColumns?_getD {parts : List (Operator ℝ × ℕ)} {m : ℕ} (h : PartsLinear parts m)
    {left c : ℕ} {l : Array ℝ} {cols cols' : Array (Array ℝ)} (hl : l.size = m)
    (hc : c + left ≤ m) (hz : gramColumns? parts m left c l cols = some cols') :
    (∀ j < cols.size, cols'.getD j #[] = cols.getD j #[]) ∧
      ∀ j < left, ∀ r < m, (cols'.getD (cols.size + j) #[]).getD r 0 =
        ∑ i ∈ Finset.range (total (parts.map Prod.snd)),
          stackCoeff parts r i * stackCoeff parts (c + j) i := by
  -- the columns so far stay as they are, and the next one is pushed behind them
  induction left generalizing c l cols with
  | zero =>
    cases hz
    exact ⟨fun _ _ => rfl, fun j hj => absurd hj (Nat.not_lt_zero j)⟩
  | succ left ih =>
    obtain ⟨col, hcol, hs⟩ := addGram?_total h.fit (e := unit m c) (y := Vec.scale 0 l)
      (by simp [unit]) (by simp [hl])
    have hrest : gramColumns? parts m left (c + 1) col (cols.push col) = some cols' := by
      simpa [gramColumns?, hcol] using hz
    obtain ⟨hold, hnew⟩ := ih hs (by omega) hrest
    rw [Array.size_push] at hold hnew
    constructor
    · intro j hj
      rw [hold j (by omega)]
      simp [Array.getD, hj, Nat.lt_succ_of_lt hj, Array.getElem_push_lt]
    · intro j hj r hr
      cases j with
      | zero =>
        rw [Nat.add_zero, Nat.add_zero, hold _ (Nat.lt_succ_self _), getD_push_size rfl]
        exact addGram?_unit h hl (by omega) hr hcol
      | succ j =>
        have hj' := hnew j (by omega) r hr
        rw [show cols.size + 1 + j = cols.size + (j + 1) by omega,
          show c + 1 + j = c + (j + 1) by omega] at hj'
        exact hj'

theorem gram?_entry {parts : List (Operator ℝ × ℕ)} {m : ℕ} (h : PartsLinear parts m)
    {gram : Matrix ℝ} (hg : gram? parts m = some gram) {r c : ℕ} (hr : r < m) (hc : c < m) :
    gram.entry r c = ∑ i ∈ Finset.range (total (parts.map Prod.snd)),
      stackCoeff parts r i * stackCoeff parts c i := by
  obtain ⟨cols, hcols, hg⟩ := Option.bind_eq_some_iff.mp hg
  obtain ⟨-, hnew⟩ := gramColumns?_getD h (by simp) (by omega) hcols
  cases hg
  have hcell : ∀ r < m, ∀ c < m, (cols.getD c #[]).getD r 0 =
      ∑ i ∈ Finset.range (total (parts.map Prod.snd)),
        stackCoeff parts r i * stackCoeff parts c i := by
    intro r hr c hc
    have hcol := hnew c hc r hr
    simpa only [Array.size_empty, Nat.zero_add] using hcol
  rw [Matrix.entry_ofFn_packed ?_ hr hc, hcell r hr c hc]
  rw [hcell r hr c hc, hcell c hc r hr]
  exact Finset.sum_congr rfl fun i _ => mul_comm _ _

theorem gram?_linear {parts : List (Operator ℝ × ℕ)} {m n : ℕ} (h : PartsLinear parts m)
    (hn : total (parts.map Prod.snd) = n) {gram : Matrix ℝ} (hg : gram? parts m = some gram) :
    linearOf m m gram.entry =
      linearOf n m (stackCoeff parts) ∘ₗ adjoint (linearOf n m (stackCoeff parts)) := by
  rw [adjoint_linearOf]
  refine LinearMap.ext fun x => ?_
  ext r
  simp only [LinearMap.comp_apply, linearOf_apply, Finset.mul_sum]
  rw [Finset.sum_comm]
  refine Finset.sum_congr rfl fun c _ => ?_
  rw [gram?_entry h hg r.isLt c.isLt, hn, Finset.sum_mul,
    ← Fin.sum_univ_eq_sum_range (fun i => stackCoeff parts r i * stackCoeff parts c i * x c)]
  exact Finset.sum_congr rfl fun i _ => by ring

/-! ## Inverting on the range -/

section Range

variable {E G : Type} [NormedAddCommGroup E] [InnerProductSpace ℝ E] [FiniteDimensional ℝ E]
  [NormedAddCommGroup G] [InnerProductSpace ℝ G] [FiniteDimensional ℝ G]

theorem isSymmetric_gram (a : E →ₗ[ℝ] G) : (a ∘ₗ adjoint a).IsSymmetric := by
  intro x y
  rw [LinearMap.comp_apply, LinearMap.comp_apply, ← LinearMap.adjoint_inner_right,
    LinearMap.adjoint_inner_left]

theorem eigenvalue_gram_nonneg (a : E →ₗ[ℝ] G) {e : ℝ} {x : G} (hx : x ≠ 0)
    (h : a (adjoint a x) = e • x) : 0 ≤ e := by
  have hpos : 0 < ‖x‖ ^ 2 := by positivity
  have hsq : e * ‖x‖ ^ 2 = ‖adjoint a x‖ ^ 2 := by
    rw [← real_inner_self_eq_norm_sq, ← real_inner_self_eq_norm_sq, ← real_inner_smul_left, ← h,
      ← LinearMap.adjoint_inner_right]
  have hnn : 0 ≤ e * ‖x‖ ^ 2 := by rw [hsq]; positivity
  exact nonneg_of_mul_nonneg_left hnn hpos

/-- The laws of Moore and Penrose. -/
structure IsPseudoInverse (t w : G →ₗ[ℝ] G) : Prop where
  comp_comp : t ∘ₗ w ∘ₗ t = t
  comp_comp_self : w ∘ₗ t ∘ₗ w = w
  symmetric_left : (w ∘ₗ t).IsSymmetric
  symmetric_right : (t ∘ₗ w).IsSymmetric

theorem isSymmetric_of_basis {ι : Type} [Fintype ι] (b : OrthonormalBasis ι ℝ G) {t : G →ₗ[ℝ] G}
    {c : ι → ℝ} (h : ∀ i, t (b i) = c i • b i) : t.IsSymmetric := by
  classical
  have hadj : t = adjoint t := by
    refine (LinearMap.eq_adjoint_iff_basis b.toBasis b.toBasis t t).mpr fun i j => ?_
    rw [OrthonormalBasis.coe_toBasis, h i, h j, real_inner_smul_left, real_inner_smul_right,
      b.inner_eq_ite]
    split
    · rename_i hij
      rw [hij]
    · rw [mul_zero, mul_zero]
  intro x y
  rw [← LinearMap.adjoint_inner_left, ← hadj]

section Eigenvalues

variable {t w : G →ₗ[ℝ] G} (ht : t.IsSymmetric) (f : ℝ → ℝ)
  (hw : ∀ e x, t x = e • x → w x = f e • x)
include ht hw

theorem isSymmetric_of_eigenvalues : w.IsSymmetric :=
  isSymmetric_of_basis (ht.eigenvectorBasis rfl) fun i =>
    hw _ _ (ht.apply_eigenvectorBasis rfl i)

theorem comp_comp_self_of_eigenvalues (hself : ∀ e, f e * e * f e = f e) : w ∘ₗ t ∘ₗ w = w := by
  refine (ht.eigenvectorBasis rfl).toBasis.ext fun i => ?_
  have hb := ht.apply_eigenvectorBasis rfl i
  simp only [OrthonormalBasis.coe_toBasis, LinearMap.comp_apply, hb, hw _ _ hb, map_smul, smul_smul]
  rw [hself]

theorem isPseudoInverse_of_eigenvalues (hself : ∀ e, f e * e * f e = f e)
    (hf : ∀ e x, x ≠ 0 → t x = e • x → f e * e * e = e) : IsPseudoInverse t w := by
  set b := ht.eigenvectorBasis rfl
  set e := ht.eigenvalues rfl
  have hb : ∀ i, t (b i) = e i • b i := fun i => ht.apply_eigenvectorBasis rfl i
  have hwb : ∀ i, w (b i) = f (e i) • b i := fun i => hw _ _ (hb i)
  refine ⟨?_, comp_comp_self_of_eigenvalues ht f hw hself, ?_, ?_⟩
  · refine b.toBasis.ext fun i => ?_
    simp only [OrthonormalBasis.coe_toBasis, LinearMap.comp_apply, hb, hwb, map_smul, smul_smul]
    rw [show e i * f (e i) * e i = e i by linarith [hf _ _ (b.orthonormal.ne_zero i) (hb i)]]
  · refine isSymmetric_of_basis b (c := fun i => e i * f (e i)) fun i => ?_
    rw [LinearMap.comp_apply, hb, map_smul, hwb, smul_smul]
  · refine isSymmetric_of_basis b (c := fun i => f (e i) * e i) fun i => ?_
    rw [LinearMap.comp_apply, hwb, map_smul, hb, smul_smul]

end Eigenvalues

omit [FiniteDimensional ℝ G] in
theorem IsPseudoInverse.unique {t w w' : G →ₗ[ℝ] G} (h : IsPseudoInverse t w)
    (h' : IsPseudoInverse t w') : w = w' := by
  have hleft : w ∘ₗ t = w' ∘ₗ t := by
    refine LinearMap.ext fun x => ext_inner_right ℝ fun y => ?_
    have hx : (w ∘ₗ t) x = (w ∘ₗ t) ((w' ∘ₗ t) x) :=
      congrArg w (LinearMap.congr_fun h'.comp_comp x).symm
    have hy : (w' ∘ₗ t) y = (w' ∘ₗ t) ((w ∘ₗ t) y) :=
      congrArg w' (LinearMap.congr_fun h.comp_comp y).symm
    rw [hx, h.symmetric_left, h'.symmetric_left, ← hy, ← h'.symmetric_left]
  have hright : t ∘ₗ w = t ∘ₗ w' := by
    refine LinearMap.ext fun x => ext_inner_right ℝ fun y => ?_
    have hx : (t ∘ₗ w') x = (t ∘ₗ w) ((t ∘ₗ w') x) :=
      (LinearMap.congr_fun h.comp_comp (w' x)).symm
    have hy : (t ∘ₗ w) y = (t ∘ₗ w') ((t ∘ₗ w) y) :=
      (LinearMap.congr_fun h'.comp_comp (w y)).symm
    rw [h.symmetric_right, hy, ← h'.symmetric_right, ← h.symmetric_right, ← hx]
  calc w = (w ∘ₗ t) ∘ₗ w := h.comp_comp_self.symm
    _ = w' ∘ₗ t ∘ₗ w := by rw [hleft, LinearMap.comp_assoc]
    _ = w' := by rw [hright, h'.comp_comp_self]

theorem IsPseudoInverse.apply_range {a : E →ₗ[ℝ] G} {w : G →ₗ[ℝ] G}
    (h : IsPseudoInverse (a ∘ₗ adjoint a) w) (u : E) : a (adjoint a (w (a u))) = a u := by
  have hsymm := isSymmetric_gram a
  have hright : ∀ z, a (adjoint a (a (adjoint a (w z)))) = a (adjoint a z) := by
    intro z
    refine ext_inner_right ℝ fun y => ?_
    calc inner ℝ (a (adjoint a (a (adjoint a (w z))))) y
        = inner ℝ (a (adjoint a (w z))) (a (adjoint a y)) := hsymm _ y
      _ = inner ℝ z (a (adjoint a (w (a (adjoint a y))))) := h.symmetric_right z _
      _ = inner ℝ z (a (adjoint a y)) := by
        exact congrArg _ (LinearMap.congr_fun h.comp_comp y)
      _ = inner ℝ (a (adjoint a z)) y := (hsymm z y).symm
  -- the error of the inverse is in the kernel of `Aᵀ`, and in the range of `A`
  set e := a u - a (adjoint a (w (a u))) with he
  have hker : a (adjoint a e) = 0 := by
    rw [he, map_sub, map_sub, hright, sub_self]
  have hadj : adjoint a e = 0 := by
    rw [← inner_self_eq_zero (𝕜 := ℝ), LinearMap.adjoint_inner_left, hker, inner_zero_right]
  have hzero : inner ℝ e e = 0 := by
    nth_rewrite 2 [he]
    rw [← map_sub, ← LinearMap.adjoint_inner_left, hadj, inner_zero_left]
  exact (sub_eq_zero.mp (inner_self_eq_zero.mp hzero)).symm

end Range

/-! ## Exact eigenvalues -/

/-- No positive eigenvalue of the Gram matrix counts as zero. -/
def CutoffClear (epsZero : ℝ) (gram : Matrix ℝ) (m : ℕ) : Prop :=
  ∀ e x, x ≠ 0 → linearOf m m gram.entry x = e • x → 0 < e → cutoff epsZero gram < e

/-- The weight inverts `A Aᵀ` on the range of `A`. -/
def Reproduces (p : Projection ℝ) (n : ℕ) : Prop :=
  ∀ u, p.coupling n (p.transposed n (p.weight (p.coupling n u))) = p.coupling n u

theorem cutoff_nonneg {epsZero : ℝ} (h : 0 ≤ epsZero) (gram : Matrix ℝ) :
    0 ≤ cutoff epsZero gram := by
  have hmax : (0 : ℝ) ≤ max gram.trace 1 := le_max_of_le_right zero_le_one
  have hrows : (0 : ℝ) ≤ (gram.rows : ℝ) := Nat.cast_nonneg _
  exact mul_nonneg (mul_nonneg h hmax) hrows

theorem cutoffClear_zero (gram : Matrix ℝ) (m : ℕ) : CutoffClear 0 gram m := by
  intro e x _ _ he
  have hzero : cutoff 0 gram = 0 := by
    show 0 * max gram.trace 1 * (gram.rows : ℝ) = 0
    rw [zero_mul, zero_mul]
  rw [hzero]
  exact he

theorem cutoffRecip_mul {tol e : ℝ} (htol : 0 ≤ tol) (he : 0 ≤ e) (hclear : 0 < e → tol < e) :
    cutoffRecip tol e * e * e = e := by
  unfold cutoffRecip
  split
  · rename_i h
    have hne : e ≠ 0 := (lt_of_le_of_lt htol h).ne'
    show 1 / e * e * e = e
    rw [one_div_mul_cancel hne, one_mul]
  · rename_i h
    have hzero : e = 0 := le_antisymm (not_lt.mp fun hpos => h (hclear hpos)) he
    rw [hzero, mul_zero]

theorem cutoffRecip_mul_self {tol : ℝ} (htol : 0 ≤ tol) (e : ℝ) :
    cutoffRecip tol e * e * cutoffRecip tol e = cutoffRecip tol e := by
  unfold cutoffRecip
  split
  · rename_i h
    show 1 / e * e * (1 / e) = 1 / e
    rw [one_div_mul_cancel (lt_of_le_of_lt htol h).ne', one_mul]
  · rw [mul_zero]

variable [Spectral ℝ]

theorem gram?_of_active {gs : List (Operator ℝ)} {dims : List ℕ} {rhs : Array ℝ} {epsZero : ℝ}
    {p : Projection ℝ} (hp : ofCouplings? gs dims rhs epsZero = some p) (ha : p.active = true) :
    ∃ gram, gram? (gs.zip dims) rhs.size = some gram ∧
      p = ⟨gs.zip dims, rhs, pseudoInverse epsZero gram⟩ := by
  unfold ofCouplings? at hp
  dsimp only at hp
  split at hp
  · rename_i h0
    cases hp
    simp only [active, Bool.and_eq_true, decide_eq_true_eq, Bool.not_eq_true'] at ha
    rcases h0 with h0 | h0
    · rw [h0] at ha
      cases ha.2
    · omega
  · obtain ⟨gram, hg, hp⟩ := Option.bind_eq_some_iff.mp hp
    cases hp
    exact ⟨gram, hg, rfl⟩

theorem weight_of_eigenvector (hexact : ExactSpectrum) {gs : List (Operator ℝ)} {dims : List ℕ}
    {rhs : Array ℝ} {epsZero : ℝ} {p : Projection ℝ} {n : ℕ} (hlin : p.Linear n)
    (hp : ofCouplings? gs dims rhs epsZero = some p) (ha : p.active = true) :
    ∃ gram, gram? (gs.zip dims) rhs.size = some gram ∧
      p = ⟨gs.zip dims, rhs, pseudoInverse epsZero gram⟩ ∧
      linearOf p.rhs.size p.rhs.size gram.entry = p.coupling n ∘ₗ adjoint (p.coupling n) ∧
      ∀ e x, (p.coupling n ∘ₗ adjoint (p.coupling n)) x = e • x →
        p.weight x = cutoffRecip (cutoff epsZero gram) e • x := by
  obtain ⟨gram, hg, rfl⟩ := gram?_of_active hp ha
  have hgram := gram?_linear hlin.linear (hlin.total ha) hg
  have hshape : gram.shape = .packed rhs.size := by
    obtain ⟨gram', hg', hs⟩ := gram?_total hlin.parts
    rw [hg] at hg'
    cases hg'
    exact hs
  refine ⟨gram, hg, rfl, hgram, fun e x hx => hexact _ gram hshape _ _ e x ?_⟩
  rw [hgram]
  exact hx

theorem isPseudoInverse_weight (hexact : ExactSpectrum) {gs : List (Operator ℝ)} {dims : List ℕ}
    {rhs : Array ℝ} {epsZero : ℝ} (hzero : 0 ≤ epsZero) {p : Projection ℝ} {n : ℕ}
    (hlin : p.Linear n) (hp : ofCouplings? gs dims rhs epsZero = some p)
    (hclear : ∀ gram, gram? (gs.zip dims) rhs.size = some gram →
      CutoffClear epsZero gram rhs.size) :
    IsPseudoInverse (p.coupling n ∘ₗ adjoint (p.coupling n)) p.weight := by
  cases ha : p.active with
  | false =>
    have := hlin.subsingleton ha
    have hsymm : ∀ t : EuclideanSpace ℝ (Fin p.rhs.size) →ₗ[ℝ] EuclideanSpace ℝ (Fin p.rhs.size),
        t.IsSymmetric := fun t x y => by
      rw [Subsingleton.elim x 0, map_zero, inner_zero_left, inner_zero_left]
    exact ⟨Subsingleton.elim _ _, Subsingleton.elim _ _, hsymm _, hsymm _⟩
  | true =>
    obtain ⟨gram, hg, rfl, hgram, hweight⟩ := weight_of_eigenvector hexact hlin hp ha
    have htol := cutoff_nonneg hzero gram
    refine isPseudoInverse_of_eigenvalues (isSymmetric_gram _) _ hweight
      (cutoffRecip_mul_self htol) fun e x hx he => ?_
    refine cutoffRecip_mul htol (eigenvalue_gram_nonneg (coupling _ n) hx he) fun hpos => ?_
    refine hclear gram hg e x hx ?_ hpos
    rw [hgram]
    exact he

theorem reproduces_of_exact (hexact : ExactSpectrum) {gs : List (Operator ℝ)} {dims : List ℕ}
    {rhs : Array ℝ} {epsZero : ℝ} (hzero : 0 ≤ epsZero) {p : Projection ℝ} {n : ℕ}
    (hlin : p.Linear n) (hp : ofCouplings? gs dims rhs epsZero = some p)
    (hclear : ∀ gram, gram? (gs.zip dims) rhs.size = some gram →
      CutoffClear epsZero gram rhs.size) : p.Reproduces n := by
  intro u
  rw [← adjoint_coupling]
  exact (isPseudoInverse_weight hexact hzero hlin hp hclear).apply_range u

end Projection

end Splitting
