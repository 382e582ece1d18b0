import Splitting.Proofs.Real.Definite
import Splitting.Proofs.Real.Feasible

/-!
# Generated covariance instances

The diagonal of the precision that is drawn exceeds the other magnitudes of its row by a half, so in
exact arithmetic no eigenvalue is below a half. Its inverse square root exists then, and what it
makes of the normal samples has the sample covariance that is stored.
-/

namespace Splitting

/-! ## Entries -/

theorem Matrix.entry_scale (a : ℝ) (m : Matrix ℝ) (r c : ℕ) :
    (m.scale a).entry r c = a * m.entry r c := Matrix.entry_mapEntries (mul_zero a) m r c

theorem squareOf_zeros (n : ℕ) :
    squareOf n (Matrix.zeros (.packed n) : Matrix ℝ).entry = 0 := by
  ext r c
  simp [squareOf, Matrix.entry, Matrix.zeros, Vec.zeros, Array.getD]

namespace Covariance

/-! ## The diagonal in place -/

section InPlace

variable {F : Type} [Scalar F] {n : ℕ} {m : Matrix F}

/-- The diagonal written one entry after the other, each from the row sums of what is there. -/
def filledDiagonal (m : Matrix F) (n : ℕ) : Matrix F :=
  (List.range n).foldl (fun m i => m.put i i (offDiagonalSum m i + 1 / Scalar.two)) m

theorem offDiagonalSum_put (hm : m.shape = .packed n) {k i : ℕ} (hk : k < n) (hi : i < n) (x : F) :
    offDiagonalSum (m.put k k x) i = offDiagonalSum m i := by
  have hcols : m.cols = n := congrArg Shape.cols hm
  refine Vec.fold_congr m.cols (fun j hj s => ?_) 0
  split
  · rfl
  · rename_i hji
    have hplace : m.shape.position k k ≠ m.shape.position i j := by
      rw [hm]
      exact Shape.position_diagonal_ne hk hi (hcols ▸ hj) (Ne.symm hji)
    rw [Matrix.entry_put_of_ne hplace]

theorem foldl_put_diagonal {l : List ℕ} (hl : ∀ i ∈ l, i < n) {s : ℕ → F}
    (hm : m.shape = .packed n) (hs : ∀ i < n, offDiagonalSum m i = s i) :
    l.foldl (fun m i => m.put i i (offDiagonalSum m i + 1 / Scalar.two)) m =
      (l.map fun i => (i, i)).foldl
        (fun m p => m.put p.1 p.2 (s p.1 + 1 / Scalar.two)) m := by
  induction l generalizing m with
  | nil => rfl
  | cons i l ih =>
    have hi := hl i List.mem_cons_self
    rw [List.foldl_cons, List.map_cons, List.foldl_cons, hs i hi]
    exact ih (fun j hj => hl j (List.mem_cons_of_mem i hj)) hm
      fun j hj => (offDiagonalSum_put hm hi hj _).trans (hs j hj)

/-- The diagonal comes out as if it had been written into a matrix of its own. -/
theorem filledDiagonal_eq_dominant (hm : m.shape = .packed n) :
    filledDiagonal m n = dominant m := by
  let exceeding (r _c : ℕ) : F := offDiagonalSum m r + 1 / Scalar.two
  let diagonal := (List.range n).map fun i => (i, i)
  have hdiagonal : ∀ p ∈ diagonal, ∃ i < n, (i, i) = p := by
    intro p hp
    obtain ⟨i, hi, rfl⟩ := List.mem_map.mp hp
    exact ⟨i, List.mem_range.mp hi, rfl⟩
  have hshape := Matrix.shape_foldl_put exceeding diagonal m
  rw [filledDiagonal, foldl_put_diagonal (fun i hi => List.mem_range.mp hi) hm fun i _ => rfl]
  refine Matrix.eq_of_getElem? (hshape.trans (Matrix.shape_refill _ m).symm) fun r c hcell => ?_
  rw [hshape] at hcell ⊢
  have hdominant : (dominant m).entries[m.shape.position r c]? =
      some (if r = c then exceeding r c else m.entry r c) :=
    Matrix.getElem?_foldl_put (q := (r, c))
      (fun r c => if r = c then exceeding r c else m.entry r c) (fun _ h => h) hcell
  rw [hdominant]
  obtain ⟨hrc, hc⟩ := Shape.mem_cells_packed.mp (hm ▸ hcell)
  by_cases heq : r = c
  · subst heq
    rw [if_pos rfl]
    refine Matrix.getElem?_foldl_put exceeding (q := (r, r)) (fun p hp => ?_)
      (List.mem_map.mpr ⟨r, List.mem_range.mpr hc, rfl⟩)
    obtain ⟨i, hi, rfl⟩ := hdiagonal p hp
    rw [hm]
    exact Shape.mem_cells_packed.mpr ⟨le_rfl, hi⟩
  · rw [if_neg heq, ← Matrix.getElem?_position hcell]
    refine Matrix.getElem?_foldl_put_of_ne exceeding fun p hp => ?_
    obtain ⟨i, hi, rfl⟩ := hdiagonal p hp
    rw [hm]
    exact Shape.position_diagonal_ne hi (hrc.trans_lt hc) hc heq

end InPlace

end Covariance

/-! ## Dominance -/

section Dominance

variable {n : ℕ} {a : ℕ → ℕ → ℝ} {gap : ℝ}

def DiagonalExceeds (n : ℕ) (gap : ℝ) (a : ℕ → ℕ → ℝ) : Prop :=
  ∀ i < n, a i i = ∑ j ∈ (Finset.range n).erase i, |a i j| + gap

theorem sum_erase_eq {i : ℕ} (hi : i < n) (f : ℕ → ℝ) :
    ∑ j ∈ (Finset.range n).erase i, f j = ∑ j : Fin n, if i = j then 0 else f j := by
  rw [Fin.sum_univ_eq_sum_range fun j => if i = j then 0 else f j,
    ← Finset.add_sum_erase _ _ (Finset.mem_range.mpr hi), if_pos rfl, zero_add]
  exact Finset.sum_congr rfl fun j hj => (if_neg (Finset.ne_of_mem_erase hj).symm).symm

theorem pair_bound (b u v : ℝ) : -(|b| * (u ^ 2 + v ^ 2) / 2) ≤ u * (b * v) := by
  have hb := abs_le.mp (le_refl |b|)
  nlinarith [mul_nonneg (sub_nonneg.mpr hb.2) (sq_nonneg (u - v)),
    mul_nonneg (by linarith : 0 ≤ |b| + b) (sq_nonneg (u + v))]

theorem sum_halves {b : Fin n → Fin n → ℝ} (hb : ∀ i j, b i j = b j i) (u : Fin n → ℝ) :
    ∑ i, ∑ j, b i j * (u i + u j) / 2 = ∑ i, (∑ j, b i j) * u i := by
  have hswap : ∑ i, ∑ j, b i j * u j = ∑ i, ∑ j, b i j * u i := by
    rw [Finset.sum_comm]
    exact Finset.sum_congr rfl fun i _ => Finset.sum_congr rfl fun j _ => by rw [hb]
  simp only [mul_add, add_div, Finset.sum_add_distrib, ← Finset.sum_div, hswap, Finset.sum_mul,
    add_halves]

theorem DiagonalExceeds.le_inner (h : DiagonalExceeds n gap a) (ha : ∀ r c, a r c = a c r)
    (x : EuclideanSpace ℝ (Fin n)) : gap * ‖x‖ ^ 2 ≤ inner ℝ x (linearOf n n a x) := by
  let b (i j : Fin n) : ℝ := if (i : ℕ) = j then 0 else |a i j|
  have hb : ∀ i j, b i j = b j i := fun i j => by simp only [b, ha i j, eq_comm]
  have hterm : ∀ i j : Fin n,
      (if i = j then a i i * x i ^ 2 else 0) - b i j * (x i ^ 2 + x j ^ 2) / 2 ≤
        x i * (a i j * x j) := by
    intro i j
    by_cases hij : i = j
    · subst hij
      simp only [b, if_pos, zero_mul, zero_div, sub_zero]
      linarith
    · simp only [b, if_neg hij, if_neg (Fin.val_ne_of_ne hij), zero_sub]
      exact pair_bound (a i j) (x i) (x j)
  calc gap * ‖x‖ ^ 2
      = ∑ i : Fin n, (a i i * x i ^ 2 - (∑ j, b i j) * x i ^ 2) := by
        rw [EuclideanSpace.norm_sq_eq, Finset.mul_sum]
        refine Finset.sum_congr rfl fun i _ => ?_
        rw [h i i.isLt, sum_erase_eq i.isLt, Real.norm_eq_abs, sq_abs]
        ring
    _ = ∑ i : Fin n, ∑ j : Fin n, ((if i = j then a i i * x i ^ 2 else 0) -
          b i j * (x i ^ 2 + x j ^ 2) / 2) := by
        simp only [Finset.sum_sub_distrib, sum_halves hb fun i => x i ^ 2, Finset.sum_ite_eq,
          Finset.mem_univ, if_true]
    _ ≤ ∑ i : Fin n, ∑ j : Fin n, x i * (a i j * x j) :=
        Finset.sum_le_sum fun i _ => Finset.sum_le_sum fun j _ => hterm i j
    _ = inner ℝ x (linearOf n n a x) := by
        rw [inner_eq_sum]
        exact Finset.sum_congr rfl fun i _ => by rw [linearOf_apply, Finset.mul_sum]

theorem DiagonalExceeds.le_eigenvalue (h : DiagonalExceeds n gap a) (ha : ∀ r c, a r c = a c r)
    {e : ℝ} {x : EuclideanSpace ℝ (Fin n)} (hx : x ≠ 0) (he : linearOf n n a x = e • x) :
    gap ≤ e := by
  have hle := h.le_inner ha x
  rw [he, real_inner_smul_right, real_inner_self_eq_norm_sq] at hle
  exact le_of_mul_le_mul_right hle (by positivity)

end Dominance

namespace Covariance

/-! ## The precision -/

theorem dominant_comm {n : ℕ} {m : Matrix ℝ} (hm : m.shape = .packed n) (r c : ℕ) :
    (dominant m).entry r c = (dominant m).entry c r :=
  Matrix.entry_comm ((Matrix.shape_refill _ m).trans hm) r c

theorem offDiagonalSum_eq {n i : ℕ} {m : Matrix ℝ} (hm : m.shape = .packed n) (hi : i < n) :
    offDiagonalSum m i = ∑ j ∈ (Finset.range n).erase i, |m.entry i j| := by
  have hcols : m.cols = n := congrArg Shape.cols hm
  have hbelow : offDiagonalSum m i =
      Vec.sumBelow m.cols fun j => if i = j then 0 else |m.entry i j| := by
    refine Vec.fold_congr m.cols (fun j _ s => ?_) 0
    beta_reduce
    by_cases hij : i = j
    · rw [if_pos hij.symm, if_pos hij, add_zero]
    · rw [if_neg (Ne.symm hij), if_neg hij]
      rfl
  rw [hbelow, sumBelow_eq, hcols, sum_erase_eq hi, Finset.sum_range]

theorem entry_dominant {n r c : ℕ} {m : Matrix ℝ} (hm : m.shape = .packed n) (hr : r < n)
    (hc : c < n) : (dominant m).entry r c =
      if r = c then offDiagonalSum m r + 1 / 2 else m.entry r c := by
  have htwo : (Scalar.two : ℝ) = 2 := one_add_one_eq_two
  rw [dominant, Matrix.refill_eq_ofFn, hm, Matrix.entry_ofFn_packed _ hr hc, htwo]
  by_cases hrc : r = c
  · subst hrc
    rfl
  · rw [if_neg hrc, if_neg (Ne.symm hrc), Matrix.entry_comm hm]

theorem diagonalExceeds_dominant {n : ℕ} {m : Matrix ℝ} (hm : m.shape = .packed n) :
    DiagonalExceeds n (1 / 2) (dominant m).entry := by
  intro i hi
  rw [entry_dominant hm hi hi, if_pos rfl, offDiagonalSum_eq hm hi]
  congr 1
  refine Finset.sum_congr rfl fun j hj => ?_
  obtain ⟨hji, hj⟩ := Finset.mem_erase.mp hj
  rw [entry_dominant hm hi (Finset.mem_range.mp hj), if_neg hji.symm]

/-! ## The inverse root -/

theorem recipSqrt_of_pos {e : ℝ} (he : 0 < e) : recipSqrt e = (√e)⁻¹ :=
  (if_pos he).trans (one_div _)

section InverseRoot

variable {n : ℕ} {s : Matrix ℝ} (hs : s.shape = .packed n)
  (hpos : ∀ (e : ℝ) (x : EuclideanSpace ℝ (Fin n)), x ≠ 0 → linearOf n n s.entry x = e • x → 0 < e)

include hs hpos

theorem ext_of_eigenvectors {f g : EuclideanSpace ℝ (Fin n) →ₗ[ℝ] EuclideanSpace ℝ (Fin n)}
    (h : ∀ (e : ℝ) x, 0 < e → linearOf n n s.entry x = e • x → f x = g x) : f = g := by
  have hsymm : (linearOf n n s.entry).IsSymmetric := isSymmetric_linearOf (Matrix.entry_comm hs)
  set b := hsymm.eigenvectorBasis finrank_euclideanSpace_fin
  have hb : ∀ i, linearOf n n s.entry (b i) =
      hsymm.eigenvalues finrank_euclideanSpace_fin i • b i :=
    fun i => hsymm.apply_eigenvectorBasis finrank_euclideanSpace_fin i
  refine b.toBasis.ext fun i => ?_
  rw [OrthonormalBasis.coe_toBasis]
  exact h _ _ (hpos _ _ (b.orthonormal.ne_zero i) (hb i)) (hb i)

variable [Spectral ℝ] (hexact : ExactSpectrum) (eps : ℝ)

include hexact

theorem entry_mapEig_congr {f g : ℝ → ℝ} (hfg : ∀ e, 0 < e → f e = g e) {r c : ℕ} (hr : r < n)
    (hc : c < n) : (Spectral.mapEig s eps f).entry r c = (Spectral.mapEig s eps g).entry r c := by
  have hsame : linearOf n n (Spectral.mapEig s eps f).entry =
      linearOf n n (Spectral.mapEig s eps g).entry := by
    refine ext_of_eigenvectors hs hpos fun e x he hx => ?_
    rw [hexact n s hs eps f e x hx, hexact n s hs eps g e x hx, hfg e he]
  have hentry := congrArg (fun u => u (EuclideanSpace.single ⟨c, hc⟩ 1) ⟨r, hr⟩) hsame
  simpa only [linearOf_single] using hentry

theorem squareOf_inverseRoot :
    squareOf n (Spectral.mapEig s eps recipSqrt).entry * squareOf n s.entry *
      squareOf n (Spectral.mapEig s eps recipSqrt).entry = 1 := by
  set r := (Spectral.mapEig s eps recipSqrt).entry
  have hid : linearOf n n r ∘ₗ linearOf n n s.entry ∘ₗ linearOf n n r = LinearMap.id := by
    refine ext_of_eigenvectors hs hpos fun e x he hx => ?_
    have hr : linearOf n n r x = (√e)⁻¹ • x := by
      rw [hexact n s hs eps recipSqrt e x hx, recipSqrt_of_pos he]
    have hone : (√e)⁻¹ * e * (√e)⁻¹ = 1 := by
      have hroot := (Real.sqrt_pos.mpr he).ne'
      field_simp
      exact (Real.sq_sqrt he.le).symm
    simp only [LinearMap.comp_apply, hr, map_smul, hx, smul_smul]
    rw [hone, one_smul, LinearMap.id_apply]
  refine Matrix.ext_of_mulVec_single fun c => ?_
  rw [← Matrix.mulVec_mulVec, ← Matrix.mulVec_mulVec, Matrix.one_mulVec]
  exact congrArg WithLp.ofLp (LinearMap.congr_fun hid (EuclideanSpace.single c 1))

end InverseRoot

/-! ## The samples -/

def drawSamples {γ F : Type} (src : Random.Source γ F) (n : ℕ) : ℕ → γ → List (Array F) × γ
  | 0, g => ([], g)
  | k + 1, g =>
    let (z, g) := Random.Source.many src.normal n g
    let (zs, g) := drawSamples src n k g
    (z :: zs, g)

theorem drawSamples_spec {γ F : Type} (src : Random.Source γ F) (n k : ℕ) (g : γ) :
    (drawSamples src n k g).1.length = k ∧ ∀ z ∈ (drawSamples src n k g).1, z.size = n := by
  induction k generalizing g with
  | zero => exact ⟨rfl, fun z hz => absurd hz List.not_mem_nil⟩
  | succ k ih =>
    obtain ⟨hlen, hsize⟩ := ih (Random.Source.many src.normal n g).2
    refine ⟨congrArg (· + 1) hlen, fun z hz => ?_⟩
    rcases List.mem_cons.mp hz with rfl | hz
    · exact Random.Source.size_many n g
    · exact hsize z hz

noncomputable def spread (n : ℕ) (r : Matrix ℝ) (z : Array ℝ) :=
  Matrix.vecMulVec (linearOf n n r.entry (vec n z)).ofLp (linearOf n n r.entry (vec n z)).ofLp

theorem posSemidef_spread (n : ℕ) (r : Matrix ℝ) (z : Array ℝ) :
    Matrix.PosSemidef (spread n r z) :=
  Matrix.posSemidef_vecMulVec_self_star _

theorem posSemidef_sum_spread (n : ℕ) (r : Matrix ℝ) (zs : List (Array ℝ)) :
    Matrix.PosSemidef (zs.map (spread n r)).sum := by
  induction zs with
  | nil => exact Matrix.PosSemidef.zero
  | cons z zs ih => exact (posSemidef_spread n r z).add ih

theorem shape_addSquare (total : Matrix ℝ) (y : Array ℝ) :
    (addSquare total y).shape = total.shape := Matrix.shape_refill _ total

theorem squareOf_addSquare {n : ℕ} {total : Matrix ℝ} (ht : total.shape = .packed n)
    (y : Array ℝ) : squareOf n (addSquare total y).entry =
      squareOf n total.entry + Matrix.vecMulVec (vec n y).ofLp (vec n y).ofLp := by
  ext r c
  have hcomm : total.entry r c + y.getD r 0 * y.getD c 0 =
      total.entry c r + y.getD c 0 * y.getD r 0 := by
    rw [Matrix.entry_comm ht, mul_comm]
  rw [addSquare, Matrix.refill_eq_ofFn, ht]
  exact Matrix.entry_ofFn_packed hcomm r.isLt c.isLt

section Samples

variable {γ : Type} (src : Random.Source γ ℝ) {n : ℕ} {r : Matrix ℝ} (hr : r.shape = .packed n)

include hr

theorem addSamples?_spec (k : ℕ) {y : Array ℝ} (hy : y.size = n) {total : Matrix ℝ}
    (ht : total.shape = .packed n) (g : γ) :
    ∃ sum, addSamples? src r k y total g = some (sum, (drawSamples src n k g).2) ∧
      sum.shape = .packed n ∧ squareOf n sum.entry =
        squareOf n total.entry + ((drawSamples src n k g).1.map (spread n r)).sum := by
  have hrows : r.rows = n := congrArg Shape.rows hr
  have hcols : r.cols = n := congrArg Shape.cols hr
  induction k generalizing y total g with
  | zero => exact ⟨total, rfl, ht, (add_zero _).symm⟩
  | succ k ih =>
    set z := (Random.Source.many src.normal n g).1
    have hz : z.size = n := Random.Source.size_many n g
    obtain ⟨y', hy', hsize⟩ :=
      r.mulAdd?_total 1 0 (hz.trans hcols.symm) (hy.trans hrows.symm)
    have hvec : vec n y' = linearOf n n r.entry (vec n z) := by
      have hmul := Matrix.mulAdd?_vec (hy.trans hrows.symm) hy'
      rw [hrows, hcols, one_smul, zero_smul, add_zero] at hmul
      exact hmul
    obtain ⟨sum, hsum, hshape, heq⟩ := ih (hsize.trans hrows)
      ((shape_addSquare total y').trans ht)
      (Random.Source.many src.normal n g).2
    refine ⟨sum, ?_, hshape, ?_⟩
    · show (r.mulAdd? 1 (Random.Source.many src.normal r.rows g).1 0 y >>= fun y =>
        addSamples? src r k y (addSquare total y) (Random.Source.many src.normal r.rows g).2) = _
      rw [hrows, hy', Option.bind_eq_bind, Option.bind_some]
      exact hsum
    · rw [heq, squareOf_addSquare ht, hvec, add_assoc]
      rfl

end Samples

/-! ## The instance -/

/-- The packed matrix `q` is the average of `y yᵀ` over the samples `y = R z`. -/
structure IsAverage (n : ℕ) (r : Matrix ℝ) (zs : List (Array ℝ)) (q : Matrix ℝ) : Prop where
  shape : q.shape = .packed n
  average : squareOf n q.entry = (zs.length : ℝ)⁻¹ • (zs.map (spread n r)).sum
  posSemidef : Matrix.PosSemidef (squareOf n q.entry)

theorem isAverage_scale {n : ℕ} {r total : Matrix ℝ} {zs : List (Array ℝ)}
    (ht : total.shape = .packed n) (hsum : squareOf n total.entry = (zs.map (spread n r)).sum) :
    IsAverage n r zs (total.scale (Scalar.recip (Scalar.ofNat zs.length))) := by
  have haverage : squareOf n (total.scale (Scalar.recip (Scalar.ofNat zs.length))).entry =
      (zs.length : ℝ)⁻¹ • (zs.map (spread n r)).sum := by
    rw [← hsum]
    ext i j
    exact (Matrix.entry_scale _ _ _ _).trans (congrArg (· * _) (one_div _))
  refine ⟨ht, haverage, ?_⟩
  rw [haverage]
  exact (posSemidef_sum_spread n r zs).smul (by positivity)

/-- The precision `s` is definite by its diagonal, whatever is off it. -/
structure IsDominant (n : ℕ) (s : Matrix ℝ) : Prop where
  shape : s.shape = .packed n
  diagonal : ∀ i < n, s.entry i i = ∑ j ∈ (Finset.range n).erase i, |s.entry i j| + 1 / 2
  definite : ∀ x : EuclideanSpace ℝ (Fin n), 1 / 2 * ‖x‖ ^ 2 ≤ inner ℝ x (linearOf n n s.entry x)
  eigenvalue : ∀ (e : ℝ) (x : EuclideanSpace ℝ (Fin n)), x ≠ 0 → linearOf n n s.entry x = e • x →
    1 / 2 ≤ e

theorem isDominant_dominant {n : ℕ} {m : Matrix ℝ} (hm : m.shape = .packed n) :
    IsDominant n (dominant m) where
  shape := (Matrix.shape_refill _ m).trans hm
  diagonal := diagonalExceeds_dominant hm
  definite := (diagonalExceeds_dominant hm).le_inner (dominant_comm hm)
  eigenvalue _ _ := (diagonalExceeds_dominant hm).le_eigenvalue (dominant_comm hm)

/-- `R S R = 1`, and `R` is the same whatever the map makes of numbers that are not positive. -/
structure IsInverseRoot [Spectral ℝ] (n : ℕ) (eps : ℝ) (s r : Matrix ℝ) : Prop where
  shape : r.shape = .packed n
  inverse : squareOf n r.entry * squareOf n s.entry * squareOf n r.entry = 1
  fallback : ∀ f : ℝ → ℝ, (∀ e, 0 < e → f e = recipSqrt e) →
    ∀ i < n, ∀ j < n, (Spectral.mapEig s eps f).entry i j = r.entry i j

theorem IsDominant.isInverseRoot [Spectral ℝ] (hexact : ExactSpectrum) {n : ℕ} {s : Matrix ℝ}
    (h : IsDominant n s) (eps : ℝ) : IsInverseRoot n eps s (Spectral.mapEig s eps recipSqrt) := by
  have hpos : ∀ (e : ℝ) (x : EuclideanSpace ℝ (Fin n)), x ≠ 0 → linearOf n n s.entry x = e • x →
      0 < e := by
    intro e x hx he
    have := h.eigenvalue e x hx he
    linarith
  exact ⟨(Spectral.shape_mapEig ..).trans h.shape, squareOf_inverseRoot h.shape hpos hexact eps,
    fun f hf i hi j hj => entry_mapEig_congr h.shape hpos hexact eps hf hi hj⟩

theorem generate_eq {γ ε F : Type} [Scalar F] [Spectral F] {src : Random.Source γ F} {n : ℕ}
    {density : F} (hdensity : 0 ≤ density ∧ density ≤ 1) {samples : ℕ} (hsamples : 0 < samples)
    {epsZero : F} {w : World γ F} {total : Matrix F} {g : γ}
    (h : addSamples? src
      (Spectral.mapEig (dominant (drawOffDiagonal src n density w.state).1) epsZero recipSqrt)
      samples (Vec.zeros n) (Matrix.zeros (.packed n)) (drawOffDiagonal src n density w.state).2 =
        some (total, g)) :
    (generate src n density samples epsZero : Run γ F ε (Covariance F)) w =
      if (Shape.packed n).stored < Vec.sizeLimit then
        .ok ⟨total.scale (Scalar.recip (Scalar.ofNat samples)),
          some (dominant (drawOffDiagonal src n density w.state).1), epsZero⟩
          ((w.withState g).note (.generatedCovariance n samples))
      else .error .misuse w := by
  have hget : (get : Run γ F ε (World γ F)) w = .ok w w := rfl
  unfold generate
  simp only [Run.bind_apply, Run.require, if_pos hdensity, if_pos hsamples]
  by_cases hroom : (Shape.packed n).stored < Vec.sizeLimit
  · simp only [if_pos hroom, hget, h]
    rfl
  · simp only [if_neg hroom]

/-- Whatever is drawn, the precision of a generated instance is definite by its diagonal, which may
be written in place. The samples are drawn with its inverse root, and their average is stored. The
only instance that is not generated is one without room. -/
theorem generated_well_posed {γ ε : Type} [Spectral ℝ] (hexact : ExactSpectrum)
    (src : Random.Source γ ℝ) (n : ℕ) {density : ℝ} (hdensity : 0 ≤ density ∧ density ≤ 1)
    {samples : ℕ} (hsamples : 0 < samples) (epsZero : ℝ) (w : World γ ℝ) :
    ∃ p s r sparse g zs g',
      drawOffDiagonal src n density w.state = (sparse, g) ∧
      drawSamples src n samples g = (zs, g') ∧
      (generate src n density samples epsZero : Run γ ℝ ε (Covariance ℝ)) w =
        (if (Shape.packed n).stored < Vec.sizeLimit then
          .ok p ((w.withState g').note (.generatedCovariance n samples))
        else .error .misuse w) ∧
      p.truth = some s ∧ s = filledDiagonal sparse n ∧ IsDominant n s ∧
      IsInverseRoot n epsZero s r ∧
      zs.length = samples ∧ (∀ z ∈ zs, z.size = n) ∧ IsAverage n r zs p.sample := by
  set sparse := (drawOffDiagonal src n density w.state).1
  set g := (drawOffDiagonal src n density w.state).2
  have hsparse : sparse.shape = .packed n := rfl
  have hdominant := isDominant_dominant hsparse
  have hroot := hdominant.isInverseRoot hexact epsZero
  obtain ⟨hlen, hsize⟩ := drawSamples_spec src n samples g
  obtain ⟨total, htotal, hshape, hsum⟩ := addSamples?_spec src hroot.shape samples
    (Vec.size_zeros n) (rfl : (Matrix.zeros (.packed n)).shape = .packed n) g
  refine ⟨⟨total.scale (Scalar.recip (Scalar.ofNat samples)), some (dominant sparse), epsZero⟩,
    dominant sparse, _, sparse, g, _, _, rfl, rfl, ?_, rfl,
    (filledDiagonal_eq_dominant hsparse).symm, hdominant, hroot, hlen, hsize, ?_⟩
  · exact generate_eq hdensity hsamples htotal
  · rw [squareOf_zeros, zero_add] at hsum
    have hsample := isAverage_scale hshape hsum
    rwa [hlen] at hsample

theorem alternating_generated_well_posed :
    @ExactSpectrum .exact ∧ ((0 : ℝ) ≤ 1 ∧ (1 : ℝ) ≤ 1) ∧ 0 < 3 ∧ ∃ p s r zs g,
      (@generate ℝ ℕ Empty _ .exact CoupledQp.alternating 2 1 3 0) (World.start 0 none) =
        .ok p (World.start g none) ∧
      p.truth = some s ∧ IsDominant 2 s ∧ @IsInverseRoot .exact 2 0 s r ∧
      zs.length = 3 ∧ IsAverage 2 r zs p.sample := by
  have hdensity : (0 : ℝ) ≤ 1 ∧ (1 : ℝ) ≤ 1 := ⟨zero_le_one, le_rfl⟩
  obtain ⟨p, s, r, sparse, g, zs, g', -, -, hgenerate, htruth, -, hdominant, hroot, hlen, -,
    haverage⟩ := @generated_well_posed ℕ Empty .exact exactSpectrum_exact CoupledQp.alternating 2 1
      hdensity 3 (by decide) 0 (World.start 0 none)
  refine ⟨exactSpectrum_exact, hdensity, by decide, p, s, r, zs, g', ?_, htruth, hdominant, hroot,
    hlen, haverage⟩
  rw [hgenerate, if_pos (by decide)]
  rfl

end Covariance

end Splitting
