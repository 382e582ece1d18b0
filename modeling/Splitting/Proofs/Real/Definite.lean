import Splitting.Proofs.Real.Threshold

/-!
# The definite solution

The log-determinant block answers the only positive definite `S` with `(S - W) S = t`. What it
takes from its point is the symmetric part, and from `Q` the upper triangle.
-/

namespace Splitting

noncomputable def squareOf (n : ℕ) (a : ℕ → ℕ → ℝ) := Matrix.of fun r c : Fin n => a r c

theorem squareOf_congr {n : ℕ} {a b : ℕ → ℕ → ℝ} (h : ∀ r < n, ∀ c < n, a r c = b r c) :
    squareOf n a = squareOf n b := by
  ext r c
  exact h r r.isLt c c.isLt

theorem isHermitian_squareOf {n : ℕ} {a : ℕ → ℕ → ℝ} (h : ∀ r c, a r c = a c r) :
    (squareOf n a).IsHermitian := by
  ext r c
  exact h c r

theorem inner_linearOf (n : ℕ) (a : ℕ → ℕ → ℝ) (x : EuclideanSpace ℝ (Fin n)) :
    inner ℝ x (linearOf n n a x) = dotProduct (star x.ofLp) ((squareOf n a).mulVec x) := by
  rw [inner_eq_sum]
  rfl

theorem squareOf_mul_apply (n : ℕ) (a b : ℕ → ℕ → ℝ) (r c : Fin n) :
    (squareOf n a * squareOf n b) r c =
      linearOf n n a (linearOf n n b (EuclideanSpace.single c 1)) r := by
  rw [Matrix.mul_apply, linearOf_apply]
  exact Finset.sum_congr rfl fun k _ => by rw [linearOf_single]; rfl

/-! ## One solution at most -/

/-- The matrix of `s` is positive definite and solves `(S - W) S = t`, and no other matrix does. -/
structure OnlyDefinite (n : ℕ) (t : ℝ) (w s : ℕ → ℕ → ℝ) : Prop where
  posDef : (squareOf n s).PosDef
  equation : (squareOf n s - squareOf n w) * squareOf n s = t • 1
  unique : ∀ u, Matrix.PosDef u → (u - squareOf n w) * u = t • 1 → u = squareOf n s

theorem OnlyDefinite.congr {n : ℕ} {t : ℝ} {w w' s s' : ℕ → ℕ → ℝ} (h : OnlyDefinite n t w s)
    (hw : ∀ r < n, ∀ c < n, w r c = w' r c) (hs : ∀ r < n, ∀ c < n, s r c = s' r c) :
    OnlyDefinite n t w' s' := by
  obtain ⟨hpos, hequation, hunique⟩ := h
  rw [squareOf_congr hw, squareOf_congr hs] at hequation
  rw [squareOf_congr hs] at hpos
  simp only [squareOf_congr hw, squareOf_congr hs] at hunique
  exact ⟨hpos, hequation, hunique⟩

section Unique

variable {n : ℕ} {t : ℝ} {w : ℕ → ℕ → ℝ}

theorem mul_sub_of_equation (hw : (squareOf n w).IsHermitian) {u}
    (h : (u - squareOf n w) * u = t • 1) (hu : u.IsHermitian) :
    u * (u - squareOf n w) = t • 1 := by
  have htranspose := congrArg Matrix.conjTranspose h
  rw [Matrix.conjTranspose_mul, Matrix.conjTranspose_sub, hu.eq, hw.eq, Matrix.conjTranspose_smul,
    Matrix.conjTranspose_one, star_trivial] at htranspose
  exact htranspose

theorem mul_sub_mul_of_equations (hw : (squareOf n w).IsHermitian) {u v}
    (hu : (u - squareOf n w) * u = t • 1) (hv : (v - squareOf n w) * v = t • 1)
    (hu' : u.IsHermitian) : u * (u - v) * v = -t • (u - v) := by
  have hcomm := mul_sub_of_equation hw hu hu'
  calc u * (u - v) * v
      = u * (u - squareOf n w) * v - u * ((v - squareOf n w) * v) := by noncomm_ring
    _ = t • v - t • u := by rw [hcomm, hv, smul_mul_assoc, one_mul, mul_smul_comm, mul_one]
    _ = -t • (u - v) := by rw [neg_smul, smul_sub]; abel

theorem sub_mulVec_eq_zero (ht : 0 < t) (hw : (squareOf n w).IsHermitian) {u v}
    (hu : (u - squareOf n w) * u = t • 1) (hv : (v - squareOf n w) * v = t • 1)
    (hu' : u.PosDef) {e : ℝ} (he : 0 < e) {x : Fin n → ℝ} (hx : v.mulVec x = e • x) :
    (u - v).mulVec x = 0 := by
  by_contra hne
  have hdiff := congrArg (fun m => m.mulVec x)
    (mul_sub_mul_of_equations hw hu hv hu'.isHermitian)
  rw [← Matrix.mulVec_mulVec, hx, Matrix.mulVec_smul, ← Matrix.mulVec_mulVec, Matrix.smul_mulVec]
    at hdiff
  have hpos := hu'.dotProduct_mulVec_pos hne
  have hprod := congrArg (dotProduct (star ((u - v).mulVec x))) hdiff
  rw [dotProduct_smul, dotProduct_smul, smul_eq_mul, smul_eq_mul] at hprod
  have hsq : 0 ≤ dotProduct (star ((u - v).mulVec x)) ((u - v).mulVec x) :=
    dotProduct_star_self_nonneg _
  nlinarith

theorem eq_of_equations (ht : 0 < t) (hw : (squareOf n w).IsHermitian) {u v}
    (hu : (u - squareOf n w) * u = t • 1) (hv : (v - squareOf n w) * v = t • 1)
    (hu' : u.PosDef) (hv' : v.PosDef) : u = v := by
  have hzero : Matrix.toEuclideanLin (u - v) = 0 := by
    refine hv'.isHermitian.eigenvectorBasis.toBasis.ext fun i => ?_
    have hkernel := sub_mulVec_eq_zero ht hw hu hv hu' (hv'.eigenvalues_pos i)
      (hv'.isHermitian.mulVec_eigenvectorBasis i)
    rw [OrthonormalBasis.coe_toBasis, Matrix.toEuclideanLin, Matrix.toLpLin_apply, hkernel]
    rfl
  rw [← sub_eq_zero]
  exact (LinearEquiv.map_eq_zero_iff _).mp hzero

end Unique

/-! ## The answer -/

namespace LogDet

section Image

variable [Spectral ℝ] (hexact : ExactSpectrum) {n : ℕ} {w : Matrix ℝ} (hw : w.shape = .packed n)
  {t : ℝ} (ht : 0 < t) (eps : ℝ)

include hexact hw ht

theorem squareOf_image_equation :
    (squareOf n (Spectral.mapEig w eps (root t)).entry - squareOf n w.entry) *
      squareOf n (Spectral.mapEig w eps (root t)).entry = t • 1 := by
  ext r c
  have heq := congrArg (fun u => u r) (image_equation hexact hw ht eps (EuclideanSpace.single c 1))
  rw [sub_mul, Matrix.sub_apply, squareOf_mul_apply, squareOf_mul_apply, Matrix.smul_apply,
    Matrix.one_apply]
  simpa [eq_comm] using heq

theorem inner_image_pos {x : EuclideanSpace ℝ (Fin n)} (hx : x ≠ 0) :
    0 < inner ℝ x (linearOf n n (Spectral.mapEig w eps (root t)).entry x) := by
  have hsymm : (linearOf n n w.entry).IsSymmetric := isSymmetric_linearOf (Matrix.entry_comm hw)
  set b := hsymm.eigenvectorBasis finrank_euclideanSpace_fin
  set e := hsymm.eigenvalues finrank_euclideanSpace_fin
  have himage : (linearOf n n (Spectral.mapEig w eps (root t)).entry).IsSymmetric :=
    isSymmetric_linearOf (Matrix.entry_comm ((Spectral.shape_mapEig ..).trans hw))
  have hb : ∀ i, linearOf n n (Spectral.mapEig w eps (root t)).entry (b i) =
      root t (e i) • b i :=
    fun i => hexact n w hw eps _ _ _ (hsymm.apply_eigenvectorBasis finrank_euclideanSpace_fin i)
  have hsum : inner ℝ x (linearOf n n (Spectral.mapEig w eps (root t)).entry x) =
      ∑ i, root t (e i) * inner ℝ (b i) x ^ 2 := by
    rw [← b.sum_inner_mul_inner]
    refine Finset.sum_congr rfl fun i _ => ?_
    rw [← himage, hb, real_inner_smul_left, real_inner_comm]
    ring
  obtain ⟨i, hi⟩ : ∃ i, inner ℝ (b i) x ≠ 0 := by
    by_contra! hall
    exact hx (InnerProductSpace.ext_inner_left_basis b.toBasis (by simpa using hall))
  rw [hsum]
  exact Finset.sum_pos' (fun i _ => mul_nonneg (root_spec ht (e i)).1.le (sq_nonneg _))
    ⟨i, Finset.mem_univ i, mul_pos (root_spec ht (e i)).1 (by positivity)⟩

theorem posDef_image : (squareOf n (Spectral.mapEig w eps (root t)).entry).PosDef := by
  refine .of_dotProduct_mulVec_pos (isHermitian_squareOf
    (Matrix.entry_comm ((Spectral.shape_mapEig ..).trans hw))) fun x hx => ?_
  have hpos := inner_image_pos hexact hw ht eps (x := WithLp.toLp 2 x) (by simpa using hx)
  rwa [inner_linearOf] at hpos

theorem onlyDefinite_image :
    OnlyDefinite n t w.entry (Spectral.mapEig w eps (root t)).entry where
  posDef := posDef_image hexact hw ht eps
  equation := squareOf_image_equation hexact hw ht eps
  unique _ hu h := eq_of_equations ht (isHermitian_squareOf (Matrix.entry_comm hw)) h
    (squareOf_image_equation hexact hw ht eps) hu (posDef_image hexact hw ht eps)

end Image

/-! ## The block -/

/-- Both forms of the eigenvalue map give the one positive root of `s² - e s = t`. -/
structure IsRoot (t e s : ℝ) : Prop where
  pos : 0 < s
  equation : s * s - e * s = t
  unique : ∀ u, 0 < u → u * u - e * u = t → u = s
  direct : (e + √(e * e + (4 : ℕ) * t)) / (2 : ℕ) = s
  reciprocal : (2 : ℕ) * t / (√(e * e + (4 : ℕ) * t) - e) = s

theorem isRoot_root {t : ℝ} (ht : 0 < t) (e : ℝ) : IsRoot t e (root t e) := by
  have hpos : 0 < e * e + 4 * t := by nlinarith [mul_self_nonneg e]
  have hsq := Real.mul_self_sqrt hpos.le
  have habs : |e| < √(e * e + 4 * t) := by
    rw [← Real.sqrt_mul_self_eq_abs]
    exact Real.sqrt_lt_sqrt (mul_self_nonneg e) (by linarith)
  have hgap := sub_pos.mpr ((le_abs_self e).trans_lt habs)
  have hsum := neg_lt_iff_pos_add.mp ((neg_abs_le e).trans_lt' (neg_lt_neg habs))
  have hdirect : root t e = (e + √(e * e + 4 * t)) / 2 :=
    root_eq (by linarith) (by linear_combination hsq / 4) ht
  have hreciprocal : 2 * t / (√(e * e + 4 * t) - e) = root t e := by
    rw [hdirect, div_eq_div_iff hgap.ne' two_ne_zero]
    linear_combination -hsq
  refine ⟨(root_spec ht e).1, (root_spec ht e).2, fun u hu h => (root_eq hu h ht).symm, ?_, ?_⟩
  · exact_mod_cast hdirect.symm
  · exact_mod_cast hreciprocal

/-- The symmetric part of the matrix with the columns `v`. -/
noncomputable def symmetricPart (n : ℕ) (v : Array ℝ) (r c : ℕ) : ℝ :=
  (v.getD (c * n + r) 0 + v.getD (r * n + c) 0) / (2 : ℕ)

theorem symmetricPart_comm (n : ℕ) (v : Array ℝ) (r c : ℕ) :
    symmetricPart n v r c = symmetricPart n v c r := by
  unfold symmetricPart
  rw [add_comm]

theorem entry_ofFn_shifted (f : LogDet ℝ) (t : ℝ) (v : Array ℝ) {r c : ℕ} (hr : r < f.side)
    (hc : c < f.side) :
    (Matrix.ofFn (.packed f.side) (f.shifted t v)).entry r c =
      symmetricPart f.side v r c - t * f.q.entry (min r c) (max r c) := by
  have hshifted : ∀ r c, f.shifted t v r c = symmetricPart f.side v r c - t * f.q.entry r c := by
    intro r c
    have htwo : (Scalar.two : ℝ) = (2 : ℕ) := one_add_one_eq_two
    unfold shifted
    rw [htwo]
    rfl
  rw [Matrix.entry_ofFn_upper _ hr hc, hshifted]
  rcases le_total r c with h | h
  · rw [min_eq_left h, max_eq_right h]
  · rw [min_eq_right h, max_eq_left h, symmetricPart_comm]

section Gives

variable [Spectral ℝ] {f : LogDet ℝ} {t : ℝ} {v v' x : Array ℝ}

/-- `x` is what the block answers at `v`, whatever it was called with before. -/
def Gives (f : LogDet ℝ) (t : ℝ) (v x : Array ℝ) : Prop :=
  ∀ w : World (Scratch ℝ) ℝ, w.state.image.shape = .packed f.side →
    ∃ w', w'.state.image.shape = .packed f.side ∧
      f.prox.apply t v (f.side * f.side) w = .ok x w'

theorem gives_flat (hv : v.size = f.side * f.side) : f.Gives t v (flat f.side
    (Spectral.mapEig (Matrix.ofFn (.packed f.side) (f.shifted t v)) f.epsZero (root t))) := by
  intro w hw
  obtain ⟨x, w', heval, hsize⟩ := f.prox_total t v w hv
  have hx := flat_of_eval heval
  rw [Matrix.refill_eq_ofFn, hw] at hx
  subst hx
  exact ⟨w', f.prox_keeps _ _ _ _ _ _ heval hw, Solver.apply_eq_ok.mpr ⟨hv, rfl, heval, hsize⟩⟩

omit [Spectral ℝ] in
theorem ofFn_shifted_congr (h : ∀ r < f.side, ∀ c < f.side,
    v'.getD (c * f.side + r) 0 = symmetricPart f.side v r c) :
    Matrix.ofFn (.packed f.side) (f.shifted t v') =
      Matrix.ofFn (.packed f.side) (f.shifted t v) := by
  refine Matrix.ofFn_congr fun ⟨r, c⟩ hcell => ?_
  obtain ⟨hrc, hc⟩ := Shape.mem_cells_packed.mp hcell
  have hr := hrc.trans_lt hc
  have htwo : (Scalar.two : ℝ) = 2 := one_add_one_eq_two
  show (_ + _) / Scalar.two - _ = (_ + _) / Scalar.two - _
  rw [h r hr c hc, h c hc r hr, symmetricPart_comm f.side v c r, htwo, add_self_div_two,
    symmetricPart, Nat.cast_ofNat]

end Gives

/-- From every square matrix, of which the upper triangle counts, there is a block; and what it
answers at any point is the only definite solution `S` of `(S - W) S = t`. -/
theorem gives_only_definite [Spectral ℝ] (hexact : ExactSpectrum) {q : Matrix ℝ}
    (hq : q.rows = q.cols) (eps : ℝ) :
    ∃ f, ofMatrix q eps = .ok f ∧ f.side = q.rows ∧ f.scratch.image.shape = .packed f.side ∧
      (∀ q', q'.rows = q.rows → q'.cols = q.cols →
        (∀ c < q.rows, ∀ r ≤ c, q'.entry r c = q.entry r c) → ofMatrix q' eps = .ok f) ∧
      ∀ t, 0 < t → (∀ e, IsRoot t e (root t e)) ∧
        ∀ v : Array ℝ, v.size = f.side * f.side →
          ∃ x, x.size = f.side * f.side ∧ f.Gives t v x ∧
          OnlyDefinite f.side t
            (fun r c => symmetricPart f.side v r c - t * q.entry (min r c) (max r c))
            (fun r c => x.getD (c * f.side + r) 0) ∧
          ∀ v' : Array ℝ, v'.size = f.side * f.side → (∀ r < f.side, ∀ c < f.side,
            v'.getD (c * f.side + r) 0 = symmetricPart f.side v r c) → f.Gives t v' x := by
  set f : LogDet ℝ := ⟨q.rows, .ofFn (.packed q.rows) q.entry, eps⟩ with hf
  refine ⟨f, if_pos hq, rfl, rfl, fun q' hrows hcols hupper => ?_, fun t ht =>
    ⟨isRoot_root ht, fun v hv => ?_⟩⟩
  · rw [ofMatrix, if_pos (by rw [hrows, hcols, hq]), hrows, hf]
    congr 2
    refine Matrix.ofFn_congr fun ⟨r, c⟩ hcell => ?_
    obtain ⟨hrc, hc⟩ := Shape.mem_cells_packed.mp hcell
    exact hupper c hc r hrc
  · have hentry : ∀ r < f.side, ∀ c < f.side,
        (Matrix.ofFn (.packed f.side) (f.shifted t v)).entry r c =
          symmetricPart f.side v r c - t * q.entry (min r c) (max r c) := by
      intro r hr c hc
      rw [entry_ofFn_shifted f t v hr hc]
      congr 2
      exact Matrix.entry_ofFn (Shape.mem_cells_packed.mpr ⟨min_le_max, max_lt hr hc⟩) q.entry
    refine ⟨_, size_flat _ _, gives_flat hv, ?_, fun v' hv' hsame => ?_⟩
    · refine OnlyDefinite.congr (onlyDefinite_image hexact (n := f.side)
        (w := Matrix.ofFn (.packed f.side) (f.shifted t v)) rfl ht eps) hentry
        fun r hr c hc => (getD_columnwise _ hr hc).symm
    · rw [← ofFn_shifted_congr hsame]
      exact gives_flat hv'

noncomputable def lopsided : Matrix ℝ := Matrix.ofFn (.general 2 2) fun r c => (r + 2 * c : ℕ)

theorem gives_only_definite_lopsided : lopsided.rows = lopsided.cols ∧ (0 : ℝ) < 3 ∧
    ∃ f x, ofMatrix lopsided 0 = .ok f ∧ @Gives .exact f 3 #[1, 4, 2, 0] x ∧
      OnlyDefinite 2 3 (fun r c => symmetricPart 2 #[1, 4, 2, 0] r c -
        3 * lopsided.entry (min r c) (max r c)) fun r c => x.getD (c * 2 + r) 0 := by
  obtain ⟨f, hf, hside, -, -, hall⟩ :=
    @gives_only_definite .exact exactSpectrum_exact lopsided rfl 0
  have hside : f.side = 2 := hside
  obtain ⟨x, -, hx, honly, -⟩ := (hall 3 three_pos).2 #[1, 4, 2, 0] (by rw [hside]; rfl)
  rw [hside] at honly
  exact ⟨rfl, three_pos, f, x, hf, hx, honly⟩

end LogDet

end Splitting
