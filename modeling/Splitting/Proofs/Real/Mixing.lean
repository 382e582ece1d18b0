import Splitting.Proofs.Real.Nearest
import Splitting.Proofs.Memory

/-!
# The least-squares combination in exact arithmetic

The coefficients of a step come from the normal equations of a regularized least-squares problem.
With exact eigenvalues they never do worse than no combination at all, whichever eigenvalues are cut
off, and they are the only best ones if none is.
-/

namespace Splitting

theorem inner_vec (n : ℕ) (x y : Array ℝ) :
    inner ℝ (vec n x) (vec n y) = ∑ i ∈ Finset.range n, x.getD i 0 * y.getD i 0 := by
  rw [inner_eq_sum]
  exact Fin.sum_univ_eq_sum_range (fun i => x.getD i 0 * y.getD i 0) n

theorem dot?_vec {n : ℕ} {x y : Array ℝ} {a : ℝ} (hx : x.size = n) (h : Vec.dot? x y = some a) :
    a = inner ℝ (vec n x) (vec n y) := by
  unfold Vec.dot? at h
  split at h
  · cases h
    rw [inner_vec, ← hx]
    exact sumBelow_eq x.size fun i => x.getD i 0 * y.getD i 0
  · cases h

namespace Anderson

open LinearMap (adjoint)

theorem getD_of_mapM {α β : Type} {f : α → Option β} {l : List α} {bs : List β}
    (h : l.mapM f = some bs) {c : ℕ} (hc : c < l.length) (e : β) :
    f l[c] = some (bs.toArray.getD c e) := by
  induction l generalizing bs c with
  | nil => exact absurd hc (Nat.not_lt_zero c)
  | cons a l ih =>
    rw [List.mapM_cons] at h
    obtain ⟨b, hb, h⟩ := Option.bind_eq_some_iff.mp h
    obtain ⟨cs, hcs, h⟩ := Option.bind_eq_some_iff.mp h
    cases h
    cases c with
    | zero => simpa using hb
    | succ c =>
      have hrest := ih hcs (Nat.lt_of_succ_lt_succ hc)
      simpa [Array.getD_eq_getD_getElem?] using hrest

/-! ## Combinations -/

section Combine

variable (n : ℕ) (part : Sample ℝ → Array ℝ) (memory : List (Sample ℝ))

/-- The combinations of one part of the samples. -/
noncomputable def combine :
    EuclideanSpace ℝ (Fin memory.length) →ₗ[ℝ] EuclideanSpace ℝ (Fin n) :=
  linearOf memory.length n fun r c => (memory[c]?.elim #[] part).getD r 0

theorem combine_apply (z : EuclideanSpace ℝ (Fin memory.length)) :
    combine n part memory z = ∑ i, z i • vec n (part memory[i]) := by
  ext r
  rw [combine, linearOf_apply, WithLp.ofLp_sum, Finset.sum_apply]
  refine Finset.sum_congr rfl fun i _ => ?_
  simp [mul_comm]

theorem adjoint_combine_apply (x : EuclideanSpace ℝ (Fin n)) (i : Fin memory.length) :
    adjoint (combine n part memory) x i = inner ℝ (vec n (part memory[i])) x := by
  rw [combine, adjoint_linearOf, linearOf_apply, inner_eq_sum]
  exact Finset.sum_congr rfl fun r _ => by simp

theorem range_combine : LinearMap.range (combine n part memory) =
    Submodule.span ℝ ((fun d => vec n (part d)) '' {d | d ∈ memory}) := by
  have himage : (fun d => vec n (part d)) '' {d | d ∈ memory} =
      Set.range fun i : Fin memory.length => vec n (part memory[i]) := by
    ext x
    simp only [Set.mem_image, Set.mem_ofPred_eq, Set.mem_range, List.mem_iff_get]
    constructor
    · rintro ⟨d, ⟨i, rfl⟩, rfl⟩
      exact ⟨i, rfl⟩
    · rintro ⟨i, rfl⟩
      exact ⟨_, ⟨i, rfl⟩, rfl⟩
  ext x
  rw [himage, Submodule.mem_span_range_iff_exists_fun]
  constructor
  · rintro ⟨z, rfl⟩
    exact ⟨z, (combine_apply n part memory z).symm⟩
  · rintro ⟨c, rfl⟩
    exact ⟨WithLp.toLp 2 c, combine_apply n part memory _⟩

theorem subCombined?_vec {cs : List ℝ} {y z : Array ℝ} (h : subCombined? cs memory y = some z) :
    vec n z = vec n y - ((cs.zip memory).map fun p => p.1 • vec n p.2.image).sum := by
  induction cs generalizing memory y with
  | nil =>
    cases h
    simp
  | cons c cs ih =>
    cases memory with
    | nil =>
      cases h
      simp
    | cons d ds =>
      obtain ⟨y', hy, h⟩ := Option.bind_eq_some_iff.mp h
      rw [ih ds h, vec_addScaled? hy, List.zip_cons_cons, List.map_cons, List.sum_cons]
      have hneg : (-c) • vec n d.image = -(c • vec n d.image) := neg_smul c _
      rw [hneg]
      abel

theorem sum_zip_toList {gamma : Array ℝ} (h : gamma.size = memory.length) :
    ((gamma.toList.zip memory).map fun p => p.1 • vec n (part p.2)).sum =
      combine n part memory (vec memory.length gamma) := by
  rw [combine_apply, ← List.sum_ofFn]
  congr 1
  refine List.ext_getElem (by simp [h]) fun i hi hi' => ?_
  have hi : i < gamma.size := by simpa [h] using hi'
  simp [Array.getElem?_eq_getElem hi]

end Combine

/-! ## The normal equations -/

variable {n : ℕ} {memory : List (Sample ℝ)}

noncomputable def penalty (n : ℕ) (lambda : ℝ) (memory : List (Sample ℝ)) : ℝ :=
  lambda * (memory.map fun d => ‖vec n d.residual‖ ^ 2 + ‖vec n d.image‖ ^ 2).sum

/-- `Gᵀ G + reg`, with the residual differences as the columns of `G`. -/
noncomputable def normalMap (n : ℕ) (reg : ℝ) (memory : List (Sample ℝ)) :
    EuclideanSpace ℝ (Fin memory.length) →ₗ[ℝ] EuclideanSpace ℝ (Fin memory.length) :=
  linearOf memory.length memory.length fun r c =>
    (∑ i ∈ Finset.range n, (memory[r]?.elim #[] Sample.residual).getD i 0 *
      (memory[c]?.elim #[] Sample.residual).getD i 0) + if r = c then reg else 0

theorem normalMap_apply (n : ℕ) (reg : ℝ) (memory : List (Sample ℝ))
    (z : EuclideanSpace ℝ (Fin memory.length)) (r : Fin memory.length) :
    normalMap n reg memory z r = ∑ c : Fin memory.length,
      (inner ℝ (vec n memory[r].residual) (vec n memory[c].residual) +
        if (r : ℕ) = c then reg else 0) * z c := by
  rw [normalMap, linearOf_apply]
  exact Finset.sum_congr rfl fun c _ => by simp [inner_vec]

theorem normalMap_eq (n : ℕ) (reg : ℝ) (memory : List (Sample ℝ)) :
    normalMap n reg memory = adjoint (combine n Sample.residual memory) ∘ₗ
      combine n Sample.residual memory + reg • LinearMap.id := by
  refine LinearMap.ext fun z => ?_
  ext r
  have hterm : ∀ c : Fin memory.length,
      (inner ℝ (vec n memory[r].residual) (vec n memory[c].residual) +
        if (r : ℕ) = c then reg else 0) * z c =
      z c * inner ℝ (vec n memory[r].residual) (vec n memory[c].residual) +
        (if r = c then reg * z c else 0) := by
    intro c
    simp only [Fin.val_inj]
    split <;> ring
  rw [normalMap_apply, Finset.sum_congr rfl fun c _ => hterm c, Finset.sum_add_distrib]
  simp only [LinearMap.add_apply, LinearMap.comp_apply, LinearMap.smul_apply, LinearMap.id_apply,
    PiLp.add_apply, PiLp.smul_apply, smul_eq_mul, Finset.sum_ite_eq, Finset.mem_univ, if_true]
  rw [adjoint_combine_apply, combine_apply, inner_sum]
  simp only [real_inner_smul_right]

section Sized

variable (hm : ∀ d ∈ memory, d.Sized n)
include hm

theorem regularization_real (lambda : ℝ) :
    regularization lambda memory = penalty n lambda memory := by
  have hterm : ∀ d ∈ memory, Vec.norm d.residual * Vec.norm d.residual +
      Vec.norm d.image * Vec.norm d.image =
        ‖vec n d.residual‖ ^ 2 + ‖vec n d.image‖ ^ 2 := fun d hd => by
    rw [norm_eq (hm d hd).2, norm_eq (hm d hd).1, sq, sq]
  unfold regularization penalty
  rw [← List.map_congr_left hterm, List.sum_eq_foldl, List.foldl_map, mul_comm]
  simp only [add_assoc]

theorem products?_getD {x ps : Array ℝ} (h : products? x memory = some ps) {c : ℕ}
    (hc : c < memory.length) :
    ps.getD c 0 = inner ℝ (vec n memory[c].residual) (vec n x) := by
  obtain ⟨l, hl, h⟩ := Option.bind_eq_some_iff.mp h
  cases h
  exact dot?_vec (hm _ (List.getElem_mem hc)).2 (getD_of_mapM hl hc 0)

theorem products?_vec {x ps : Array ℝ} (h : products? x memory = some ps) :
    vec memory.length ps = adjoint (combine n Sample.residual memory) (vec n x) := by
  refine vec_ext fun i => ?_
  rw [products?_getD hm h i.isLt, adjoint_combine_apply]
  rfl

theorem normalMatrix?_entry {reg : ℝ} {a : Matrix ℝ} (h : normalMatrix? reg memory = some a)
    {r c : ℕ} (hr : r < memory.length) (hc : c < memory.length) :
    a.entry r c = inner ℝ (vec n memory[r].residual) (vec n memory[c].residual) +
      if r = c then reg else 0 := by
  obtain ⟨cols, hcols, h⟩ := Option.bind_eq_some_iff.mp h
  cases h
  have hentry : ∀ r (hr : r < memory.length) c (hc : c < memory.length),
      (if r = c then (cols.toArray.getD c #[]).getD r 0 + reg
        else (cols.toArray.getD c #[]).getD r 0) =
      inner ℝ (vec n memory[r].residual) (vec n memory[c].residual) + if r = c then reg else 0 := by
    intro r hr c hc
    rw [products?_getD hm (getD_of_mapM hcols hc #[]) hr]
    split
    · rfl
    · rw [add_zero]
  dsimp only
  rw [Matrix.entry_ofFn_packed ?_ hr hc, hentry r hr c hc]
  rw [hentry r hr c hc, hentry c hc r hr, real_inner_comm]
  simp only [eq_comm]

theorem normalMatrix?_linear {reg : ℝ} {a : Matrix ℝ} (h : normalMatrix? reg memory = some a) :
    linearOf memory.length memory.length a.entry = normalMap n reg memory := by
  refine LinearMap.ext fun z => ?_
  ext r
  rw [normalMap_apply, linearOf_apply]
  exact Finset.sum_congr rfl fun c _ => by rw [normalMatrix?_entry hm h r.isLt c.isLt]; rfl

theorem normalMatrix?_trace {reg : ℝ} {a : Matrix ℝ} (h : normalMatrix? reg memory = some a) :
    a.trace = LinearMap.trace ℝ _ (normalMap n reg memory) := by
  obtain ⟨b, hb, hshape⟩ := normalMatrix?_total reg hm
  rw [h] at hb
  cases hb
  have hrows : a.rows = memory.length := congrArg Shape.rows hshape
  have hdiagonal : ∀ i : Fin memory.length, inner ℝ (EuclideanSpace.basisFun _ ℝ i)
      (linearOf memory.length memory.length a.entry (EuclideanSpace.basisFun _ ℝ i)) =
        a.entry i i := by
    intro i
    simp [EuclideanSpace.inner_single_left, linearOf_apply]
  rw [← normalMatrix?_linear hm h, LinearMap.trace_eq_sum_inner _ (EuclideanSpace.basisFun _ ℝ),
    Finset.sum_congr rfl fun i _ => hdiagonal i, Matrix.trace, sumBelow_eq, hrows]
  exact (Fin.sum_univ_eq_sum_range (fun i => a.entry i i) memory.length).symm

end Sized

theorem inner_normalMap (reg : ℝ) (x y : EuclideanSpace ℝ (Fin memory.length)) :
    inner ℝ (normalMap n reg memory x) y =
      inner ℝ (combine n Sample.residual memory x) (combine n Sample.residual memory y) +
        reg * inner ℝ x y := by
  rw [normalMap_eq, LinearMap.add_apply, inner_add_left, LinearMap.comp_apply,
    LinearMap.adjoint_inner_left, LinearMap.smul_apply, LinearMap.id_apply, real_inner_smul_left]

theorem isSymmetric_normalMap (n : ℕ) (reg : ℝ) (memory : List (Sample ℝ)) :
    (normalMap n reg memory).IsSymmetric := by
  intro x y
  rw [inner_normalMap, real_inner_comm (normalMap n reg memory y), inner_normalMap,
    real_inner_comm x y, real_inner_comm (combine n Sample.residual memory x)]

theorem reg_le_eigenvalue {reg e : ℝ} {x : EuclideanSpace ℝ (Fin memory.length)} (hx : x ≠ 0)
    (h : normalMap n reg memory x = e • x) : reg ≤ e := by
  have hpos : 0 < ‖x‖ ^ 2 := by positivity
  have hinner := inner_normalMap (n := n) reg x x
  rw [h, real_inner_smul_left, real_inner_self_eq_norm_sq, real_inner_self_eq_norm_sq] at hinner
  have hnonneg : 0 ≤ ‖combine n Sample.residual memory x‖ ^ 2 := by positivity
  nlinarith

/-! ## The objective -/

/-- The square of the residual that a combination leaves, and of its coefficients. -/
noncomputable def objective (n : ℕ) (reg : ℝ) (memory : List (Sample ℝ))
    (g : EuclideanSpace ℝ (Fin n)) (z : EuclideanSpace ℝ (Fin memory.length)) : ℝ :=
  ‖g - combine n Sample.residual memory z‖ ^ 2 + reg * ‖z‖ ^ 2

section Objective

variable {reg : ℝ} {g : EuclideanSpace ℝ (Fin n)} {z gamma : EuclideanSpace ℝ (Fin memory.length)}

theorem objective_eq : objective n reg memory g z = ‖g‖ ^ 2 -
    2 * inner ℝ (adjoint (combine n Sample.residual memory) g) z +
      inner ℝ (normalMap n reg memory z) z := by
  rw [objective, norm_sub_sq_real, LinearMap.adjoint_inner_left, inner_normalMap,
    real_inner_self_eq_norm_sq, real_inner_self_eq_norm_sq]
  ring

theorem objective_le {w : EuclideanSpace ℝ (Fin memory.length) →ₗ[ℝ] _} (hreg : 0 ≤ reg)
    (hsymm : w.IsSymmetric) (hself : w ∘ₗ normalMap n reg memory ∘ₗ w = w)
    (hgamma : gamma = w (adjoint (combine n Sample.residual memory) g)) :
    objective n reg memory g gamma ≤ ‖g‖ ^ 2 := by
  set r := adjoint (combine n Sample.residual memory) g
  have hproduct : inner ℝ r gamma = inner ℝ (normalMap n reg memory gamma) gamma :=
    calc inner ℝ r gamma = inner ℝ r ((w ∘ₗ normalMap n reg memory ∘ₗ w) r) := by rw [hself, hgamma]
      _ = inner ℝ (w r) (normalMap n reg memory (w r)) := (hsymm r _).symm
      _ = inner ℝ (normalMap n reg memory gamma) gamma := by rw [← hgamma, real_inner_comm]
  have hnonneg : 0 ≤ inner ℝ (normalMap n reg memory gamma) gamma := by
    rw [inner_normalMap, real_inner_self_eq_norm_sq, real_inner_self_eq_norm_sq]
    positivity
  rw [objective_eq, hproduct]
  linarith

theorem objective_eq_add
    (hgamma : normalMap n reg memory gamma = adjoint (combine n Sample.residual memory) g) :
    objective n reg memory g z = objective n reg memory g gamma +
      inner ℝ (normalMap n reg memory (z - gamma)) (z - gamma) := by
  have hswap : inner ℝ (normalMap n reg memory z) gamma =
      inner ℝ (normalMap n reg memory gamma) z := by
    rw [isSymmetric_normalMap, real_inner_comm]
  rw [objective_eq, objective_eq, ← hgamma, map_sub, inner_sub_left, inner_sub_right,
    inner_sub_right, hswap]
  ring

end Objective

/-! ## The coefficients -/

/-- Eigenvalues at or below this count as zero. -/
noncomputable def tolerance (n : ℕ) (epsZero reg : ℝ) (memory : List (Sample ℝ)) : ℝ :=
  epsZero * max (LinearMap.trace ℝ _ (normalMap n reg memory)) 1

theorem tolerance_nonneg {epsZero : ℝ} (h : 0 ≤ epsZero) (n : ℕ) (reg : ℝ)
    (memory : List (Sample ℝ)) : 0 ≤ tolerance n epsZero reg memory :=
  mul_nonneg h (le_max_of_le_right zero_le_one)

theorem penalty_nonneg {lambda : ℝ} (h : 0 ≤ lambda) (n : ℕ) (memory : List (Sample ℝ)) :
    0 ≤ penalty n lambda memory := by
  refine mul_nonneg h (List.sum_nonneg fun e he => ?_)
  obtain ⟨d, -, rfl⟩ := List.mem_map.mp he
  positivity

section Clear

variable {reg tol : ℝ} (htol : 0 ≤ tol)
  (hclear : ∀ e, Module.End.HasEigenvalue (normalMap n reg memory) e → tol < e)
include htol hclear

theorem injective_normalMap : Function.Injective (normalMap n reg memory) := by
  refine (injective_iff_map_eq_zero _).mpr fun x hx => ?_
  by_contra hne
  have heigen : Module.End.HasEigenvalue (normalMap n reg memory) 0 :=
    Module.End.hasEigenvalue_of_hasEigenvector
      ⟨Module.End.mem_eigenspace_iff.mpr (by rw [hx, zero_smul]), hne⟩
  exact absurd (hclear 0 heigen) (not_lt.mpr htol)

theorem inner_normalMap_pos (hreg : 0 ≤ reg) {x : EuclideanSpace ℝ (Fin memory.length)}
    (hx : x ≠ 0) : 0 < inner ℝ (normalMap n reg memory x) x := by
  rw [inner_normalMap, real_inner_self_eq_norm_sq, real_inner_self_eq_norm_sq]
  have hnorm : 0 < ‖x‖ ^ 2 := by positivity
  rcases hreg.lt_or_eq with hpos | rfl
  · positivity
  · -- without a penalty no combination but the trivial one is zero
    have hne : combine n Sample.residual memory x ≠ 0 := by
      intro h0
      refine hx (injective_normalMap htol hclear ?_)
      rw [map_zero, normalMap_eq, LinearMap.add_apply, LinearMap.comp_apply, h0, map_zero,
        zero_smul, LinearMap.zero_apply, add_zero]
    positivity

end Clear

/-- Inverts the normal map, but for the eigenvalues that are cut off. -/
def Inverts (n : ℕ) (epsZero reg : ℝ) (memory : List (Sample ℝ))
    (w : EuclideanSpace ℝ (Fin memory.length) →ₗ[ℝ] EuclideanSpace ℝ (Fin memory.length)) : Prop :=
  ∀ e x, normalMap n reg memory x = e • x →
    w x = cutoffRecip (tolerance n epsZero reg memory) e • x

section Inverts

variable {epsZero reg : ℝ}
  {w : EuclideanSpace ℝ (Fin memory.length) →ₗ[ℝ] EuclideanSpace ℝ (Fin memory.length)}
  (h : Inverts n epsZero reg memory w)
include h

theorem Inverts.isSymmetric : w.IsSymmetric :=
  Projection.isSymmetric_of_eigenvalues (isSymmetric_normalMap n reg memory) _ h

theorem Inverts.comp_comp_self (hzero : 0 ≤ epsZero) : w ∘ₗ normalMap n reg memory ∘ₗ w = w :=
  Projection.comp_comp_self_of_eigenvalues (isSymmetric_normalMap n reg memory) _ h
    (Projection.cutoffRecip_mul_self (tolerance_nonneg hzero n reg memory))

theorem Inverts.isPseudoInverse (hzero : 0 ≤ epsZero) (hreg : 0 ≤ reg)
    (hclear : ∀ e, Module.End.HasEigenvalue (normalMap n reg memory) e → 0 < e →
      tolerance n epsZero reg memory < e) :
    Projection.IsPseudoInverse (normalMap n reg memory) w := by
  have htol := tolerance_nonneg hzero n reg memory
  refine Projection.isPseudoInverse_of_eigenvalues (isSymmetric_normalMap n reg memory) _ h
    (Projection.cutoffRecip_mul_self htol) fun e x hx he => ?_
  have heigen : Module.End.HasEigenvalue (normalMap n reg memory) e :=
    Module.End.hasEigenvalue_of_hasEigenvector ⟨Module.End.mem_eigenspace_iff.mpr he, hx⟩
  exact Projection.cutoffRecip_mul htol (hreg.trans (reg_le_eigenvalue hx he)) (hclear e heigen)

theorem Inverts.normalMap_apply (hzero : 0 ≤ epsZero) (hreg : 0 ≤ reg)
    (hclear : ∀ e, Module.End.HasEigenvalue (normalMap n reg memory) e →
      tolerance n epsZero reg memory < e) (x : EuclideanSpace ℝ (Fin memory.length)) :
    normalMap n reg memory (w x) = x := by
  have hpseudo := h.isPseudoInverse hzero hreg fun e he _ => hclear e he
  have hinjective := injective_normalMap (tolerance_nonneg hzero n reg memory) hclear
  have hleft : w ∘ₗ normalMap n reg memory = LinearMap.id :=
    LinearMap.ext fun y => hinjective (LinearMap.congr_fun hpseudo.comp_comp y)
  exact LinearMap.congr_fun ((LinearMap.comp_eq_id_comm ℝ _).mp hleft) x

end Inverts

section Coefficients

variable [Spectral ℝ]

/-- The coefficients solve the normal equations, but for the eigenvalues that are cut off. -/
theorem coefficients?_vec (hexact : ExactSpectrum) {lambda epsZero : ℝ}
    (hm : ∀ d ∈ memory, d.Sized n) {g gamma : Array ℝ}
    (h : coefficients? lambda epsZero memory g = some gamma) :
    ∃ w, Inverts n epsZero (penalty n lambda memory) memory w ∧
      vec memory.length gamma = w (adjoint (combine n Sample.residual memory) (vec n g)) := by
  obtain ⟨a, ha, h⟩ := Option.bind_eq_some_iff.mp h
  obtain ⟨rhs, hrhs, h⟩ := Option.bind_eq_some_iff.mp h
  rw [regularization_real hm] at ha
  obtain ⟨a', ha', hshape⟩ := normalMatrix?_total (penalty n lambda memory) hm
  rw [ha] at ha'
  cases ha'
  dsimp only at h
  have htol : epsZero * Scalar.maxNum a.trace 1 =
      tolerance n epsZero (penalty n lambda memory) memory := by
    rw [normalMatrix?_trace hm ha]
    rfl
  rw [htol] at h
  set f := fun e => cutoffRecip (tolerance n epsZero (penalty n lambda memory) memory) e
  have hrows : (Spectral.mapEig a epsZero f).rows = memory.length := by
    simp [Matrix.rows, hshape, Shape.rows]
  have hcols : (Spectral.mapEig a epsZero f).cols = memory.length := by
    simp [Matrix.cols, hshape, Shape.cols]
  have hvec := Matrix.mulAdd?_vec (by rw [hrows, Vec.size_zeros]) h
  rw [hrows, hcols, one_smul, zero_smul, add_zero, products?_vec hm hrhs] at hvec
  refine ⟨_, fun e x hx => ?_, hvec⟩
  refine hexact memory.length a hshape epsZero f e x ?_
  rw [normalMatrix?_linear hm ha]
  exact hx

theorem advance?_vec {size : ℕ} {lambda epsZero : ℝ} {s t : State ℝ} {a : Sample ℝ} {v : Array ℝ}
    (hs : s.Sized n) (ha : a.Sized n) (h : advance? size lambda epsZero a s = some (v, t)) :
    ∃ gamma, coefficients? lambda epsZero t.memory a.residual = some gamma ∧
      vec n v = vec n a.image - combine n Sample.image t.memory (vec t.memory.length gamma) := by
  obtain ⟨hgrown, -, hcases⟩ := advance?_eq_some h
  have hm : ∀ d ∈ t.memory, d.Sized n := by
    obtain ⟨memory, hmemory, hsized⟩ := s.grown?_total hs size ha
    rw [hgrown] at hmemory
    cases hmemory
    exact hsized
  obtain ⟨gamma, hgamma, hsize⟩ := coefficients?_total lambda epsZero hm ha.2
  refine ⟨gamma, hgamma, ?_⟩
  rcases hcases with ⟨hempty, rfl, -⟩ | ⟨-, -, gamma', hgamma', hv⟩
  · rw [← sum_zip_toList _ _ _ hsize, hempty]
    simp
  · rw [hgamma] at hgamma'
    cases hgamma'
    rw [subCombined?_vec n _ hv, sum_zip_toList _ _ _ hsize]

/-- The coefficients of a step leave no larger objective than no combination at all, whichever
eigenvalues are cut off, and are the only ones that leave the smallest if none is. -/
theorem coefficients_minimise (hexact : ExactSpectrum) {lambda epsZero : ℝ} (hlambda : 0 ≤ lambda)
    (hzero : 0 ≤ epsZero) (hm : ∀ d ∈ memory, d.Sized n) {g : Array ℝ} (hg : g.size = n) :
    ∃ gamma, coefficients? lambda epsZero memory g = some gamma ∧ gamma.size = memory.length ∧
      (∀ size f s, f.size = n → s.Sized n → s.grown? size ⟨f, g⟩ = some memory →
        ∃ v t, advance? size lambda epsZero ⟨f, g⟩ s = some (v, t) ∧ vec n v =
          vec n f - combine n Sample.image memory (vec memory.length gamma)) ∧
      objective n (penalty n lambda memory) memory (vec n g) (vec memory.length gamma) ≤
        ‖vec n g‖ ^ 2 ∧
      ((∀ e, Module.End.HasEigenvalue (normalMap n (penalty n lambda memory) memory) e →
          tolerance n epsZero (penalty n lambda memory) memory < e) →
        ∀ z, z ≠ vec memory.length gamma →
          objective n (penalty n lambda memory) memory (vec n g) (vec memory.length gamma) <
            objective n (penalty n lambda memory) memory (vec n g) z) := by
  have hreg := penalty_nonneg hlambda n memory
  obtain ⟨gamma, hgamma, hsize⟩ := coefficients?_total lambda epsZero hm hg
  obtain ⟨w, hw, hvec⟩ := coefficients?_vec hexact hm hgamma
  refine ⟨gamma, hgamma, hsize, fun size f s hf hs hgrown => ?_, ?_, fun hclear z hz => ?_⟩
  · obtain ⟨v, t, hadv, -, -⟩ := advance?_total hs size lambda epsZero (a := ⟨f, g⟩) ⟨hf, hg⟩
    obtain ⟨hmemory, -, -⟩ := advance?_eq_some hadv
    obtain ⟨gamma', hgamma', hv⟩ := advance?_vec hs ⟨hf, hg⟩ hadv
    rw [hgrown] at hmemory
    cases hmemory
    rw [hgamma] at hgamma'
    cases hgamma'
    exact ⟨v, t, hadv, hv⟩
  · exact objective_le hreg hw.isSymmetric (hw.comp_comp_self hzero) hvec
  · have hsolves : normalMap n (penalty n lambda memory) memory (vec memory.length gamma) =
        adjoint (combine n Sample.residual memory) (vec n g) := by
      rw [hvec, hw.normalMap_apply hzero hreg hclear]
    have hpos := inner_normalMap_pos (tolerance_nonneg hzero n _ memory) hclear hreg
      (sub_ne_zero.mpr hz)
    rw [objective_eq_add (z := z) hsolves]
    linarith

end Coefficients

/-! ## Dependent differences -/

def twice : List (Sample ℝ) := [⟨#[1], #[1]⟩, ⟨#[1], #[1]⟩]

theorem penalty_twice : penalty 1 1 twice = 4 := by
  simp only [penalty, twice, List.map_cons, List.map_nil, ← real_inner_self_eq_norm_sq, inner_vec]
  norm_num

theorem objective_twice (x y : ℝ) :
    objective 1 4 twice (vec 1 #[3]) (vec twice.length #[x, y]) =
      (3 - (x + y)) ^ 2 + 4 * (x ^ 2 + y ^ 2) := by
  have hcombine : combine 1 Sample.residual twice (vec twice.length #[x, y]) = vec 1 #[x + y] := by
    rw [← sum_zip_toList 1 _ _ rfl]
    ext r
    rw [Fin.fin_one_eq_zero r]
    simp [twice, vec]
  have hnorm : ‖vec twice.length #[x, y]‖ ^ 2 = x ^ 2 + y ^ 2 := by
    rw [← real_inner_self_eq_norm_sq, inner_vec]
    simp [twice, Finset.sum_range_succ, sq]
  have hrest : vec 1 #[3] - vec 1 #[x + y] = vec 1 #[3 - (x + y)] := by
    ext r
    rw [Fin.fin_one_eq_zero r]
    rfl
  rw [objective, hcombine, hnorm, hrest, ← real_inner_self_eq_norm_sq, inner_vec]
  simp [sq]

theorem twice_coefficients_minimise :
    let _ : Spectral ℝ := .exact
    (0 : ℝ) ≤ 1 ∧ (∀ d ∈ twice, d.Sized 1) ∧
      (∀ e, Module.End.HasEigenvalue (normalMap 1 (penalty 1 1 twice) twice) e →
        tolerance 1 0 (penalty 1 1 twice) twice < e) ∧
      coefficients? 1 0 twice #[3] = some #[1 / 2, 1 / 2] := by
  let _ : Spectral ℝ := .exact
  have hsized : ∀ d ∈ twice, d.Sized 1 := by
    intro d hd
    simp only [twice, List.mem_cons, List.not_mem_nil, or_false, or_self] at hd
    exact hd ▸ ⟨rfl, rfl⟩
  have hclear : ∀ e, Module.End.HasEigenvalue (normalMap 1 (penalty 1 1 twice) twice) e →
      tolerance 1 0 (penalty 1 1 twice) twice < e := by
    intro e he
    obtain ⟨x, hx⟩ := he.exists_hasEigenvector
    have hle := reg_le_eigenvalue hx.2 hx.apply_eq_smul
    rw [penalty_twice] at hle
    rw [tolerance, zero_mul]
    linarith
  obtain ⟨gamma, hgamma, hsize, -, -, hmin⟩ := coefficients_minimise exactSpectrum_exact
    zero_le_one le_rfl hsized (g := #[3]) rfl
  refine ⟨zero_le_one, hsized, hclear, ?_⟩
  obtain ⟨x, y, hlist⟩ := List.length_eq_two.mp (gamma.length_toList.trans hsize)
  obtain rfl : gamma = #[x, y] := Array.toList_inj.mp hlist
  by_contra hne
  have hother : vec twice.length #[1 / 2, 1 / 2] ≠ vec twice.length #[x, y] := by
    intro hsame
    have harray : (#[1 / 2, 1 / 2] : Array ℝ) = #[x, y] := eq_of_vec_eq rfl rfl hsame
    exact hne (hgamma.trans (congrArg some harray.symm))
  have hless := hmin hclear _ hother
  rw [penalty_twice, objective_twice, objective_twice] at hless
  -- at one half each the slope vanishes, and the rest is a sum of squares
  nlinarith [sq_nonneg (x + y - 1), sq_nonneg (x - 1 / 2), sq_nonneg (y - 1 / 2)]

end Anderson

end Splitting
