import Splitting.Proofs.Real.Iteration
import Splitting.Proofs.Real.Prox
import Splitting.Proofs.Real.PseudoInverse

/-!
# Iterations contract

Where the weight inverts `A Aᵀ` on the range of `A`, the projection is the orthogonal one onto the
feasible points. Whatever is cut off, it stays orthogonal. Then an iteration with firmly
nonexpansive operators brings two points closer, by at least what their residuals differ.
-/

namespace Splitting

namespace Projection

/-! ## The orthogonal projection -/

variable {p : Projection ℝ} {n : ℕ}

/-- `Aᵀ W A u`. -/
noncomputable def reached (p : Projection ℝ) (n : ℕ) :
    EuclideanSpace ℝ (Fin n) →ₗ[ℝ] EuclideanSpace ℝ (Fin n) :=
  p.transposed n ∘ₗ p.weight ∘ₗ p.coupling n

theorem unreached_eq (p : Projection ℝ) (u : EuclideanSpace ℝ (Fin n)) :
    p.unreached n u = u - p.reached n u := rfl

/-- What is reached of a vector is orthogonal to what is not. -/
structure Orthogonal (p : Projection ℝ) (n : ℕ) : Prop where
  inner_reached : ∀ u, inner ℝ (p.reached n u) (p.reached n u) = inner ℝ (p.reached n u) u

theorem Reproduces.orthogonal (h : p.Reproduces n) : p.Orthogonal n := by
  refine ⟨fun u => ?_⟩
  show inner ℝ (p.transposed n (p.weight (p.coupling n u)))
    (p.transposed n (p.weight (p.coupling n u))) = _
  rw [inner_transposed, h u, ← inner_transposed]
  rfl

theorem orthogonal_of_exact [Spectral ℝ] (hexact : ExactSpectrum) {gs : List (Operator ℝ)}
    {dims : List ℕ} {rhs : Array ℝ} {epsZero : ℝ} (hzero : 0 ≤ epsZero) (hlin : p.Linear n)
    (hp : ofCouplings? gs dims rhs epsZero = some p) : p.Orthogonal n := by
  refine ⟨fun u => ?_⟩
  cases ha : p.active with
  | false =>
    have := hlin.subsingleton ha
    have hnone : p.reached n u = 0 := by
      show p.transposed n (p.weight (p.coupling n u)) = 0
      rw [Subsingleton.elim (p.weight _) 0, map_zero]
    rw [hnone, inner_zero_left, inner_zero_left]
  | true =>
    obtain ⟨gram, -, -, -, hweight⟩ := weight_of_eigenvector hexact hlin hp ha
    have hgram := isSymmetric_gram (p.coupling n)
    have hsymm := isSymmetric_of_eigenvalues hgram _ hweight
    have hself := LinearMap.congr_fun (comp_comp_self_of_eigenvalues hgram _ hweight
      (cutoffRecip_mul_self (cutoff_nonneg hzero gram))) (p.coupling n u)
    set y := p.coupling n u
    rw [adjoint_coupling] at hself
    calc inner ℝ (p.transposed n (p.weight y)) (p.transposed n (p.weight y))
        = inner ℝ (p.weight y) (p.coupling n (p.transposed n (p.weight y))) :=
          inner_transposed p _ _
      _ = inner ℝ y (p.weight (p.coupling n (p.transposed n (p.weight y)))) := hsymm y _
      _ = inner ℝ y (p.weight y) := congrArg _ hself
      _ = inner ℝ (p.weight y) y := (hsymm y y).symm
      _ = inner ℝ (p.transposed n (p.weight y)) u := (inner_transposed p _ _).symm

theorem Reproduces.norm_unreached_le (h : p.Reproduces n) (u : EuclideanSpace ℝ (Fin n)) :
    ‖p.unreached n u‖ ≤ ‖u‖ := by
  have hsq : ‖p.unreached n u‖ ^ 2 = ‖u‖ ^ 2 - ‖p.reached n u‖ ^ 2 := by
    rw [unreached_eq, norm_sub_sq_real, real_inner_comm, ← h.orthogonal.inner_reached,
      real_inner_self_eq_norm_sq]
    ring
  have hle : ‖p.unreached n u‖ ^ 2 ≤ ‖u‖ ^ 2 := by
    rw [hsq]
    linarith [sq_nonneg ‖p.reached n u‖]
  exact le_of_sq_le_sq hle (norm_nonneg u)

theorem Reproduces.unreached_reached (h : p.Reproduces n) (u : EuclideanSpace ℝ (Fin n)) :
    p.unreached n (p.reached n u) = 0 := by
  have hself : p.reached n (p.reached n u) = p.reached n u := by
    show p.transposed n (p.weight (p.coupling n
      (p.transposed n (p.weight (p.coupling n u))))) = _
    rw [h u]
    rfl
  rw [unreached_eq, hself, sub_self]

theorem unreached_add (p : Projection ℝ) (u v : EuclideanSpace ℝ (Fin n)) :
    p.unreached n (u + v) = p.unreached n u + p.unreached n v := by
  rw [unreached_eq, unreached_eq, unreached_eq, map_add]
  abel

theorem unreached_smul (p : Projection ℝ) (t : ℝ) (u : EuclideanSpace ℝ (Fin n)) :
    p.unreached n (t • u) = t • p.unreached n u := by
  rw [unreached_eq, unreached_eq, map_smul, smul_sub]

theorem nearest_eq {z : EuclideanSpace ℝ (Fin n)} (hz : p.coupling n z = vec p.rhs.size p.rhs)
    (u : EuclideanSpace ℝ (Fin n)) : p.nearest n u = u - p.reached n (u - z) := by
  unfold nearest
  rw [← hz, ← map_sub]
  rfl

theorem Reproduces.coupling_nearest (h : p.Reproduces n) {z : EuclideanSpace ℝ (Fin n)}
    (hz : p.coupling n z = vec p.rhs.size p.rhs) (u : EuclideanSpace ℝ (Fin n)) :
    p.coupling n (p.nearest n u) = vec p.rhs.size p.rhs := by
  have hA : p.coupling n (p.reached n (u - z)) = p.coupling n (u - z) := h (u - z)
  rw [nearest_eq hz, map_sub, hA, map_sub, hz]
  abel

theorem nearest_sub_nearest (p : Projection ℝ) (u v : EuclideanSpace ℝ (Fin n)) :
    p.nearest n u - p.nearest n v = (u - v) - p.reached n (u - v) := by
  have hlin : p.reached n (u - v) =
      p.transposed n (p.weight (p.coupling n u - vec p.rhs.size p.rhs)) -
        p.transposed n (p.weight (p.coupling n v - vec p.rhs.size p.rhs)) := by
    rw [← map_sub, ← map_sub, sub_sub_sub_cancel_right, ← map_sub]
    rfl
  rw [hlin, nearest, nearest]
  abel

/-! ## Residuals -/

theorem Reproduces.gap_eq (h : p.Reproduces n) {z : EuclideanSpace ℝ (Fin n)}
    (hz : p.coupling n z = vec p.rhs.size p.rhs) (x u : EuclideanSpace ℝ (Fin n)) :
    p.coupling n x - vec p.rhs.size p.rhs = p.coupling n (x - p.nearest n u) := by
  rw [map_sub, h.coupling_nearest hz]

theorem Reproduces.unreached_slope (h : p.Reproduces n) {z : EuclideanSpace ℝ (Fin n)}
    (hz : p.coupling n z = vec p.rhs.size p.rhs) (v x : EuclideanSpace ℝ (Fin n)) :
    p.unreached n (v - x) = p.unreached n (x - p.nearest n ((2 : ℝ) • x - v)) := by
  have hres : x - p.nearest n ((2 : ℝ) • x - v) =
      (v - x) + p.reached n ((2 : ℝ) • x - v - z) := by
    rw [nearest_eq hz, two_smul]
    abel
  rw [hres, unreached_add, h.unreached_reached, add_zero]

end Projection

/-! ## Firmly nonexpansive steps -/

theorem norm_sq_step_le {E : Type} [NormedAddCommGroup E] [InnerProductSpace ℝ E] {d e r : E}
    (he : inner ℝ e e ≤ inner ℝ e d) (hr : inner ℝ r r = inner ℝ r ((2 : ℝ) • e - d)) :
    ‖d - (d - e + r)‖ ^ 2 + ‖d - e + r‖ ^ 2 ≤ ‖d‖ ^ 2 := by
  have hfirm : ‖d - e + r‖ ^ 2 ≤ inner ℝ d (d - e + r) := by
    rw [← real_inner_self_eq_norm_sq]
    simp only [inner_add_left, inner_add_right, inner_sub_left, inner_sub_right,
      inner_smul_right, real_inner_comm] at he hr ⊢
    linarith
  rw [norm_sub_sq_real]
  linarith

namespace Solver

variable {σ : Type}

theorem Answers.sum_firm {ps : List (Prox σ ℝ)} {rho : ℝ}
    (hf : ∀ q ∈ ps, q.FirmlyNonexpansive rho) {v v' : Array ℝ} {start : ℕ}
    {xs xs' : List (Array ℝ)} {w u w' u' : World σ ℝ} (h : Answers rho v ps start w xs u)
    (h' : Answers rho v' ps start w' xs' u') :
    ∑ i ∈ Finset.range (total (ps.map Prox.dim)),
        ((stack xs).getD i 0 - (stack xs').getD i 0) *
          ((stack xs).getD i 0 - (stack xs').getD i 0) ≤
      ∑ i ∈ Finset.range (total (ps.map Prox.dim)),
        ((stack xs).getD i 0 - (stack xs').getD i 0) *
          (v.getD (start + i) 0 - v'.getD (start + i) 0) := by
  induction h generalizing xs' w' with
  | nil => simp
  | @cons p ps start x xs w t u hx _ ih =>
    cases h' with
    | @cons _ _ _ x' xs' _ t' _ hx' h' =>
      obtain ⟨hv, -, heval, hxs⟩ := apply_eq_ok.mp hx
      obtain ⟨hv', -, heval', hxs'⟩ := apply_eq_ok.mp hx'
      have hblock := (hf p (by simp)).le _ _ _ _ _ _ _ _ hv hv' heval heval'
      rw [inner_sub_sub, inner_sub_sub] at hblock
      have htail := ih (fun q hq => hf q (by simp [hq])) h'
      have hleft := sum_append hxs hxs' (stack xs) (stack xs') (total (ps.map Prox.dim))
        fun _ a b => (a - b) * (a - b)
      have hright := sum_append hxs hxs' (stack xs) (stack xs') (total (ps.map Prox.dim))
        fun i a b => (a - b) * (v.getD (start + i) 0 - v'.getD (start + i) 0)
      simp only [List.map_cons, total_cons, stack_cons]
      rw [hleft, hright]
      have hfirst := Projection.sum_extract hv fun i a =>
        (x.getD i 0 - x'.getD i 0) * (a - (v'.extract start (start + p.dim)).getD i 0)
      have hsecond := Projection.sum_extract hv' fun i a =>
        (x.getD i 0 - x'.getD i 0) * (v.getD (start + i) 0 - a)
      rw [hfirst, hsecond] at hblock
      simp only [Nat.add_assoc] at htail
      exact add_le_add hblock htail

theorem Answers.inner_firm {ps : List (Prox σ ℝ)} {rho : ℝ}
    (hf : ∀ q ∈ ps, q.FirmlyNonexpansive rho) {v v' : Array ℝ} {xs xs' : List (Array ℝ)}
    {w u w' u' : World σ ℝ} (h : Answers rho v ps 0 w xs u) (h' : Answers rho v' ps 0 w' xs' u')
    {n : ℕ} (hn : total (ps.map Prox.dim) = n) :
    inner ℝ (vec n (stack xs) - vec n (stack xs')) (vec n (stack xs) - vec n (stack xs')) ≤
      inner ℝ (vec n (stack xs) - vec n (stack xs')) (vec n v - vec n v') := by
  have hle := h.sum_firm hf h'
  rw [inner_sub_sub, inner_sub_sub, ← hn]
  simpa only [Nat.zero_add] using hle

/-- Two iterations bring their points closer, by at least what their residuals differ. -/
theorem norm_sq_image_sub_le {par : Params ℝ} {proxes : List (Prox σ ℝ)} {proj : Projection ℝ}
    {n : ℕ} (hlin : proj.Linear n) (horth : proj.Orthogonal n)
    (hf : ∀ q ∈ proxes, q.FirmlyNonexpansive par.rho) (hn : total (proxes.map Prox.dim) = n)
    {q q' : Progress ℝ} (hq : q.Sized n proj.rhs.size) (hq' : q'.Sized n proj.rhs.size)
    {w v w' v' : World σ ℝ} {s s' : Sight ℝ} (hs : look par proxes proj q w = .ok s v)
    (hs' : look par proxes proj q' w' = .ok s' v') :
    ‖vec n s.measure.image - vec n s'.measure.image‖ ^ 2 +
        ‖vec n s.measure.residual - vec n s'.measure.residual‖ ^ 2 ≤
      ‖vec n q.v - vec n q'.v‖ ^ 2 := by
  obtain ⟨xs, hxs, hx⟩ := proxPoints_eq_ok.mp (look_eq_ok.mp hs).1
  obtain ⟨xs', hxs', hx'⟩ := proxPoints_eq_ok.mp (look_eq_ok.mp hs').1
  rw [Array.empty_append] at hx hx'
  obtain ⟨-, -, hres, himage⟩ := look_vec hlin hn hq hs
  obtain ⟨-, -, hres', himage'⟩ := look_vec hlin hn hq' hs'
  have hfirm := hxs.inner_firm hf hxs' hn
  rw [← hx, ← hx'] at hfirm
  have hreflect : ((2 : ℝ) • vec n s.x - vec n q.v) - ((2 : ℝ) • vec n s'.x - vec n q'.v) =
      (2 : ℝ) • (vec n s.x - vec n s'.x) - (vec n q.v - vec n q'.v) := by module
  have hnear := proj.nearest_sub_nearest ((2 : ℝ) • vec n s.x - vec n q.v)
    ((2 : ℝ) • vec n s'.x - vec n q'.v)
  rw [hreflect] at hnear
  have hres_sub : vec n s.measure.residual - vec n s'.measure.residual =
      vec n q.v - vec n q'.v - (vec n s.x - vec n s'.x) + proj.reached n
        ((2 : ℝ) • (vec n s.x - vec n s'.x) - (vec n q.v - vec n q'.v)) := by
    rw [hres, hres', sub_sub_sub_comm, hnear]
    module
  rw [himage, himage', sub_sub_sub_comm, hres_sub]
  exact norm_sq_step_le hfirm (horth.inner_reached _)

theorem norm_sq_image_sub_fixed_le {par : Params ℝ} {proxes : List (Prox σ ℝ)}
    {proj : Projection ℝ} {n : ℕ} (hlin : proj.Linear n) (horth : proj.Orthogonal n)
    (hf : ∀ q ∈ proxes, q.FirmlyNonexpansive par.rho) (hn : total (proxes.map Prox.dim) = n)
    {q f : Progress ℝ} (hq : q.Sized n proj.rhs.size) (hfs : f.Sized n proj.rhs.size)
    {w v w' v' : World σ ℝ} {s t : Sight ℝ} (hs : look par proxes proj q w = .ok s v)
    (ht : look par proxes proj f w' = .ok t v') (hfix : t.measure.image = f.v) :
    ‖vec n s.measure.image - vec n f.v‖ ^ 2 + ‖vec n s.measure.residual‖ ^ 2 ≤
      ‖vec n q.v - vec n f.v‖ ^ 2 := by
  have hclose := norm_sq_image_sub_le hlin horth hf hn hq hfs hs ht
  obtain ⟨-, -, -, himage⟩ := look_vec hlin hn hfs ht
  rw [hfix] at hclose himage
  have hzero : vec n t.measure.residual = 0 := sub_eq_self.mp himage.symm
  rwa [hzero, sub_zero] at hclose

end Solver

end Splitting
