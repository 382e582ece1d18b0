import Splitting.Proofs.Order

/-!
# Refusals

What a solve asks of its parameters, its problem and its starting point, in the order in which it
looks. It goes on to its iterations if everything is met. Otherwise it refuses, and reports the
first requirement that is not met, with the sizes that it has found and wanted there.
-/

namespace Splitting

variable {σ τ F : Type}

/-! ## What is asked -/

/-- There are blocks, and each is coupled by an operator of its size, or none is. -/
structure Problem.Shaped (p : Problem σ F) : Prop where
  blocks : p.proxes ≠ []
  coupled : p.couplings = [] ∧ p.rhs.size = 0 ∨ p.couplings.length = p.proxes.length ∧
    ∀ (l : Nat) q g, p.proxes[l]? = some q → p.couplings[l]? = some g →
      g.cols = q.dim ∧ g.rows = p.rhs.size

/-- The parameters are numbers in range. -/
structure Params.Valid [Scalar F] (par : Params F) : Prop where
  maxIter : par.maxIter ≠ some 0
  rho : 0 < par.rho
  epsAbs : 0 ≤ par.epsAbs
  epsRel : 0 ≤ par.epsRel
  memory : 0 < par.memory
  lambda : 0 ≤ par.lambda

structure Solver.Accepted [Scalar F] (par : Params F) (init : Option (List (Array F)))
    (p : Problem σ F) : Prop where
  params : par.Valid
  shaped : p.Shaped
  /-- A starting point, if there is one, has a vector for each block, of its dimension. -/
  start : ∀ vs, init = some vs → vs.map Array.size = p.dims

/-- One thing that is asked; what is asked of a block comes with its number. -/
inductive Requirement where
  | param (rule : ParamRule)
  | blockCount
  | cols (block : Nat)
  | rows (block : Nat)
  | initCount
  | initLength (block : Nat)

def ParamRule.rank : ParamRule → Nat
  | maxIter => 0
  | rho => 1
  | tolerances => 2
  | memory => 3
  | lambda => 4

/-- Where a requirement stands: parameters come before shapes and shapes before starting points,
blocks come in order, and columns before rows. -/
def Requirement.rank : Requirement → Nat × Nat
  | param rule => (0, rule.rank)
  | blockCount => (1, 0)
  | cols block => (2, 2 * block)
  | rows block => (2, 2 * block + 1)
  | initCount => (3, 0)
  | initLength block => (4, block)

@[simp] theorem Requirement.rank_initLength (l : Nat) : (initLength l).rank = (4, l) := rfl

/-- The first requirement is looked at before the second. -/
def Requirement.Before (r r' : Requirement) : Prop :=
  r.rank.1 < r'.rank.1 ∨ r.rank.1 = r'.rank.1 ∧ r.rank.2 < r'.rank.2

theorem Requirement.eq_of_not_before {r r' : Requirement} (h : ¬ r.Before r') (h' : ¬ r'.Before r) :
    r = r' := by
  have hrank : r.rank.1 = r'.rank.1 ∧ r.rank.2 = r'.rank.2 := by
    unfold Before at h h'
    omega
  cases r with
  | param rule =>
    cases r' with
    | param rule' => cases rule <;> cases rule' <;> simp_all [rank, ParamRule.rank]
    | _ => simp [rank] at hrank
  | _ => cases r' <;> simp [rank] at hrank ⊢ <;> omega

namespace Solver

variable [Scalar F] {par : Params F} {init : Option (List (Array F))} {p : Problem σ F}

/-- The requirement is not met, which is the defect. -/
inductive Unmet (par : Params F) (init : Option (List (Array F))) (p : Problem σ F) :
    Requirement → Defect → Prop
  | maxIter : par.maxIter = some 0 → Unmet par init p (.param .maxIter) (.param .maxIter)
  | rho : ¬ 0 < par.rho → Unmet par init p (.param .rho) (.param .rho)
  | tolerances : ¬ (0 ≤ par.epsAbs ∧ 0 ≤ par.epsRel) →
    Unmet par init p (.param .tolerances) (.param .tolerances)
  | memory : par.memory = 0 → Unmet par init p (.param .memory) (.param .memory)
  | lambda : ¬ 0 ≤ par.lambda → Unmet par init p (.param .lambda) (.param .lambda)
  | blockCount : p.proxes = [] ∨ p.couplings.length ≠ p.proxes.length ∧
      ¬ (p.couplings = [] ∧ p.rhs.size = 0) →
    Unmet par init p .blockCount
      (.blockCount p.proxes.length p.couplings.length p.rhs.size)
  | cols {l : Nat} {q : Prox σ F} {g : Operator F} :
    p.proxes[l]? = some q → p.couplings[l]? = some g → g.cols ≠ q.dim →
      Unmet par init p (.cols l) (.colMismatch l g.rows g.cols q.dim)
  | rows {l : Nat} {q : Prox σ F} {g : Operator F} :
    p.proxes[l]? = some q → p.couplings[l]? = some g → g.rows ≠ p.rhs.size →
      Unmet par init p (.rows l) (.rowMismatch l g.rows g.cols p.rhs.size)
  | initCount {vs : List (Array F)} : init = some vs → vs.length ≠ p.proxes.length →
    Unmet par init p .initCount (.initCount p.proxes.length vs.length)
  | initLength {vs : List (Array F)} {l : Nat} {q : Prox σ F} {v : Array F} :
    init = some vs → p.proxes[l]? = some q → vs[l]? = some v → v.size ≠ q.dim →
      Unmet par init p (.initLength l) (.initMismatch l v.size q.dim)

/-- The defect is that of the first requirement that is not met. -/
def FirstUnmet (par : Params F) (init : Option (List (Array F))) (p : Problem σ F) (d : Defect) :
    Prop :=
  ∃ r, Unmet par init p r d ∧ ∀ r' d', Unmet par init p r' d' → ¬ r'.Before r

theorem Unmet.unique {r : Requirement} {d d' : Defect} (h : Unmet par init p r d)
    (h' : Unmet par init p r d') : d = d' := by
  cases h <;> cases h' <;> simp_all

theorem FirstUnmet.unique {d d' : Defect} (h : FirstUnmet par init p d)
    (h' : FirstUnmet par init p d') : d = d' := by
  obtain ⟨r, hr, hfirst⟩ := h
  obtain ⟨r', hr', hfirst'⟩ := h'
  obtain rfl := Requirement.eq_of_not_before (hfirst' r d hr) (hfirst r' d' hr')
  exact hr.unique hr'

/-! ## The checks find it -/

end Solver

theorem Params.broken?_eq_none_iff_valid [Scalar F] {par : Params F} :
    par.broken? = none ↔ par.Valid := by
  rw [broken?_eq_none]
  constructor
  · rintro ⟨hmax, hrho, habs, hrel, hmem, hlam⟩
    exact ⟨hmax, hrho, habs, hrel, Nat.pos_of_ne_zero hmem, hlam⟩
  · rintro ⟨hmax, hrho, habs, hrel, hmem, hlam⟩
    exact ⟨hmax, hrho, habs, hrel, Nat.ne_of_gt hmem, hlam⟩

namespace Problem

theorem shapeDefect?_eq_none_iff_shaped {p : Problem σ F} : p.shapeDefect? = none ↔ p.Shaped := by
  have hzip : (∀ q g, (q, g) ∈ p.proxes.zip p.couplings → g.cols = q.dim ∧ g.rows = p.rhs.size) ↔
      ∀ (l : Nat) q g, p.proxes[l]? = some q → p.couplings[l]? = some g →
        g.cols = q.dim ∧ g.rows = p.rhs.size := by
    constructor
    · exact fun h l q g hq hg =>
        h q g (List.mem_of_getElem? (List.getElem?_zip_eq_some.mpr ⟨hq, hg⟩))
    · intro h q g hm
      obtain ⟨l, hl⟩ := List.mem_iff_getElem?.mp hm
      obtain ⟨hq, hg⟩ := List.getElem?_zip_eq_some.mp hl
      exact h l q g hq hg
  rw [shapeDefect?_eq_none, hzip]
  constructor
  · rintro ⟨hne, hlen | hempty, hfit⟩
    · exact ⟨hne, Or.inr ⟨hlen, hfit⟩⟩
    · exact ⟨hne, Or.inl hempty⟩
  · rintro ⟨hne, hempty | ⟨hlen, hfit⟩⟩
    · exact ⟨hne, Or.inr hempty, by simp [hempty.1]⟩
    · exact ⟨hne, Or.inl hlen, hfit⟩

end Problem

namespace Solver

variable [Scalar F] {par : Params F} {init : Option (List (Array F))} {p : Problem σ F}

theorem defect?_eq_none_iff_accepted : defect? par init p = none ↔ Accepted par init p := by
  rw [defect?_eq_none, Params.broken?_eq_none_iff_valid, Problem.shapeDefect?_eq_none_iff_shaped]
  constructor
  · rintro ⟨hv, hs, hi⟩
    exact ⟨hv, hs, hi⟩
  · rintro ⟨hv, hs, hi⟩
    exact ⟨hv, hs, hi⟩

variable [Spectral F]

end Solver

end Splitting
