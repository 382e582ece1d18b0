import Splitting.Proofs.Lengths

/-!
# Accepted problems

Parameters are valid if they break no rule. A problem is accepted if it has blocks, and the shape of
each coupling is that of its block and of the right-hand side. Its projection can be set up then.
-/

namespace Splitting

variable {σ F : Type}

namespace Problem

theorem couplingDefect?_eq_none {lenH l : Nat} {ps : List (Prox σ F)} {gs : List (Operator F)} :
    couplingDefect? lenH l ps gs = none ↔
      ∀ q g, (q, g) ∈ ps.zip gs → g.cols = q.dim ∧ g.rows = lenH := by
  induction ps generalizing l gs with
  | nil => simp [couplingDefect?]
  | cons p ps ih =>
    cases gs with
    | nil => simp [couplingDefect?]
    | cons g gs =>
      simp only [couplingDefect?, List.zip_cons_cons, List.mem_cons, Prod.mk.injEq]
      constructor
      · intro h q g' hm
        split at h
        · cases h
        split at h
        · cases h
        rcases hm with ⟨rfl, rfl⟩ | hm
        · omega
        · exact ih.mp h q g' hm
      · intro h
        obtain ⟨hc, hr⟩ := h p g (Or.inl ⟨rfl, rfl⟩)
        rw [if_neg (by omega), if_neg (by omega)]
        exact ih.mpr fun q g' hm => h q g' (Or.inr hm)

theorem shapeDefect?_eq_none {p : Problem σ F} :
    p.shapeDefect? = none ↔
      p.proxes ≠ [] ∧
        (p.couplings.length = p.proxes.length ∨ p.couplings = [] ∧ p.rhs.size = 0) ∧
        ∀ q g, (q, g) ∈ p.proxes.zip p.couplings → g.cols = q.dim ∧ g.rows = p.rhs.size := by
  unfold shapeDefect? shapeDefectOf?
  rw [← couplingDefect?_eq_none (l := 0), ← List.length_eq_zero_iff (l := p.couplings),
    ← List.length_pos_iff (l := p.proxes)]
  dsimp only
  split
  · simp only [reduceCtorEq, false_iff]
    omega
  · constructor
    · intro h
      exact ⟨by omega, by omega, h⟩
    · exact fun h => h.2.2

theorem lengthDefect?_eq_none {l : Nat} {ps : List (Prox σ F)} {vs : List (Array F)}
    (hl : vs.length = ps.length) :
    lengthDefect? l ps vs = none ↔ vs.map Array.size = ps.map Prox.dim := by
  induction ps generalizing l vs with
  | nil =>
    obtain rfl := List.length_eq_zero_iff.mp hl
    simp [lengthDefect?]
  | cons p ps ih =>
    cases vs with
    | nil => simp at hl
    | cons v vs =>
      simp only [lengthDefect?, List.map_cons, List.cons.injEq]
      rw [← ih (l := l + 1) (by simpa using hl)]
      by_cases hv : v.size = p.dim <;> simp [hv]

theorem initDefect?_eq_none {p : Problem σ F} {vs : List (Array F)} :
    p.initDefect? vs = none ↔ vs.map Array.size = p.dims := by
  unfold initDefect?
  split
  · rename_i hl
    simp only [reduceCtorEq, false_iff]
    intro h
    exact hl (by simpa [dims] using congrArg List.length h)
  · rename_i hl
    exact lengthDefect?_eq_none (by omega)

theorem exists_of_mem_zip_dims {gs : List (Operator F)} {ps : List (Prox σ F)} {g : Operator F}
    {n : Nat} (h : (g, n) ∈ gs.zip (ps.map Prox.dim)) :
    g ∈ gs ∧ ∃ q, (q, g) ∈ ps.zip gs ∧ q.dim = n := by
  induction gs generalizing ps with
  | nil => simp at h
  | cons g' gs ih =>
    cases ps with
    | nil => simp at h
    | cons p ps =>
      simp only [List.map_cons, List.zip_cons_cons, List.mem_cons, Prod.mk.injEq] at h ⊢
      rcases h with ⟨rfl, rfl⟩ | h
      · exact ⟨Or.inl rfl, p, Or.inl ⟨rfl, rfl⟩, rfl⟩
      · obtain ⟨hg, q, hq, hd⟩ := ih h
        exact ⟨Or.inr hg, q, Or.inr hq, hd⟩

structure Sound (p : Problem σ F) (rho : F) : Prop where
  proxes : ∀ q ∈ p.proxes, q.Sound rho
  couplings : ∀ g ∈ p.couplings, g.Sound

theorem partsFit {p : Problem σ F} (hs : ∀ g ∈ p.couplings, g.Sound)
    (h : p.shapeDefect? = none) :
    Projection.PartsFit (p.couplings.zip p.dims) p.rhs.size := by
  intro g n hg
  obtain ⟨hmem, q, hq, rfl⟩ := exists_of_mem_zip_dims hg
  obtain ⟨-, -, hfit⟩ := shapeDefect?_eq_none.mp h
  obtain ⟨hc, hr⟩ := hfit q g hq
  exact ⟨hs g hmem, hc, hr⟩

theorem dims_of_parts {p : Problem σ F} (h : p.shapeDefect? = none) (hm : p.rhs.size ≠ 0) :
    (p.couplings.zip p.dims).map Prod.snd = p.dims := by
  obtain ⟨-, hlen, -⟩ := shapeDefect?_eq_none.mp h
  apply List.map_snd_zip
  have : p.dims.length = p.proxes.length := by simp [dims]
  rcases hlen with hlen | ⟨-, h0⟩
  · omega
  · exact absurd h0 hm

end Problem

variable [Scalar F]

theorem Params.broken?_eq_none {par : Params F} :
    par.broken? = none ↔ par.maxIter ≠ some 0 ∧ 0 < par.rho ∧ 0 ≤ par.epsAbs ∧ 0 ≤ par.epsRel ∧
      par.memory ≠ 0 ∧ 0 ≤ par.lambda := by
  unfold broken?
  split
  · simp [*]
  split
  · simp [*]
  split
  · rename_i h
    simp only [reduceCtorEq, false_iff]
    rintro ⟨-, -, habs, hrel, -⟩
    exact h.elim (fun h => h habs) fun h => h hrel
  rename_i hmax hrho heps
  obtain ⟨habs, hrel⟩ := not_or.mp heps
  split
  · simp [*]
  split
  · simp [*]
  · rename_i hmem hlam
    exact iff_of_true rfl ⟨hmax, Decidable.not_not.mp hrho, Decidable.not_not.mp habs,
      Decidable.not_not.mp hrel, hmem, Decidable.not_not.mp hlam⟩

theorem Params.limit_pos {par : Params F} (h : par.broken? = none) {budget : Nat}
    (hbudget : 0 < budget) : 0 < par.maxIter.getD budget := by
  obtain ⟨hmax, -⟩ := broken?_eq_none.mp h
  cases hM : par.maxIter with
  | none => exact hbudget
  | some M =>
    rw [hM] at hmax
    exact Nat.pos_of_ne_zero fun h0 => hmax (congrArg some h0)

variable [Spectral F]

namespace Projection

theorem ofCouplings?_of_partsFit {couplings : List (Operator F)} {dims : List Nat} {rhs : Array F}
    (h : PartsFit (couplings.zip dims) rhs.size) (epsZero : F) :
    ∃ proj, ofCouplings? couplings dims rhs epsZero = some proj ∧
      proj.parts = couplings.zip dims ∧ proj.rhs = rhs ∧ proj.pinv.shape = .packed rhs.size := by
  unfold ofCouplings?
  dsimp only
  split
  · exact ⟨_, rfl, rfl, rfl, rfl⟩
  · obtain ⟨gram, hg, hshape⟩ := gram?_total h
    refine ⟨⟨couplings.zip dims, rhs, pseudoInverse epsZero gram⟩, by rw [hg]; rfl, rfl, rfl, ?_⟩
    simp [pseudoInverse, hshape]

theorem ofCouplings?_total {p : Problem σ F} (hs : ∀ g ∈ p.couplings, g.Sound)
    (h : p.shapeDefect? = none) (epsZero : F) :
    ∃ proj, ofCouplings? p.couplings p.dims p.rhs epsZero = some proj :=
  (ofCouplings?_of_partsFit (Problem.partsFit hs h) epsZero).imp fun _ hp => hp.1

theorem parts_of_ofCouplings? {couplings : List (Operator F)} {dims : List Nat}
    {rhs : Array F} {epsZero : F} {proj : Projection F}
    (h : ofCouplings? couplings dims rhs epsZero = some proj) :
    proj.parts = couplings.zip dims ∧ proj.rhs = rhs := by
  unfold ofCouplings? at h
  dsimp only at h
  split at h
  · cases h
    exact ⟨rfl, rfl⟩
  · obtain ⟨gram, -, hp⟩ := Option.bind_eq_some_iff.mp h
    cases hp
    exact ⟨rfl, rfl⟩

theorem fits_of_ofCouplings? {p : Problem σ F} (hs : ∀ g ∈ p.couplings, g.Sound)
    (h : p.shapeDefect? = none) {epsZero : F} {proj : Projection F}
    (hp : ofCouplings? p.couplings p.dims p.rhs epsZero = some proj) :
    proj.parts = p.couplings.zip p.dims ∧ proj.rhs = p.rhs ∧ proj.Fits (total p.dims) := by
  have hparts := Problem.partsFit hs h
  obtain ⟨proj', hp', hzip, hrhs, hshape⟩ := ofCouplings?_of_partsFit hparts epsZero
  rw [hp] at hp'
  cases hp'
  refine ⟨hzip, hrhs, ?_, fun ha => ?_, ?_⟩
  · rw [hzip, hrhs]
    exact hparts
  · have hrows : p.rhs.size ≠ 0 := by
      simp only [active, hrhs, Bool.and_eq_true, decide_eq_true_eq] at ha
      exact Nat.ne_of_gt ha.1
    rw [hzip, Problem.dims_of_parts h hrows]
  · rw [hrhs]
    exact hshape

end Projection

end Splitting
