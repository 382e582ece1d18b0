import Splitting.Proofs.Safety
import Splitting.Spectrum.Rotation

/-!
# Vectors in bounds

A guarded operator refuses every vector that is not of its size, so a slice that is cut short shows
as a misuse. A run of an accepted problem is the same with guarded operators, and is no misuse.
-/

namespace Splitting

variable {σ F : Type}

/-! ## Guarded operators -/

namespace Operator

/-- The operator, refusing vectors that are not of its size. -/
def guarded (g : Operator F) : Operator F where
  rows := g.rows
  cols := g.cols
  apply alpha x beta y :=
    if x.size = g.cols ∧ y.size = g.rows then g.apply alpha x beta y else none
  applyTransposed alpha x beta y :=
    if x.size = g.rows ∧ y.size = g.cols then g.applyTransposed alpha x beta y else none
  addAbsCols := g.addAbsCols
  addAbsRows := g.addAbsRows

theorem apply_of_guarded {g : Operator F} {alpha beta : F} {x y z : Array F}
    (h : g.guarded.apply alpha x beta y = some z) : g.apply alpha x beta y = some z := by
  unfold guarded at h
  dsimp only at h
  split at h
  · exact h
  · cases h

theorem applyTransposed_of_guarded {g : Operator F} {alpha beta : F} {x y z : Array F}
    (h : g.guarded.applyTransposed alpha x beta y = some z) :
    g.applyTransposed alpha x beta y = some z := by
  unfold guarded at h
  dsimp only at h
  split at h
  · exact h
  · cases h

theorem Sound.guarded {g : Operator F} (h : g.Sound) : g.guarded.Sound := by
  constructor
  · intro alpha x beta y hx hy
    obtain ⟨z, hz, hs⟩ := h.apply alpha x beta y hx hy
    exact ⟨z, (if_pos ⟨hx, hy⟩).trans hz, hs⟩
  · intro alpha x beta y hx hy
    obtain ⟨z, hz, hs⟩ := h.applyTransposed alpha x beta y hx hy
    exact ⟨z, (if_pos ⟨hx, hy⟩).trans hz, hs⟩

end Operator

namespace Problem

def guarded (p : Problem σ F) : Problem σ F := { p with couplings := p.couplings.map .guarded }

theorem shapeDefect?_guarded (p : Problem σ F) : p.guarded.shapeDefect? = p.shapeDefect? := by
  have hcouplings : ∀ l (ps : List (Prox σ F)) (gs : List (Operator F)),
      couplingDefect? p.rhs.size l ps (gs.map .guarded) = couplingDefect? p.rhs.size l ps gs := by
    intro l ps gs
    induction ps generalizing l gs with
    | nil => cases gs <;> rfl
    | cons q ps ih =>
      cases gs with
      | nil => rfl
      | cons g gs =>
        rw [List.map_cons, couplingDefect?, couplingDefect?, ih]
        rfl
  unfold shapeDefect? shapeDefectOf? guarded
  rw [List.length_map, hcouplings]

theorem Sound.guarded {p : Problem σ F} {rho : F} (h : p.Sound rho) : p.guarded.Sound rho := by
  refine ⟨h.proxes, fun g hg => ?_⟩
  obtain ⟨f, hf, rfl⟩ := List.mem_map.mp hg
  exact (h.couplings f hf).guarded

end Problem

/-! ## Kernels -/

variable [Scalar F]

namespace Projection

def guardedParts (parts : List (Operator F × Nat)) : List (Operator F × Nat) :=
  parts.map fun part => (part.1.guarded, part.2)

def guarded (p : Projection F) : Projection F := { p with parts := guardedParts p.parts }

theorem addGram?_of_guarded {e : Array F} {parts : List (Operator F × Nat)} {y z : Array F}
    (h : addGram? e (guardedParts parts) y = some z) : addGram? e parts y = some z := by
  induction parts generalizing y with
  | nil => exact h
  | cons part parts ih =>
    simp only [guardedParts, List.map_cons, addGram?, Option.bind_eq_bind,
      Option.bind_eq_some_iff] at h ⊢
    obtain ⟨w, hw, u, hu, h⟩ := h
    exact ⟨w, Operator.applyTransposed_of_guarded hw, u, Operator.apply_of_guarded hu, ih h⟩

theorem gramColumns?_of_guarded {parts : List (Operator F × Nat)} {m left c : Nat}
    {last : Array F} {cols z : Array (Array F)}
    (h : gramColumns? (guardedParts parts) m left c last cols = some z) :
    gramColumns? parts m left c last cols = some z := by
  induction left generalizing c last cols with
  | zero => exact h
  | succ left ih =>
    simp only [gramColumns?, Option.bind_eq_bind, Option.bind_eq_some_iff] at h ⊢
    obtain ⟨col, hcol, h⟩ := h
    exact ⟨col, addGram?_of_guarded hcol, ih h⟩

theorem gram?_of_guarded {parts : List (Operator F × Nat)} {m : Nat} {a : Matrix F}
    (h : gram? (guardedParts parts) m = some a) : gram? parts m = some a := by
  simp only [gram?, Option.bind_eq_bind, Option.bind_eq_some_iff] at h ⊢
  obtain ⟨cols, hc, h⟩ := h
  exact ⟨cols, gramColumns?_of_guarded hc, h⟩

theorem addCoupled?_of_guarded {x y z : Array F} {parts : List (Operator F × Nat)} {start : Nat}
    (h : addCoupled? x (guardedParts parts) start y = some z) :
    addCoupled? x parts start y = some z := by
  induction parts generalizing start y with
  | nil => exact h
  | cons part parts ih =>
    simp only [guardedParts, List.map_cons, addCoupled?, Option.bind_eq_bind,
      Option.bind_eq_some_iff] at h ⊢
    obtain ⟨w, hw, h⟩ := h
    exact ⟨w, Operator.apply_of_guarded hw, ih h⟩

theorem subTransposed?_of_guarded {w y done z : Array F} {parts : List (Operator F × Nat)}
    {start : Nat} (h : subTransposed? w y (guardedParts parts) start done = some z) :
    subTransposed? w y parts start done = some z := by
  induction parts generalizing start done with
  | nil => exact h
  | cons part parts ih =>
    simp only [guardedParts, List.map_cons, subTransposed?, Option.bind_eq_bind,
      Option.bind_eq_some_iff] at h ⊢
    obtain ⟨block, hb, h⟩ := h
    exact ⟨block, Operator.applyTransposed_of_guarded hb, ih h⟩

omit [Scalar F] in
theorem active_guarded (p : Projection F) : p.guarded.active = p.active := by
  unfold active guarded guardedParts
  cases p.parts <;> rfl

variable {p : Projection F}

theorem correct?_of_guarded {gap multiplier y : Array F} {z : Array F × Scratch F}
    (h : p.guarded.correct? gap multiplier y = some z) : p.correct? gap multiplier y = some z := by
  simp only [correct?, Option.bind_eq_bind, Option.bind_eq_some_iff] at h ⊢
  obtain ⟨w, hw, x, hx, h⟩ := h
  exact ⟨w, hw, x, subTransposed?_of_guarded hx, h⟩

theorem project?_of_guarded {s : Scratch F} {v : Array F} {z : Array F × Scratch F}
    (h : p.guarded.project? s v = some z) : p.project? s v = some z := by
  unfold project? at h ⊢
  rw [active_guarded] at h
  split
  · rename_i ha
    rw [if_pos ha] at h
    simp only [Option.bind_eq_bind, Option.bind_eq_some_iff] at h ⊢
    obtain ⟨gap, hg, h⟩ := h
    exact ⟨gap, addCoupled?_of_guarded hg, correct?_of_guarded h⟩
  · rename_i ha
    rwa [if_neg ha] at h

theorem residual?_of_guarded {s : Scratch F} {x : Array F} {z : F × Scratch F}
    (h : p.guarded.residual? s x = some z) : p.residual? s x = some z := by
  unfold residual? at h ⊢
  rw [active_guarded] at h
  split
  · rename_i ha
    rw [if_pos ha] at h
    simp only [Option.bind_eq_bind, Option.bind_eq_some_iff] at h ⊢
    obtain ⟨gap, hg, h⟩ := h
    exact ⟨gap, addCoupled?_of_guarded hg, h⟩
  · rename_i ha
    rwa [if_neg ha] at h

theorem rangeResidual?_of_guarded {s : Scratch F} {g : Array F} {z : F × Scratch F}
    (h : p.guarded.rangeResidual? s g = some z) : p.rangeResidual? s g = some z := by
  unfold rangeResidual? at h ⊢
  rw [active_guarded] at h
  split
  · rename_i ha
    rw [if_pos ha] at h
    simp only [Option.bind_eq_bind, Option.bind_eq_some_iff] at h ⊢
    obtain ⟨gap, hg, y, hy, h⟩ := h
    exact ⟨gap, addCoupled?_of_guarded hg, y, correct?_of_guarded hy, h⟩
  · rename_i ha
    rwa [if_neg ha] at h

theorem ofCouplings?_of_guarded [Spectral F] {couplings : List (Operator F)} {dims : List Nat}
    {rhs : Array F} {epsZero : F} {q : Projection F}
    (h : ofCouplings? (couplings.map .guarded) dims rhs epsZero = some q) :
    ∃ p, ofCouplings? couplings dims rhs epsZero = some p ∧ q = p.guarded := by
  have hparts : (couplings.map .guarded).zip dims = guardedParts (couplings.zip dims) := by
    rw [guardedParts, List.zip_map_left]
    rfl
  unfold ofCouplings? at h ⊢
  simp only [hparts] at h ⊢
  rw [show (guardedParts (couplings.zip dims)).isEmpty = (couplings.zip dims).isEmpty by
    unfold guardedParts
    cases couplings.zip dims <;> rfl] at h
  split at h
  · rename_i h0
    cases h
    exact ⟨_, if_pos h0, rfl⟩
  · rename_i h0
    obtain ⟨a, ha, hq⟩ := Option.bind_eq_some_iff.mp h
    cases hq
    refine ⟨⟨couplings.zip dims, rhs, pseudoInverse epsZero a⟩, ?_, rfl⟩
    rw [if_neg h0, gram?_of_guarded ha]
    rfl

end Projection

namespace Solver

theorem measure?_of_guarded {p : Projection F} {rho : F} {s : Projection.Scratch F}
    {v x : Array F} {m : Measure F} (h : measure? p.guarded rho s v x = some m) :
    measure? p rho s v x = some m := by
  simp only [measure?, Option.bind_eq_bind, Option.bind_eq_some_iff] at h ⊢
  obtain ⟨r, hr, ys, hys, g, hg, f, hf, a, ha, l, hl, b, hb, h⟩ := h
  exact ⟨r, hr, ys, Projection.project?_of_guarded hys, g, hg, f, hf, a,
    Projection.residual?_of_guarded ha, l, hl, b, Projection.rangeResidual?_of_guarded hb, h⟩

theorem defect?_guarded (par : Params F) (init : Option (List (Array F))) (p : Problem σ F) :
    defect? par init p.guarded = defect? par init p := by
  unfold defect?
  rw [Problem.shapeDefect?_guarded]
  rfl

/-! ## Runs -/

section Run

variable {par : Params F} {proxes : List (Prox σ F)} {proj : Projection F} {p : Progress F}
  {w : World σ F}

theorem look_guarded (h : ∀ v, look par proxes proj.guarded p w ≠ .error .misuse v) :
    look par proxes proj.guarded p w = look par proxes proj p w := by
  simp only [look_apply, Run.bind_apply] at h ⊢
  cases hx : proxPoints par.rho p.iter p.v proxes 0 0 #[] (opened par p.iter w) with
  | error e v => rfl
  | ok x v =>
    simp only [hx] at h ⊢
    cases hm : measure? proj.guarded par.rho p.scratch p.v x with
    | none =>
      rw [hm] at h
      exact absurd rfl (h v)
    | some m => rw [measure?_of_guarded hm]

variable [Spectral F]

theorem turn_guarded (h : ∀ v, turn par proxes proj.guarded p w ≠ .error .misuse v) :
    turn par proxes proj.guarded p w = turn par proxes proj p w := by
  have hl : ∀ v, look par proxes proj.guarded p w ≠ .error .misuse v := by
    intro v hv
    refine h v ?_
    unfold turn
    rw [Run.bind_apply, hv]
  unfold turn
  rw [Run.bind_apply, Run.bind_apply, look_guarded hl]

theorem iterate_guarded {fuel : Nat}
    (h : ∀ v, iterate par proxes proj.guarded fuel p w ≠ .error .misuse v) :
    iterate par proxes proj.guarded fuel p w = iterate par proxes proj fuel p w := by
  induction fuel generalizing p w with
  | zero => rfl
  | succ fuel ih =>
    rw [iterate_succ] at h ⊢
    have ht : ∀ v, turn par proxes proj.guarded p w ≠ .error .misuse v := by
      intro v hv
      rw [hv] at h
      exact h v rfl
    rw [iterate_succ, ← turn_guarded ht]
    cases hq : turn par proxes proj.guarded p w with
    | error e v => rfl
    | ok t v =>
      cases t with
      | done a => rfl
      | next q =>
        rw [hq] at h
        exact ih h

theorem turn_eq_misuse {v : World σ F} (h : turn par proxes proj p w = .error .misuse v) :
    look par proxes proj p w = .error .misuse v ∨ pass par proxes proj p w = .error .misuse v := by
  obtain ⟨e, u, hs, ht⟩ | ⟨s, u, -, ⟨-, ht⟩ | ⟨-, -, ht⟩ |
      ⟨-, ⟨q, t, -, ht⟩ | ⟨e, t, hp, ht⟩⟩⟩ := turn_cases par proxes proj p w
  all_goals
    rw [ht] at h
    cases h
  · exact Or.inl hs
  · exact Or.inr hp

end Run

section Accepted

variable [Spectral F] {par : Params F} {init : Option (List (Array F))} {p : Problem σ F}

theorem solve_ne_misuse (hd : defect? par init p = none) (hr : HasRoom par p.dims)
    (hs : p.Sound par.rho) (budget : Nat) (w v : World σ F) :
    solve budget par init p w ≠ .error .misuse v := by
  obtain ⟨proj, u, hp⟩ := prepare_total hd hr hs.couplings w
  obtain ⟨-, hf, hb⟩ := fits_of_prepare hs.couplings hp
  intro h
  unfold solve at h
  rw [Run.bind_apply, hp] at h
  obtain ⟨n, -, q, t, hreach, ht⟩ := iterate_eq_error.mp h
  have hq := course_sized rfl hf hb (reaches_iff.mp hreach).1
  rcases turn_eq_misuse ht with ht | ht
  · exact look_ne_misuse hs.proxes rfl hf hq _ _ ht
  · exact pass_ne_misuse hs.proxes rfl hf hq _ _ ht

theorem solve_guarded (hd : defect? par init p = none) (hr : HasRoom par p.dims)
    (hs : p.Sound par.rho) (budget : Nat) (w : World σ F) :
    solve budget par init p.guarded w = solve budget par init p w := by
  have hd' := (defect?_guarded par init p).trans hd
  obtain ⟨proj', u, hp'⟩ := prepare_total hd' hr hs.guarded.couplings w
  obtain ⟨-, hproj', -, hu⟩ := prepare_eq_ok.mp hp'
  obtain ⟨proj, hproj, rfl⟩ := Projection.ofCouplings?_of_guarded hproj'
  have hp : prepare par init p w = .ok proj u := prepare_eq_ok.mpr ⟨hd, hproj, hr, hu⟩
  have hne := fun v => solve_ne_misuse hd' hr hs.guarded budget w v
  unfold solve at hne ⊢
  rw [Run.bind_apply, hp'] at hne
  rw [Run.bind_apply, Run.bind_apply, hp', hp]
  exact iterate_guarded hne

end Accepted

end Solver

/-! ## Indices -/

namespace Projection

/-- Every entry of the Gram matrix is read from a column that has it. -/
def GramInBounds (parts : List (Operator F × Nat)) (m : Nat) : Prop :=
  ∃ cols, gramColumns? parts m m 0 (Vec.zeros m) #[] = some cols ∧ cols.size = m ∧
    ∀ col ∈ cols, col.size = m

theorem gramInBounds {parts : List (Operator F × Nat)} {m : Nat} (h : PartsFit parts m) :
    GramInBounds parts m := by
  obtain ⟨cols, hcols, hsize, hall⟩ := gramColumns?_total h m 0 (Vec.size_zeros m)
    fun a ha => absurd ha (Array.not_mem_empty a)
  exact ⟨cols, hcols, by simpa using hsize, hall⟩

end Projection

namespace Anderson

/-- Every entry of the normal equations is read from a column that has it, and there is a
coefficient for each difference. -/
structure NormalInBounds [Spectral F] (lambda epsZero : F) (g : Array F)
    (memory : List (Sample F)) : Prop where
  columns : ∃ cols, memory.mapM (fun d => products? d.residual memory) = some cols ∧
    cols.length = memory.length ∧ ∀ col ∈ cols, col.size = memory.length
  coefficients : ∃ gamma, coefficients? lambda epsZero memory g = some gamma ∧
    gamma.size = memory.length

theorem normalInBounds [Spectral F] (lambda epsZero : F) {n : Nat} {memory : List (Sample F)}
    (hm : ∀ d ∈ memory, d.Sized n) {g : Array F} (hg : g.size = n) :
    NormalInBounds lambda epsZero g memory :=
  ⟨mapM_total fun d hd => products?_total (hm d hd).2 hm, coefficients?_total lambda epsZero hm hg⟩

end Anderson

namespace Solver

variable [Spectral F]

/-- Before an iteration every vector has its length, and so has all that the iteration cuts and
reads from them. -/
structure Progress.InBounds (par : Params F) (p : Problem σ F) (q : Progress F) : Prop where
  sized : q.Sized (total p.dims) p.rhs.size
  slices : (cut q.v p.dims 0).map Array.size = p.dims
  normal : ∀ s a memory, q.acceleration = some s → a.Sized (total p.dims) →
    s.grown? par.memory a = some memory →
    Anderson.NormalInBounds par.lambda par.epsZero a.residual memory

theorem Progress.Sized.inBounds {par : Params F} {p : Problem σ F} {q : Progress F}
    (h : q.Sized (total p.dims) p.rhs.size) : q.InBounds par p := by
  refine ⟨h, map_size_cut (by rw [h.v]; omega), fun s a memory hs ha hg => ?_⟩
  obtain ⟨memory', hg', hm⟩ := Anderson.State.grown?_total (h.acceleration s hs) par.memory ha
  rw [hg] at hg'
  cases hg'
  exact Anderson.normalInBounds par.lambda par.epsZero hm ha.2

omit [Spectral F] in
theorem cut_startPoint {par : Params F} {vs : List (Array F)} {p : Problem σ F}
    (h : defect? par (some vs) p = none) : cut (startPoint p.dims (some vs)) p.dims 0 = vs := by
  rw [← sizes_of_defect? h]
  exact cut_stack vs

/-- The checks before a run are enough: no iteration cuts a vector short, reads an entry that is
not there, pairs vectors of different lengths or follows the last one. -/
theorem accepted_run_in_bounds {par : Params F} {init : Option (List (Array F))}
    {p : Problem σ F} (hd : defect? par init p = none) (hr : HasRoom par p.dims)
    (hs : p.Sound par.rho) (w : World σ F) :
    (∀ budget v, solve budget par init p w ≠ .error .misuse v) ∧
    (∀ budget, solve budget par init p.guarded w = solve budget par init p w) ∧
    Projection.GramInBounds (p.couplings.zip p.dims) p.rhs.size ∧
    ∃ proj u, prepare par init p w = .ok proj u ∧ proj.pinv.shape = .packed p.rhs.size ∧
      (∀ vs, init = some vs → cut (begin par p.dims proj init).v p.dims 0 = vs) ∧
      ∀ n q t, Reaches par p.proxes proj (begin par p.dims proj init) u n q t →
        q.InBounds par p ∧
        (∀ s v, look par p.proxes proj q t = .ok s v →
          (cut s.x p.dims 0).map Array.size = p.dims) ∧
        ∀ r v, turn par p.proxes proj q t = .ok (.next r) v → isLast par q.iter = false := by
  obtain ⟨proj, u, hp⟩ := prepare_total hd hr hs.couplings w
  obtain ⟨hrhs, hf, hb⟩ := fits_of_prepare hs.couplings hp
  refine ⟨fun budget v => solve_ne_misuse hd hr hs budget w v,
    fun budget => solve_guarded hd hr hs budget w,
    Projection.gramInBounds (Problem.partsFit hs.couplings (shapeDefect?_of_defect? hd)),
    proj, u, hp, by rw [← hrhs]; exact hf.shape, ?_, fun n q t hq => ⟨?_, fun s v hl => ?_, ?_⟩⟩
  · rintro vs rfl
    exact cut_startPoint hd
  · have hsized := course_sized rfl hf hb (reaches_iff.mp hq).1
    rw [hrhs] at hsized
    exact hsized.inBounds
  · have hx : s.x.size = total p.dims := size_of_proxPoints (look_eq_ok.mp hl).1
    exact map_size_cut (by rw [hx]; omega)
  · intro r v ht
    obtain ⟨⟨s, u', -, hn⟩, -⟩ := turn_eq_next.mp ht
    exact Bool.eq_false_iff.mpr (not_or.mp hn).2

/-! ## Empty blocks -/

/-- A block of two variables that the coupling sets to `1` and `0`, and one without variables. -/
def ragged : Problem Unit Float where
  proxes := [AbsSum.prox 2 1, AbsSum.prox 0 1]
  couplings := [.scaledIdentity 2 1, .ofMatrix (.zeros (.general 2 0))]
  rhs := #[1, 0]

def hastily : Params Float := { Params.standard with anderson := true }

theorem ragged_in_bounds :
    defect? hastily none ragged = none ∧ HasRoom hastily ragged.dims ∧
      ragged.Sound hastily.rho ∧
      solve 0 hastily none ragged.guarded (World.start () none) =
        solve 0 hastily none ragged (World.start () none) ∧
      Projection.GramInBounds (ragged.couplings.zip ragged.dims) 2 := by
  have hd : defect? hastily none ragged = none := by decide +kernel
  have hr : HasRoom hastily ragged.dims := by decide +kernel
  have hs : ragged.Sound hastily.rho := by
    refine ⟨fun q hq => ?_, fun g hg => ?_⟩
    · rcases List.mem_cons.mp hq with rfl | hq
      · exact (AbsSum.prox_total 2 1 _).sound
      · rw [List.mem_singleton.mp hq]
        exact (AbsSum.prox_total 0 1 _).sound
    · rcases List.mem_cons.mp hg with rfl | hg
      · exact Operator.sound_scaledIdentity 2 1
      · rw [List.mem_singleton.mp hg]
        exact Operator.sound_ofMatrix _
  obtain ⟨-, hguarded, hgram, -⟩ := accepted_run_in_bounds hd hr hs (World.start () none)
  exact ⟨hd, hr, hs, hguarded 0, hgram⟩

end Solver

end Splitting
