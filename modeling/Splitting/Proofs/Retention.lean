import Splitting.Proofs.CoupledQp
import Splitting.Proofs.Covariance
import Splitting.Proofs.Relation

/-!
# What operators keep

An operator works in scratch space that it keeps from call to call. Every cell is written before it
is read, so an earlier call, answered or not, changes no later answer; and neither does an earlier
solve, wherever it broke off.
-/

namespace Splitting

variable {σ τ β γ F ε α : Type}

namespace Run

def left : EStateM.Result (Halt ε) (World σ F) α → World σ F
  | .ok _ w => w
  | .error _ w => w

/-- The world after some runs, each of which takes over whatever the one before has left. -/
def after (ms : List (Run σ F ε α)) (w : World σ F) : World σ F :=
  ms.foldl (fun w m => left (m w)) w

theorem keeps_after {P : σ → Prop} {ms : List (Run σ F ε α)}
    (hms : ∀ m ∈ ms, ∀ w, P w.state → P (left (m w)).state) {w : World σ F} (hw : P w.state) :
    P (after ms w).state := by
  induction ms generalizing w with
  | nil => exact hw
  | cons m ms ih =>
    exact ih (fun n hn => hms n (List.mem_cons_of_mem m hn)) (hms m List.mem_cons_self w hw)

end Run

/-! ## Properties of the state in spite of which the answer is the same -/

abbrev World.Both (P : σ → Prop) : World σ F → World σ F → Prop := Linked fun s s' => P s ∧ P s'

/-- From any two states with the property the operator answers the same, and it keeps the
property. -/
def Prox.Forgets (q : Prox σ F) (P : σ → Prop) : Prop := q.Respects (World.Both P)

section Forgets

variable {P : σ → Prop}

theorem Run.Tied.left {m : Run σ F ε α} (hm : Tied (World.Both P) Eq m m) {w : World σ F}
    (hw : P w.state) : P (left (m w)).state := by
  obtain ⟨a, _, v, _, hv, -, -, hP, -⟩ | ⟨e, v, _, hv, -, hP, -⟩ := (hm w w ⟨hw, hw⟩).cases
  · rw [hv]
    exact hP
  · rw [hv]
    exact hP

theorem Run.state_after {ms : List (Run σ F ε α)} (hms : ∀ m ∈ ms, Tied (World.Both P) Eq m m)
    {w : World σ F} (hw : P w.state) : P (after ms w).state :=
  keeps_after (fun m hm _ => (hms m hm).left) hw

theorem Run.answer_after {ms : List (Run σ F ε α)} (hms : ∀ m ∈ ms, Tied (World.Both P) Eq m m)
    {m : Run σ F ε α} (hm : Tied (World.Both P) Eq m m) {w w' : World σ F} (hw : P w.state)
    (hw' : P w'.state) : answer (m (after ms w)) = answer (m w') :=
  (hm _ _ ⟨state_after hms hw, hw'⟩).answer_eq

end Forgets

/-! ## Slots -/

def Slots (n : Nat) (P : Nat → τ → Prop) (s : Array τ) : Prop :=
  s.size = n ∧ ∀ l t, s[l]? = some t → P l t

theorem Slots.set {n : Nat} {P : Nat → τ → Prop} {s : Array τ} (h : Slots n P s) {l : Nat} {t : τ}
    (ht : P l t) : Slots n P (s.setIfInBounds l t) := by
  refine ⟨by rw [Array.size_setIfInBounds, h.1], fun k u hu => ?_⟩
  rw [Array.getElem?_setIfInBounds] at hu
  split at hu
  · rename_i hk
    obtain ⟨-, hu⟩ := Option.ite_none_right_eq_some.mp hu
    cases hu
    exact hk ▸ ht
  · exact h.2 k u hu

theorem Prox.Forgets.slot {n l : Nat} {P : Nat → τ → Prop} {q : Prox τ F} (hq : q.Forgets (P l)) :
    (q.slot l).Forgets (Slots n P) := by
  refine Respects.slot hq (fun a b h => ?_) fun a b s t h hst => ⟨h.1.set hst.1, h.2.set hst.2⟩
  rcases Nat.lt_or_ge l n with hl | hl
  · obtain ⟨s, ha⟩ : ∃ s, a[l]? = some s := ⟨_, Array.getElem?_eq_getElem (h.1.1 ▸ hl)⟩
    obtain ⟨t, hb⟩ : ∃ t, b[l]? = some t := ⟨_, Array.getElem?_eq_getElem (h.2.1 ▸ hl)⟩
    rw [ha, hb]
    exact .some ⟨h.1.2 l _ ha, h.2.2 l _ hb⟩
  · rw [Array.getElem?_eq_none (h.1.1 ▸ hl), Array.getElem?_eq_none (h.2.1 ▸ hl)]
    exact .none

/-! ## The three operators -/

/-- What the backend answers does not depend on its state. -/
def Qp.Backend.Memoryless (b : Backend β F) : Prop :=
  ∀ prog room s s', Run.answer (b.solve prog room s) = Run.answer (b.solve prog room s')

variable [Scalar F]

theorem AbsSum.prox_forgets (n : Nat) (alpha : F) (P : σ → Prop) :
    (AbsSum.prox n alpha : Prox σ F).Forgets P :=
  fun _ _ => Run.tied_pure rfl

namespace Quadratic

/-- The scratch space has room for the cost of the programs. -/
def Fitting (f : Quadratic F) (s : Scratch F × β) : Prop :=
  s.1.p.shape = .packed f.dim ∧ s.1.q.shape = .general f.dim 1

theorem program_congr {f : Quadratic F} {s s' : Scratch F × β} (h : f.Fitting s)
    (h' : f.Fitting s') (t : F) (v : Array F) : f.program s.1 t v = f.program s'.1 t v := by
  unfold program
  rw [Matrix.refill_eq_ofFn, Matrix.refill_eq_ofFn, Matrix.refill_eq_ofFn, Matrix.refill_eq_ofFn,
    h.1, h.2, h'.1, h'.2]

theorem fitting_program {f : Quadratic F} {s : Scratch F × β} (h : f.Fitting s) (t : F)
    (v : Array F) (b : β) :
    f.Fitting (⟨(f.program s.1 t v).p, (f.program s.1 t v).q⟩, b) :=
  ⟨(Matrix.shape_refill ..).trans h.1, (Matrix.shape_refill ..).trans h.2⟩

theorem prox_forgets {b : Qp.Backend β F} (hb : b.Memoryless) (f : Quadratic F) :
    (f.prox b).Forgets f.Fitting := by
  rintro t v w w' ⟨hw, hw'⟩
  have hb := hb (f.program w.state.1 t v) f.dim w.state.2 w'.state.2
  simp only [prox, ← program_congr hw hw' t v]
  cases hs : b.solve (f.program w.state.1 t v) f.dim w.state.2 <;>
    cases hs' : b.solve (f.program w.state.1 t v) f.dim w'.state.2 <;>
    rw [hs, hs'] at hb <;> cases hb <;>
    exact ⟨rfl, fitting_program hw t v _, fitting_program hw t v _⟩

theorem fitting_scratch (f : Quadratic F) (b : β) : f.Fitting (f.scratch, b) := ⟨rfl, rfl⟩

end Quadratic

variable [Spectral F]

namespace LogDet

theorem prox_forgets (f : LogDet F) :
    f.prox.Forgets fun s => s.image.shape = .packed f.side := by
  rintro t v w w' ⟨hw, hw'⟩
  have himage : ∀ u : World (Scratch F) F, u.state.image.shape = .packed f.side →
      (Spectral.mapEigIn (u.state.image.refill (f.shifted t v)) f.epsZero (root t)
        u.state.image.work).1 =
      Spectral.mapEig (Matrix.ofFn (.packed f.side) (f.shifted t v)) f.epsZero (root t) := by
    intro u hu
    rw [Spectral.mapEigIn_fst, Matrix.refill_eq_ofFn, hu]
  have hshape := Spectral.shape_mapEig (Matrix.ofFn (.packed f.side) (f.shifted t v)) f.epsZero
    (root t)
  simp only [prox, himage w hw, himage w' hw']
  split
  · exact ⟨rfl, hshape, hshape⟩
  · refine ⟨rfl, ?_, ?_⟩
    · rw [World.state_note]
      exact hshape
    · rw [World.state_note]
      exact hshape

end LogDet

/-! ## Problems -/

namespace Covariance

theorem parts_forget (prob : Covariance F) (alpha : F) :
    ∀ q ∈ (prob.parts alpha).proxes, q.Forgets fun s => s.image.shape = .packed prob.side := by
  intro q hq
  simp only [parts, List.mem_cons, List.not_mem_nil, or_false] at hq
  rcases hq with rfl | rfl
  · exact prob.logDet.prox_forgets
  · exact AbsSum.prox_forgets _ _ _

theorem eq_parts_of_problem {prob : Covariance F} {alpha : F} {p : Problem (LogDet.Scratch F) F}
    {w w' : World γ F} (h : prob.problem alpha w = .ok p w') : p = prob.parts alpha := by
  by_cases halpha : 0 ≤ alpha
  · rw [problem_of_nonneg prob halpha] at h
    cases h
    rfl
  · unfold problem at h
    rw [if_pos halpha] at h
    cases h

end Covariance

namespace CoupledQp

def FittingSlots (fs : List (Quadratic F)) : Array (Quadratic.Scratch F × β) → Prop :=
  Slots fs.length fun l s => ∀ f, fs[l]? = some f → f.Fitting s

omit [Spectral F] in
theorem states_eq {bs : List (QpBlock F)} {fs : List (Quadratic F)}
    (hfs : bs.mapM quadratic? = some fs) (b : β) :
    (bs.filterMap fun q => (quadratic? q).map fun f => (f.scratch, b)) =
      fs.map fun f => (f.scratch, b) := by
  induction bs generalizing fs with
  | nil =>
    obtain rfl : fs = [] := by simpa using hfs
    rfl
  | cons q bs ih =>
    simp only [List.mapM_cons, Option.bind_eq_bind, Option.bind_eq_some_iff] at hfs
    obtain ⟨f, hf, gs, hgs, hfs⟩ := hfs
    cases hfs
    simp [hf, ih hgs]

omit [Spectral F] in
theorem fitting_states {prob : CoupledQp F} {fs : List (Quadratic F)}
    (hfs : prob.blocks.mapM quadratic? = some fs) (b : β) :
    FittingSlots fs (prob.states b) := by
  unfold states
  rw [states_eq hfs]
  refine ⟨by simp, fun l s hs f hf => ?_⟩
  simp only [List.getElem?_toArray, List.getElem?_map, hf, Option.map_some] at hs
  cases hs
  exact f.fitting_scratch b

omit [Spectral F] in
theorem slots_forget {b : Qp.Backend β F} (hb : b.Memoryless) (fs : List (Quadratic F)) :
    ∀ q ∈ fs.mapIdx fun l f => (f.prox b).slot l, q.Forgets (FittingSlots fs) := by
  intro q hq
  obtain ⟨l, hl, rfl⟩ := List.mem_mapIdx.mp hq
  refine Prox.Forgets.slot ?_
  have hfits : (fun s => ∀ f, fs[l]? = some f → f.Fitting s) =
      (fs[l].Fitting : Quadratic.Scratch F × β → Prop) := by
    funext s
    simp [List.getElem?_eq_getElem hl]
  rw [hfits]
  exact fs[l].prox_forgets hb

end CoupledQp

/-! ## Earlier calls and earlier solves -/

/-- After any earlier calls, answered or not, a call is answered as by an operator that is fresh. -/
def Prox.AnswersAfresh (q : Prox σ F) (fresh : σ → Prop) : Prop :=
  ∀ (calls : List (F × Array F × Nat)) (t : F) (v : Array F) (room : Nat) (w w' : World σ F),
    fresh w.state → fresh w'.state →
      Run.answer (q.apply t v room (Run.after (calls.map fun c => q.apply c.1 c.2.1 c.2.2) w)) =
        Run.answer (q.apply t v room w')

/-- After any earlier solves, wherever they ended, a solve ends as with operators that are fresh. -/
def Problem.SolvesAfresh (p : Problem σ F) (fresh : σ → Prop) : Prop :=
  ∀ (solves : List (Nat × Params F × Option (List (Array F)))) (budget : Nat) (par : Params F)
    (init : Option (List (Array F))) (w w' : World σ F), fresh w.state → fresh w'.state →
      Run.answer (Solver.solve budget par init p
          (Run.after (solves.map fun s => Solver.solve s.1 s.2.1 s.2.2 p) w)) =
        Run.answer (Solver.solve budget par init p w')

section Afresh

variable {P fresh : σ → Prop}

omit [Scalar F] [Spectral F] in
theorem Prox.Forgets.answersAfresh {q : Prox σ F} (hq : q.Forgets P) (hP : ∀ s, fresh s → P s) :
    q.AnswersAfresh fresh := by
  intro calls t v room w w' hw hw'
  refine Run.answer_after ?_ (hq.apply t v room) (hP _ hw) (hP _ hw')
  intro m hm
  obtain ⟨c, -, rfl⟩ := List.mem_map.mp hm
  exact hq.apply _ _ _

theorem Problem.solvesAfresh {p : Problem σ F} (hp : ∀ q ∈ p.proxes, q.Forgets P)
    (hP : ∀ s, fresh s → P s) : p.SolvesAfresh fresh := by
  intro solves budget par init w w' hw hw'
  refine Run.answer_after ?_ (Solver.solve_respects hp budget par init) (hP _ hw) (hP _ hw')
  intro m hm
  obtain ⟨s, -, rfl⟩ := List.mem_map.mp hm
  exact Solver.solve_respects hp _ _ _

end Afresh

/-- Nothing is kept from earlier calls, and so nothing from earlier solves of the same problem. -/
theorem nothing_kept_from_earlier_calls :
    (∀ f : LogDet F, f.prox.AnswersAfresh (· = f.scratch)) ∧
    (∀ (σ : Type) (n : Nat) (alpha : F),
      (AbsSum.prox n alpha : Prox σ F).AnswersAfresh fun _ => True) ∧
    (∀ (β : Type) (b : Qp.Backend β F), b.Memoryless → ∀ f : Quadratic F,
      (f.prox b).AnswersAfresh (·.1 = f.scratch)) ∧
    (∀ (γ : Type) (prob : Covariance F) (alpha : F) p (w w' : World γ F),
      prob.problem alpha w = .ok p w' → p.SolvesAfresh (· = prob.logDet.scratch)) ∧
    (∀ (γ β : Type) (b : Qp.Backend β F), b.Memoryless →
      ∀ (prob : CoupledQp F) p (w w' : World γ F), prob.problem b w = .ok p w' →
        p.SolvesAfresh fun s => ∃ b₀, s = prob.states b₀) := by
  refine ⟨fun f => ?_, fun σ n alpha => ?_, fun β b hb f => ?_, fun γ prob alpha p w w' h => ?_,
    fun γ β b hb prob p w w' h => ?_⟩
  · refine f.prox_forgets.answersAfresh ?_
    rintro s rfl
    rfl
  · exact (AbsSum.prox_forgets n alpha fun _ => True).answersAfresh fun _ => id
  · refine (f.prox_forgets hb).answersAfresh ?_
    rintro ⟨s, b₀⟩ rfl
    exact f.fitting_scratch b₀
  · obtain rfl := Covariance.eq_parts_of_problem h
    refine Problem.solvesAfresh (prob.parts_forget alpha) ?_
    rintro s rfl
    rfl
  · obtain ⟨-, -, fs, hfs, rfl⟩ := CoupledQp.problem_eq_ok.mp h
    refine Problem.solvesAfresh (CoupledQp.slots_forget hb fs) ?_
    rintro s ⟨b₀, rfl⟩
    exact CoupledQp.fitting_states hfs b₀

/-! ## A run -/

namespace CoupledQp

/-- Counts the programs, and fails where the answer is not finite. -/
def countingBackend : Qp.Backend Nat Float where
  solve prog room := fun n =>
    let x := (Array.range room).map fun i => -prog.q.entry i 0 / prog.p.entry i i
    if x.all Scalar.isFinite then .ok x (n + 1) else .error (.error .failure) (n + 1)

theorem countingBackend_memoryless : countingBackend.Memoryless := by
  intro prog room s s'
  simp only [countingBackend]
  split <;> rfl

/-- A solve that fails at its first call, and one that runs out of iterations. -/
def fruitless : List (Nat × Params Float × Option (List (Array Float))) :=
  [(0, halving, some [#[0 / 0]]), (0, { halving with maxIter := some 1 }, none)]

set_option maxRecDepth 100000 in
theorem parabola_after_fruitless_solves :
    countingBackend.Memoryless ∧ ∃ p w a,
      parabola.problem countingBackend (World.start () none : World Unit Float) = .ok p w ∧
        (Run.after (fruitless.map fun s => Solver.solve s.1 s.2.1 s.2.2 p)
          (World.start (parabola.states 0) none)).state.map Prod.snd = #[2] ∧
        Run.answer (Solver.solve 0 halving none p
          (Run.after (fruitless.map fun s => Solver.solve s.1 s.2.1 s.2.2 p)
            (World.start (parabola.states 0) none))) = .ok (some a) ∧
        a.iterations = 3 ∧
        (∃ w', Covariance.pair.problem 0.25 (World.start () none : World Unit Float) =
          .ok (Covariance.pair.parts 0.25) w') ∧
        (Covariance.pair.parts 0.25).SolvesAfresh (· = Covariance.pair.logDet.scratch) := by
  have hrun : (Run.value? (parabola.problem countingBackend
      (World.start () none : World Unit Float))).map (fun p =>
        ((Run.after (fruitless.map fun s => Solver.solve s.1 s.2.1 s.2.2 p)
            (World.start (parabola.states 0) none)).state.map Prod.snd,
          (Run.value? (Solver.solve 0 halving none p
            (World.start (parabola.states 0) none))).join.map Solution.iterations)) =
      some (#[2], some 3) := by
    decide +kernel
  obtain ⟨p, hp, hrun⟩ := Option.map_eq_some_iff.mp hrun
  obtain ⟨hcount, hrun⟩ := Prod.mk.inj hrun
  obtain ⟨a, ha, hiter⟩ := Option.map_eq_some_iff.mp hrun
  obtain ⟨w, hp⟩ := Run.value?_eq_some.mp hp
  obtain ⟨v, hs⟩ := Run.value?_eq_some.mp (Option.join_eq_some_iff.mp ha)
  have halpha : (0 : Float) ≤ 0.25 := by decide +kernel
  have hpair := Covariance.pair.problem_of_nonneg halpha (World.start () none : World Unit Float)
  obtain ⟨-, -, -, hcov, hqp⟩ := nothing_kept_from_earlier_calls (F := Float)
  have hsame := hqp Unit Nat countingBackend countingBackend_memoryless parabola p _ w hp fruitless
    0 halving none (World.start (parabola.states 0) none) (World.start (parabola.states 0) none)
    ⟨0, rfl⟩ ⟨0, rfl⟩
  rw [hs] at hsame
  exact ⟨countingBackend_memoryless, p, w, a, hp, hcount, hsame, hiter, ⟨_, hpair⟩,
    hcov Unit Covariance.pair 0.25 _ _ _ hpair⟩

end CoupledQp

end Splitting
