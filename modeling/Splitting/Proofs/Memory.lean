import Mathlib
import Splitting.Proofs.Lengths

/-!
# What the acceleration remembers

Steps and judgements may come in any order. The memory holds the differences of the last samples in
a row, as many as fit, and none from before the last rejection.
-/

namespace Splitting.Anderson

variable {F : Type}

/-! ## Samples in a row -/

def successive {α : Type} (l : List α) : List (α × α) := l.zip l.tail

@[simp] theorem length_successive {α : Type} (l : List α) :
    (successive l).length = l.length - 1 := by simp [successive]

theorem successive_concat {α : Type} (l : List α) (a b : α) :
    successive (l ++ [a] ++ [b]) = successive (l ++ [a]) ++ [(a, b)] := by
  induction l with
  | nil => rfl
  | cons x l ih =>
    unfold successive at ih ⊢
    cases l with
    | nil => rfl
    | cons y l => simpa using ih

theorem forall₂_remember {α : Type} {R : α → Sample F → Prop} {size : Nat} (hsize : 0 < size)
    {l : List α} {memory : List (Sample F)} (h : List.Forall₂ R (l.rtake size) memory) {p : α}
    {d : Sample F} (hd : R p d) :
    List.Forall₂ R ((l ++ [p]).rtake size) (remember size d memory) := by
  obtain ⟨m, rfl⟩ := Nat.exists_eq_add_one_of_ne_zero hsize.ne'
  have hlen := h.length_eq
  rw [List.rtake, List.length_drop] at hlen
  rw [List.rtake_concat_succ, remember]
  refine List.rel_append ?_ (.cons hd .nil)
  rw [List.rtake] at h ⊢
  split
  · rename_i hfull
    have hdrop := List.forall₂_drop 1 h
    rwa [List.drop_drop, show l.length - (m + 1) + 1 = l.length - m by omega] at hdrop
  · rename_i hroom
    rwa [show l.length - m = l.length - (m + 1) by omega]

/-! ## Calls -/

/-- A sample to go on from, or the norm of a residual to judge by. -/
inductive Call (F : Type) where
  | advance (a : Sample F)
  | judge (norm : F)

/-- The samples since the last rejection, oldest first, once the call has been answered. Only a
rejection answers a judgement with a point. -/
def Call.extend (seen : List (Sample F)) : Call F → Option (Array F) → List (Sample F)
  | .advance a, _ => seen ++ [a]
  | .judge _, none => seen
  | .judge _, some _ => []

/-- The samples of all steps since the last rejection, oldest first. -/
def sinceRejection (calls : List (Call F × Option (Array F))) : List (Sample F) :=
  calls.foldl (fun seen c => c.1.extend seen c.2) []

variable [Scalar F]

section Calls

variable [Spectral F] (size : Nat) (lambda epsZero : F)

/-- The point that the call is answered with, if any, and the state that it leaves. -/
def State.call? (s : State F) : Call F → Option (Option (Array F) × State F)
  | .advance a => (advance? size lambda epsZero a s).map fun x => (some x.1, x.2)
  | .judge norm => some (judge norm s)

/-- The answers to all calls, and the state after the last one. -/
def State.calls? (s : State F) : List (Call F) → Option (List (Option (Array F)) × State F)
  | [] => some ([], s)
  | c :: cs => do
    let (answer, t) ← s.call? size lambda epsZero c
    let (answers, t) ← t.calls? cs
    return (answer :: answers, t)

end Calls

/-! ## The invariant -/

/-- What is kept of the samples since the last rejection. -/
structure Remembers (size : Nat) (seen : List (Sample F)) (s : State F) : Prop where
  memory : List.Forall₂ (fun p d => p.2.sub? p.1 = some d) ((successive seen).rtake size) s.memory
  last : s.last = seen.getLast?
  pending : ∀ z, s.pending = some z → s.memory ≠ [] ∧ ∃ a, seen.getLast? = some a ∧ z = a.image

section Remembers

variable {size : Nat} {seen : List (Sample F)} {s : State F}

theorem remembers_initial : Remembers size [] (State.initial : State F) :=
  ⟨by simp [successive, State.initial], rfl, nofun⟩

theorem Remembers.length_memory (h : Remembers size seen s) :
    s.memory.length = min (seen.length - 1) size := by
  rw [← h.memory.length_eq, List.rtake, List.length_drop, length_successive]
  omega

theorem Remembers.judge (h : Remembers size seen s) (norm : F) :
    Remembers size ((Call.judge norm).extend seen (judge norm s).1) (judge norm s).2 := by
  unfold Anderson.judge
  dsimp only
  split
  · exact ⟨h.memory, h.last, h.pending⟩
  · split
    · exact ⟨h.memory, h.last, nofun⟩
    · exact ⟨remembers_initial.memory, rfl, nofun⟩

variable [Spectral F] {lambda epsZero : F}

theorem advance?_eq_some {a : Sample F} {v : Array F} {t : State F}
    (h : advance? size lambda epsZero a s = some (v, t)) :
    s.grown? size a = some t.memory ∧ t.last = some a ∧
      (t.memory = [] ∧ v = a.image ∧ t.pending = s.pending ∨
        t.memory ≠ [] ∧ t.pending = some a.image ∧
          ∃ gamma, coefficients? lambda epsZero t.memory a.residual = some gamma ∧
            subCombined? gamma.toList t.memory a.image = some v) := by
  obtain ⟨memory, hmemory, h⟩ := Option.bind_eq_some_iff.mp h
  dsimp only at h
  split at h
  · rename_i hempty
    cases h
    exact ⟨hmemory, rfl, Or.inl ⟨List.isEmpty_iff.mp hempty, rfl, rfl⟩⟩
  · rename_i hfilled
    obtain ⟨gamma, hgamma, h⟩ := Option.bind_eq_some_iff.mp h
    obtain ⟨x, hx, h⟩ := Option.bind_eq_some_iff.mp h
    cases h
    exact ⟨hmemory, rfl, Or.inr ⟨fun h => hfilled (List.isEmpty_iff.mpr h), rfl, gamma, hgamma, hx⟩⟩

omit [Spectral F] in
theorem Remembers.grown? (hsize : 0 < size) (h : Remembers size seen s) {a : Sample F}
    {memory : List (Sample F)} (hg : s.grown? size a = some memory) :
    List.Forall₂ (fun p d => p.2.sub? p.1 = some d) ((successive (seen ++ [a])).rtake size)
      memory := by
  unfold State.grown? at hg
  rw [h.last] at hg
  cases hlast : seen.getLast? with
  | none =>
    obtain rfl := List.getLast?_eq_none_iff.mp hlast
    rw [hlast] at hg
    cases hg
    exact h.memory
  | some b =>
    obtain ⟨before, rfl⟩ := List.getLast?_eq_some_iff.mp hlast
    rw [hlast] at hg
    obtain ⟨d, hd, hg⟩ := Option.bind_eq_some_iff.mp hg
    cases hg
    rw [successive_concat]
    exact forall₂_remember hsize h.memory hd

theorem Remembers.advance (hsize : 0 < size) (h : Remembers size seen s) {a : Sample F}
    {v : Array F} {t : State F} (hadv : advance? size lambda epsZero a s = some (v, t)) :
    Remembers size (seen ++ [a]) t := by
  obtain ⟨hgrown, hlast, hcases⟩ := advance?_eq_some hadv
  have hmemory := h.grown? hsize hgrown
  refine ⟨hmemory, by rw [hlast, List.getLast?_concat], fun z hz => ?_⟩
  rcases hcases with ⟨hempty, -, hpending⟩ | ⟨hfilled, hpending, -⟩
  · -- a point in doubt comes with a memory, which only grows
    rw [hpending] at hz
    obtain ⟨hne, b, hb, -⟩ := h.pending z hz
    have hbefore := List.length_pos_iff.mpr hne
    have hafter := hmemory.length_eq
    rw [h.length_memory] at hbefore
    rw [hempty, List.rtake, List.length_drop, length_successive, List.length_append] at hafter
    simp only [List.length_singleton, List.length_nil] at hafter
    omega
  · rw [hpending] at hz
    cases hz
    exact ⟨hfilled, a, List.getLast?_concat, rfl⟩

end Remembers

/-! ## All calls -/

variable [Spectral F] {size n : Nat} {lambda epsZero : F}

theorem State.call?_total (size : Nat) (lambda epsZero : F) {s : State F} (hs : s.Sized n)
    {c : Call F} (hc : ∀ a, c = .advance a → a.Sized n) :
    ∃ answer t, s.call? size lambda epsZero c = some (answer, t) ∧ t.Sized n := by
  cases c with
  | advance a =>
    obtain ⟨v, t, hadv, -, ht⟩ := advance?_total hs size lambda epsZero (hc a rfl)
    exact ⟨some v, t, by simp [call?, hadv], ht⟩
  | judge norm => exact ⟨_, _, rfl, (judge_sized hs norm).1⟩

theorem State.calls?_total (size : Nat) (lambda epsZero : F) {s : State F} (hs : s.Sized n)
    {calls : List (Call F)} (hcalls : ∀ a, .advance a ∈ calls → a.Sized n) :
    ∃ answers t, s.calls? size lambda epsZero calls = some (answers, t) ∧ t.Sized n ∧
      answers.length = calls.length := by
  induction calls generalizing s with
  | nil => exact ⟨[], s, rfl, hs, rfl⟩
  | cons c calls ih =>
    obtain ⟨answer, t, hc, ht⟩ := State.call?_total size lambda epsZero hs (c := c)
      fun a ha => hcalls a (ha ▸ List.mem_cons_self)
    obtain ⟨answers, u, hu, hsized, hlen⟩ := ih ht fun a ha => hcalls a (List.mem_cons_of_mem c ha)
    exact ⟨answer :: answers, u, by simp [calls?, hc, hu], hsized, by simp [hlen]⟩

/-- What every call keeps of what a reader of the calls and answers makes of them holds after all
calls. -/
theorem State.calls?_foldl {ρ : Type} {next : ρ → Call F × Option (Array F) → ρ}
    {I : ρ → State F → Prop} {calls : List (Call F)}
    (hcall : ∀ r s c answer t, c ∈ calls → I r s →
      s.call? size lambda epsZero c = some (answer, t) → I (next r (c, answer)) t)
    (r : ρ) {s t : State F} (h : I r s) {answers : List (Option (Array F))}
    (hcalls : s.calls? size lambda epsZero calls = some (answers, t)) :
    I ((calls.zip answers).foldl next r) t := by
  induction calls generalizing r s answers with
  | nil =>
    cases hcalls
    exact h
  | cons c calls ih =>
    obtain ⟨⟨answer, u⟩, hc, hcalls⟩ := Option.bind_eq_some_iff.mp hcalls
    obtain ⟨⟨rest, u'⟩, hrest, hcalls⟩ := Option.bind_eq_some_iff.mp hcalls
    cases hcalls
    exact ih (fun r s d answer t hd => hcall r s d answer t (List.mem_cons_of_mem c hd)) _
      (hcall r s c answer u List.mem_cons_self h hc) hrest

theorem State.calls?_concat {s t u : State F} {calls : List (Call F)} {c : Call F}
    {answers : List (Option (Array F))} {answer : Option (Array F)}
    (hcalls : s.calls? size lambda epsZero calls = some (answers, t))
    (hc : t.call? size lambda epsZero c = some (answer, u)) :
    s.calls? size lambda epsZero (calls ++ [c]) = some (answers ++ [answer], u) := by
  induction calls generalizing s answers with
  | nil =>
    cases hcalls
    simp [calls?, hc]
  | cons d calls ih =>
    obtain ⟨⟨o, s'⟩, hd, hcalls⟩ := Option.bind_eq_some_iff.mp hcalls
    obtain ⟨⟨rest, t'⟩, hrest, hcalls⟩ := Option.bind_eq_some_iff.mp hcalls
    cases hcalls
    simp [calls?, hd, ih hrest]

theorem State.calls?_induction {I : List (Sample F) → State F → Prop} {calls : List (Call F)}
    (hadvance : ∀ seen s a v t, .advance a ∈ calls → I seen s →
      advance? size lambda epsZero a s = some (v, t) → I (seen ++ [a]) t)
    (hjudge : ∀ seen s norm, I seen s →
      I ((Call.judge norm).extend seen (judge norm s).1) (judge norm s).2)
    (seen : List (Sample F)) {s t : State F} (h : I seen s) {answers : List (Option (Array F))}
    (hcalls : s.calls? size lambda epsZero calls = some (answers, t)) :
    I ((calls.zip answers).foldl (fun seen c => c.1.extend seen c.2) seen) t := by
  -- the history is not only the calls made, since a rejection empties it
  refine State.calls?_foldl (fun seen s c answer t hmem hs hc => ?_) seen h hcalls
  cases c with
  | advance a =>
    obtain ⟨⟨v, t⟩, hadv, hc⟩ := Option.map_eq_some_iff.mp hc
    cases hc
    exact hadvance seen s a v _ hmem hs hadv
  | judge norm =>
    obtain ⟨rfl, rfl⟩ := Prod.mk.inj (Option.some.inj hc)
    exact hjudge seen s norm hs

theorem Remembers.calls (hsize : 0 < size) {seen : List (Sample F)} {s t : State F}
    (h : Remembers size seen s) {calls : List (Call F)} {answers : List (Option (Array F))}
    (hcalls : s.calls? size lambda epsZero calls = some (answers, t)) :
    Remembers size ((calls.zip answers).foldl (fun seen c => c.1.extend seen c.2) seen) t :=
  State.calls?_induction (fun _ _ _ _ _ _ hs hadv => hs.advance hsize hadv)
    (fun _ _ norm hs => hs.judge norm) seen h hcalls

/-- After any calls the memory holds the differences of the samples since the last rejection, as
many of the last ones as fit, and a point in doubt comes from the last of these samples. -/
theorem memory_after_calls (hsize : 0 < size) (lambda epsZero : F) (calls : List (Call F))
    (hcalls : ∀ a, .advance a ∈ calls → a.Sized n) :
    ∃ answers s, State.initial.calls? size lambda epsZero calls = some (answers, s) ∧
      answers.length = calls.length ∧ Remembers size (sinceRejection (calls.zip answers)) s ∧
      s.memory.length = min ((sinceRejection (calls.zip answers)).length - 1) size := by
  obtain ⟨answers, s, hs, -, hlen⟩ :=
    State.calls?_total size lambda epsZero (initial_sized n) hcalls
  have hremembers := remembers_initial.calls hsize hs
  exact ⟨answers, s, hs, hlen, hremembers, hremembers.length_memory⟩

/-! ## Whole numbers -/

/-- Whole numbers, where every root is the number itself and every power is one. -/
@[reducible] def whole : Scalar Int where
  toZero := inferInstance
  toOne := inferInstance
  toAdd := inferInstance
  toSub := inferInstance
  toMul := inferInstance
  toDiv := inferInstance
  toNeg := inferInstance
  toLE := inferInstance
  toLT := inferInstance
  beq a b := a == b
  ofScientific m down e := if down then m / 10 ^ e else m * 10 ^ e
  decLe := inferInstance
  decLt := inferInstance
  ofNat n := n
  sqrt a := a
  abs a := |a|
  pow _ _ := 1
  maxNum := max
  isFinite _ := true

section Whole

attribute [local instance] whole

@[reducible] def wholeSpectral : Spectral Int :=
  ⟨fun _ => 0, fun a _ _ work => (a, work), fun _ _ _ _ => rfl, fun _ _ _ _ _ => rfl⟩

attribute [local instance] wholeSpectral

def wholeSample (f g : Int) : Sample Int := ⟨#[f], #[g]⟩

def wholeCalls : List (Call Int) :=
  [.judge 1, .advance (wholeSample 1 8), .judge 1, .advance (wholeSample 3 4), .judge 2000000,
    .advance (wholeSample 5 9), .advance (wholeSample 6 7), .advance (wholeSample 8 6)]

theorem whole_calls : State.initial.calls? 1 0 0 wholeCalls =
    some ([none, some #[1], none, some #[515], some #[3], some #[5], some #[62], some #[20]],
      ⟨some (wholeSample 8 6), [wholeSample 2 (-1)], some 1, 0, some #[8]⟩) := by cbv

theorem whole_memory_after_calls :
    0 < 1 ∧ (∀ a, .advance a ∈ wholeCalls → a.Sized 1) ∧
      ∃ answers s, State.initial.calls? 1 0 0 wholeCalls = some (answers, s) ∧
        Remembers 1 [wholeSample 5 9, wholeSample 6 7, wholeSample 8 6] s ∧
        s.memory = [wholeSample 2 (-1)] := by
  have hsized : ∀ a, .advance a ∈ wholeCalls → a.Sized 1 := by
    intro a ha
    simp only [wholeCalls, List.mem_cons, Call.advance.injEq, reduceCtorEq, List.not_mem_nil,
      or_false, false_or] at ha
    rcases ha with rfl | rfl | rfl | rfl | rfl <;> exact ⟨rfl, rfl⟩
  obtain ⟨answers, s, hs, -, hremembers, -⟩ :=
    memory_after_calls Nat.one_pos 0 0 wholeCalls hsized
  rw [whole_calls] at hs
  cases hs
  exact ⟨Nat.one_pos, hsized, _, _, whole_calls, hremembers, rfl⟩

end Whole

end Splitting.Anderson
