import Splitting.Proofs.Memory

/-!
# Judgements

Steps and judgements may come in any order. Who sees the calls and their answers can tell which
point is in doubt and how many points were kept, and from these what the next judgement answers.
-/

namespace Splitting.Anderson

variable {F : Type}

/-! ## What can be told from outside -/

def Call.norm? : Call F → Option F
  | .advance _ => none
  | .judge norm => some norm

/-- What the calls and their answers tell. -/
structure Record (F : Type) where
  /-- The samples since the last rejection, oldest first. -/
  samples : List (Sample F)
  /-- The norm of the first judgement. -/
  first : Option F
  /-- The plain step beside the point in doubt. -/
  doubt : Option (Array F)
  /-- The norms at which points in doubt were kept, in order. -/
  kept : List F

/-- A step with an earlier sample to go by leads to a point in doubt, and any judgement ends the
doubt. An answered judgement rejects. -/
def Record.after (r : Record F) (c : Call F × Option (Array F)) : Record F :=
  match c with
  | (.advance a, _) => ⟨r.samples ++ [a], r.first, r.samples.head?.map fun _ => a.image, r.kept⟩
  | (.judge norm, none) =>
    ⟨r.samples, some (r.first.getD norm), none, r.kept ++ (r.doubt.map fun _ => norm).toList⟩
  | (.judge norm, some _) => ⟨[], some (r.first.getD norm), none, r.kept⟩

def record (run : List (Call F × Option (Array F))) : Record F :=
  run.foldl Record.after ⟨[], none, none, []⟩

theorem first_record (run : List (Call F × Option (Array F))) :
    (record run).first = run.findSome? fun c => c.1.norm? := by
  have hfold : ∀ r : Record F, (run.foldl Record.after r).first =
      r.first.or (run.findSome? fun c => c.1.norm?) := by
    induction run with
    | nil => exact fun r => (Option.or_none).symm
    | cons c run ih =>
      intro r
      rw [List.foldl_cons, ih, List.findSome?_cons]
      obtain ⟨a | norm, answer⟩ := c
      · rfl
      · cases hfirst : r.first <;> cases answer <;> simp [Record.after, Call.norm?, hfirst]
  exact (hfold _).trans (Option.none_or)

/-! ## The record and the state -/

variable [Scalar F]

/-- The record tells what the state holds, and who kept a point had it within the bound. -/
structure Tells (r : Record F) (s : State F) : Prop where
  last : s.last = r.samples.getLast?
  memory : s.memory = [] ↔ r.samples.length ≤ 1
  first : s.firstNorm = r.first
  pending : s.pending = r.doubt
  accepted : s.accepted = r.kept.length
  doubt : r.samples = [] → r.doubt = none
  kept : ∀ j norm, r.kept[j]? = some norm →
    ∃ first, r.first = some first ∧ norm ≤ bound first j

variable {r : Record F} {s t : State F}

theorem tells_initial : Tells ⟨[], none, none, []⟩ (State.initial : State F) := by
  refine ⟨rfl, ?_, rfl, rfl, rfl, fun _ => rfl, nofun⟩
  simp [State.initial]

theorem Tells.kept_getD (h : Tells r s) (norm : F) {j : Nat} {x : F} (hx : r.kept[j]? = some x) :
    ∃ first, some (r.first.getD norm) = some first ∧ x ≤ bound first j := by
  obtain ⟨first, hfirst, hle⟩ := h.kept j x hx
  exact ⟨first, by rw [hfirst, Option.getD_some], hle⟩

theorem Tells.judge (h : Tells r s) (norm : F) :
    Tells (r.after (.judge norm, (judge norm s).1)) (judge norm s).2 := by
  unfold Anderson.judge
  dsimp only
  rw [h.first]
  split
  · rename_i hnone
    have hdoubt : r.doubt = none := h.pending.symm.trans hnone
    simp only [Record.after, hdoubt, Option.map_none, Option.toList_none, List.append_nil]
    exact ⟨h.last, h.memory, rfl, hnone, h.accepted, fun _ => rfl, fun _ _ => h.kept_getD norm⟩
  · rename_i safe hsafe
    have hdoubt : r.doubt = some safe := h.pending.symm.trans hsafe
    split
    · rename_i hle
      simp only [Record.after, hdoubt, Option.map_some, Option.toList_some]
      refine ⟨h.last, h.memory, rfl, rfl, by simp [h.accepted], fun _ => rfl, fun j x hx => ?_⟩
      rcases Nat.lt_or_ge j r.kept.length with hj | hj
      · exact h.kept_getD norm (List.getElem?_append_left hj ▸ hx)
      · rw [List.getElem?_append_right hj] at hx
        obtain ⟨hzero, rfl⟩ := List.getElem?_eq_some_iff.mp hx
        rw [List.length_singleton] at hzero
        obtain rfl : j = s.accepted := by rw [h.accepted]; omega
        exact ⟨_, rfl, by simpa using hle⟩
    · exact ⟨rfl, by simp [Record.after], rfl, rfl, h.accepted, fun _ => rfl,
        fun _ _ => h.kept_getD norm⟩

theorem judge_fst (norm : F) (s : State F) : (judge norm s).1 =
    s.pending.filter fun _ => ¬ norm ≤ bound (s.firstNorm.getD norm) s.accepted := by
  unfold Anderson.judge
  dsimp only
  split
  · rename_i hnone
    rw [hnone, Option.filter_none]
  · rename_i safe hsafe
    split <;> rename_i hle <;> simp [hsafe, Option.filter, hle]

theorem Tells.judge_fst_eq_none (h : Tells r s) (hdoubt : r.doubt = none) (norm : F) :
    (Anderson.judge norm s).1 = none := by
  rw [judge_fst, h.pending, hdoubt, Option.filter_none]

/-! ## Steps -/

theorem grown?_eq_nil_iff {size : Nat} {a : Sample F} {memory : List (Sample F)}
    (h : s.grown? size a = some memory) : memory = [] ↔ s.last = none ∧ s.memory = [] := by
  unfold State.grown? at h
  cases hlast : s.last with
  | none =>
    rw [hlast] at h
    cases h
    simp
  | some b =>
    rw [hlast] at h
    obtain ⟨d, -, h⟩ := Option.bind_eq_some_iff.mp h
    cases h
    simp [remember]

section Steps

variable [Spectral F] {size : Nat} {lambda epsZero : F}

theorem advance?_keeps {a : Sample F} {v : Array F}
    (h : advance? size lambda epsZero a s = some (v, t)) :
    t.firstNorm = s.firstNorm ∧ t.accepted = s.accepted := by
  obtain ⟨memory, -, h⟩ := Option.bind_eq_some_iff.mp h
  dsimp only at h
  split at h
  · cases h
    exact ⟨rfl, rfl⟩
  · obtain ⟨gamma, -, h⟩ := Option.bind_eq_some_iff.mp h
    obtain ⟨x, -, h⟩ := Option.bind_eq_some_iff.mp h
    cases h
    exact ⟨rfl, rfl⟩

theorem Tells.advance (h : Tells r s) {a : Sample F} {v : Array F}
    (hadv : advance? size lambda epsZero a s = some (v, t)) (answer : Option (Array F)) :
    Tells (r.after (.advance a, answer)) t := by
  obtain ⟨hgrown, hlast, hcases⟩ := advance?_eq_some hadv
  obtain ⟨hfirst, haccepted⟩ := advance?_keeps hadv
  have hempty : t.memory = [] ↔ r.samples = [] := by
    rw [grown?_eq_nil_iff hgrown, h.last, List.getLast?_eq_none_iff, and_iff_left_iff_imp]
    intro hsamples
    rw [h.memory, hsamples]
    exact Nat.zero_le 1
  have hpending : t.pending = r.samples.head?.map fun _ => a.image := by
    rcases hcases with ⟨hnil, -, hpending⟩ | ⟨hfilled, hpending, -⟩
    · have hsamples := hempty.mp hnil
      rw [hpending, h.pending, h.doubt hsamples, hsamples]
      rfl
    · obtain ⟨b, rest, hsamples⟩ := List.exists_cons_of_ne_nil (mt hempty.mpr hfilled)
      rw [hpending, hsamples]
      rfl
  refine ⟨?_, ?_, hfirst.trans h.first, hpending, haccepted.trans h.accepted, ?_, h.kept⟩
  · rw [hlast, Record.after, List.getLast?_concat]
  · rw [hempty, ← List.length_eq_zero_iff]
    simp [Record.after]
  · simp [Record.after]

theorem Tells.call (h : Tells r s) {c : Call F} {answer : Option (Array F)}
    (hc : s.call? size lambda epsZero c = some (answer, t)) : Tells (r.after (c, answer)) t := by
  cases c with
  | advance a =>
    obtain ⟨⟨v, t⟩, hadv, hc⟩ := Option.map_eq_some_iff.mp hc
    cases hc
    exact h.advance hadv _
  | judge norm =>
    obtain ⟨rfl, rfl⟩ := Prod.mk.inj (Option.some.inj hc)
    exact h.judge norm

theorem tells_record {calls : List (Call F)} {answers : List (Option (Array F))}
    (hcalls : State.initial.calls? size lambda epsZero calls = some (answers, s)) :
    Tells (record (calls.zip answers)) s :=
  State.calls?_foldl (fun _ _ _ _ _ _ h hc => h.call hc) _ tells_initial hcalls

/-! ## The next judgement -/

theorem Tells.advance_of_samples_nil (h : Tells r s) (hsamples : r.samples = []) {a : Sample F}
    {v : Array F} (hadv : advance? size lambda epsZero a s = some (v, t)) :
    v = a.image ∧ ∀ norm, (Anderson.judge norm t).1 = none := by
  have hnext := h.advance hadv none
  obtain ⟨-, -, ⟨-, rfl, -⟩ | ⟨hfilled, -⟩⟩ := advance?_eq_some hadv
  · refine ⟨rfl, fun norm => hnext.judge_fst_eq_none ?_ norm⟩
    simp [Record.after, hsamples]
  · exact absurd (hnext.memory.mpr (by simp [Record.after, hsamples])) hfilled

variable (size lambda epsZero)

/-- How a judgement turns out, by what can be told before it and by the largest residual that the
point in doubt may have. -/
structure Judged (r : Record F) (limit norm : F) (answer : Option (Array F)) (t : State F) :
    Prop where
  first : t.firstNorm = some (r.first.getD norm)
  settled : t.pending = none
  idle : r.doubt = none → answer = none ∧ t.accepted = r.kept.length
  keeps : ∀ safe, r.doubt = some safe → norm ≤ limit →
    answer = none ∧ t.accepted = r.kept.length + 1
  /-- Nothing is left to judge, neither now nor after one more step. -/
  rejects : ∀ safe, r.doubt = some safe → ¬ norm ≤ limit →
    answer = some safe ∧ t.accepted = r.kept.length ∧ t.memory = [] ∧ t.last = none ∧
      ∀ later, (judge later t).1 = none ∧ ∀ a v u, advance? size lambda epsZero a t = some (v, u) →
        v = a.image ∧ (judge later u).1 = none

variable {size lambda epsZero}

theorem Tells.judged (h : Tells r s) (norm : F) :
    Judged size lambda epsZero r (bound (r.first.getD norm) r.kept.length) norm
      (Anderson.judge norm s).1 (Anderson.judge norm s).2 := by
  have hnext := h.judge norm
  have hanswer := judge_fst norm s
  rw [h.first, h.pending, h.accepted] at hanswer
  generalize (Anderson.judge norm s).1 = answer, (Anderson.judge norm s).2 = t at *
  refine ⟨?_, ?_, fun hdoubt => ?_, fun safe hdoubt hle => ?_, fun safe hdoubt hle => ?_⟩
  · rw [hnext.first]
    cases answer <;> rfl
  · rw [hnext.pending]
    cases answer <;> rfl
  · obtain rfl : answer = none := by rw [hanswer, hdoubt, Option.filter_none]
    refine ⟨rfl, ?_⟩
    rw [hnext.accepted]
    simp [Record.after, hdoubt]
  · obtain rfl : answer = none := by simp [hanswer, hdoubt, Option.filter, hle]
    refine ⟨rfl, ?_⟩
    rw [hnext.accepted]
    simp [Record.after, hdoubt]
  · obtain rfl : answer = some safe := by simp [hanswer, hdoubt, Option.filter, hle]
    exact ⟨rfl, hnext.accepted, hnext.memory.mpr (Nat.zero_le 1), hnext.last, fun later =>
      ⟨hnext.judge_fst_eq_none rfl later, fun a v u hadv =>
        (hnext.advance_of_samples_nil rfl hadv).imp_right fun h => h later⟩⟩

/-! ## All calls -/

/-- After any calls the first judged norm is the measure of all judgements, the count is the one of
the points kept, each of which was within the limit for its number, and so the next judgement
keeps a point in doubt or gives it up for the plain step. -/
theorem judgements_within_bound (size : Nat) (lambda epsZero : F) {n : Nat}
    {calls : List (Call F)} (hcalls : ∀ a, .advance a ∈ calls → a.Sized n) :
    ∃ answers s, State.initial.calls? size lambda epsZero calls = some (answers, s) ∧
      answers.length = calls.length ∧
      let r := record (calls.zip answers)
      let limit (first : F) (j : Nat) : F :=
        1e6 * first * Scalar.pow (Scalar.ofNat j / 10.0 + 1) (-(1 + 1e-6))
      s.firstNorm = calls.findSome? Call.norm? ∧ s.accepted = r.kept.length ∧
      s.pending = r.doubt ∧
      (∀ j norm, r.kept[j]? = some norm →
        ∃ first, s.firstNorm = some first ∧ norm ≤ limit first j) ∧
      ∀ norm, ∃ answer t,
        State.initial.calls? size lambda epsZero (calls ++ [.judge norm]) =
          some (answers ++ [answer], t) ∧
        Judged size lambda epsZero r (limit (r.first.getD norm) r.kept.length) norm answer t := by
  obtain ⟨answers, s, hs, -, hlen⟩ :=
    State.calls?_total size lambda epsZero (initial_sized n) hcalls
  have htells := tells_record hs
  have hfirst : s.firstNorm = calls.findSome? Call.norm? := by
    rw [htells.first, first_record]
    calc (calls.zip answers).findSome? (fun c => c.1.norm?)
        = ((calls.zip answers).map Prod.fst).findSome? Call.norm? := by
          rw [List.findSome?_map]
          rfl
      _ = calls.findSome? Call.norm? := by rw [List.map_fst_zip hlen.ge]
  refine ⟨answers, s, hs, hlen, hfirst, htells.accepted, htells.pending, fun j norm hj => ?_,
    fun norm => ⟨_, _, State.calls?_concat hs rfl, htells.judged norm⟩⟩
  rw [htells.first]
  exact htells.kept j norm hj

end Steps

/-! ## Fractions -/

/-- Fractions, where a power takes the nearest whole exponent and every root is the number
itself. -/
@[reducible] def fractions : Scalar ℚ where
  toZero := inferInstance
  toOne := inferInstance
  toAdd := inferInstance
  toSub := inferInstance
  toMul := inferInstance
  toDiv := inferInstance
  toNeg := inferInstance
  toLE := inferInstance
  toLT := inferInstance
  beq a b := a == b
  toOfScientific := inferInstance
  decLe := inferInstance
  decLt := inferInstance
  ofNat n := n
  sqrt a := a
  abs a := |a|
  pow a b := a ^ round b
  maxNum := max
  isFinite _ := true

section Fractions

attribute [local instance] fractions

/-- Applies the function to each entry, as is right for a matrix with one entry. -/
@[reducible] def fractionsSpectral : Spectral ℚ :=
  ⟨fun _ => 0, fun a _ f work => (.ofFn a.shape fun r c => f (a.entry r c), work),
    fun _ _ _ _ => rfl, fun _ _ _ _ _ => rfl⟩

attribute [local instance] fractionsSpectral

def fractionSample (f g : ℚ) : Sample ℚ := ⟨#[f], #[g]⟩

def judgedCalls : List (Call ℚ) :=
  [.judge 2, .advance (fractionSample 1 8), .advance (fractionSample 3 4), .judge 1900000,
    .advance (fractionSample 5 9)]

theorem judged_calls : State.initial.calls? 1 0 0 judgedCalls =
    some ([none, some #[1], some #[5], none, some #[7 / 5]],
      ⟨some (fractionSample 5 9), [fractionSample 2 5], some 2, 1, some #[5]⟩) := by cbv

-- The residual that was kept before is too large now, since the limit has come down from 2000000.
theorem fraction_judgements_within_bound :
    (∀ a, .advance a ∈ judgedCalls → a.Sized 1) ∧
      ∃ answers s, State.initial.calls? 1 0 0 judgedCalls = some (answers, s) ∧
        (record (judgedCalls.zip answers)).kept = [1900000] ∧
        (1900000 : ℚ) ≤ 1e6 * 2 * Scalar.pow (Scalar.ofNat 0 / 10.0 + 1) (-(1 + 1e-6)) ∧
        ¬ (1900000 : ℚ) ≤ 1e6 * 2 * Scalar.pow (Scalar.ofNat 1 / 10.0 + 1) (-(1 + 1e-6)) ∧
        ∃ t, State.initial.calls? 1 0 0 (judgedCalls ++ [.judge 1900000]) =
            some (answers ++ [some #[5]], t) ∧ t.accepted = 1 ∧ t.memory = [] := by
  have hsized : ∀ a, .advance a ∈ judgedCalls → a.Sized 1 := by
    intro a ha
    simp only [judgedCalls, List.mem_cons, Call.advance.injEq, reduceCtorEq, List.not_mem_nil,
      or_false, false_or] at ha
    rcases ha with rfl | rfl | rfl <;> exact ⟨rfl, rfl⟩
  have hlower :
      ¬ (1900000 : ℚ) ≤ 1e6 * 2 * Scalar.pow (Scalar.ofNat 1 / 10.0 + 1) (-(1 + 1e-6)) := by
    decide +kernel
  obtain ⟨answers, s, hs, -, -, -, -, hkept, hnext⟩ := judgements_within_bound 1 0 0 hsized
  rw [judged_calls] at hs
  cases hs
  obtain ⟨answer, t, ht, hjudged⟩ := hnext 1900000
  obtain ⟨first, hfirst, hle⟩ := hkept 0 1900000 rfl
  cases hfirst
  obtain ⟨rfl, haccepted, hmemory, -⟩ := hjudged.rejects #[5] rfl hlower
  exact ⟨hsized, _, _, judged_calls, rfl, hle, hlower, t, ht, haccepted, hmemory⟩

end Fractions

end Splitting.Anderson
