import Splitting.Proofs.Order

/-!
# Operators on their own

Operators with states of their own, called one after the other at the parts of a stacked vector,
answer what each of them answers alone.
-/

namespace Splitting

variable {τ F : Type}

namespace Prox

variable {q : Prox τ F} {t : F}

/-- The operator is called `n` times in a row, first at `v` and then at its last answer. -/
def repeated (q : Prox τ F) (t : F) (v : Array F) : Nat → Run τ F ProxError (Array F)
  | 0 => pure v
  | n + 1 => do
    let x ← q.repeated t v n
    q.apply t x q.dim

theorem repeated_succ_eq_ok {v y : Array F} {n : Nat} {w u : World τ F} :
    q.repeated t v (n + 1) w = .ok y u ↔
      ∃ x u', q.repeated t v n w = .ok x u' ∧ q.apply t x q.dim u' = .ok y u :=
  Run.bind_eq_ok

/-- From this state on the operator answers every point of its dimension, however often it is
called. -/
def Lasting (q : Prox τ F) (t : F) (s : τ) : Prop := ∃ P : τ → Prop, P s ∧ q.NeverFails t P

theorem neverFails_lasting (q : Prox τ F) (t : F) : q.NeverFails t (q.Lasting t) := by
  rintro v w hv ⟨P, hP, hnever⟩
  obtain ⟨x, u, hx, hsize, hu⟩ := hnever v w hv hP
  exact ⟨x, u, hx, hsize, P, hu, hnever⟩

theorem Total.lasting (h : q.Total t) (s : τ) : q.Lasting t s := by
  refine ⟨fun _ => True, trivial, fun v w hv _ => ?_⟩
  obtain ⟨x, u, hx, hsize⟩ := h v w hv
  exact ⟨x, u, hx, hsize, trivial⟩

end Prox

/-- A problem without coupling, each operator with a slot of the state for itself. -/
def Problem.decoupled (qs : List (Prox τ F)) : Problem (Array τ) F where
  proxes := qs.mapIdx fun l q => q.slot l
  couplings := []
  rhs := #[]

@[simp] theorem Problem.dims_decoupled (qs : List (Prox τ F)) :
    (Problem.decoupled qs).dims = qs.map Prox.dim := by
  refine List.ext_getElem (by simp [dims, decoupled]) fun l _ _ => ?_
  simp [dims, decoupled, Prox.slot, Prox.within]

def AllLasting (t : F) (qs : List (Prox τ F)) (ss : Array τ) : Prop :=
  ∀ (l : Nat) q, qs[l]? = some q → ∃ s, ss[l]? = some s ∧ q.Lasting t s

theorem neverFails_allLasting {t : F} {qs : List (Prox τ F)} {q : Prox (Array τ) F}
    (hq : q ∈ (Problem.decoupled qs).proxes) : q.NeverFails t (AllLasting t qs) := by
  obtain ⟨l, hl, rfl⟩ := List.mem_mapIdx.mp hq
  intro v w hv hw
  obtain ⟨s, hs, hlast⟩ := hw l _ (List.getElem?_eq_getElem hl)
  obtain ⟨x, u, hx, hsize, hu⟩ := Prox.neverFails_lasting qs[l] t v (w.withState s) hv hlast
  refine ⟨x, _, Prox.slot_eval_eq_ok.mpr ⟨s, u, hs, hx, rfl⟩, hsize, fun j q' hq' => ?_⟩
  obtain ⟨s', hs', hlast'⟩ := hw j q' hq'
  by_cases hjl : l = j
  · subst hjl
    obtain rfl : qs[l] = q' := by simpa [hl] using hq'
    refine ⟨u.state, ?_, hu⟩
    obtain ⟨hsl, -⟩ := Array.getElem?_eq_some_iff.mp hs
    exact Array.getElem?_setIfInBounds_self_of_lt hsl
  · refine ⟨s', ?_, hlast'⟩
    show (w.state.setIfInBounds l u.state)[j]? = some s'
    rw [Array.getElem?_setIfInBounds_ne hjl, hs']

namespace Solver

/-! ## One round of calls -/

theorem Answers.exists_of_neverFails {σ : Type} {P : σ → Prop} {rho : F} {v : Array F}
    {ps : List (Prox σ F)} (hnever : ∀ q ∈ ps, q.NeverFails rho P) {start : Nat}
    (hv : start + total (ps.map Prox.dim) ≤ v.size) {w : World σ F} (hw : P w.state) :
    ∃ xs w', Answers rho v ps start w xs w' ∧ P w'.state := by
  induction ps generalizing start w with
  | nil => exact ⟨[], w, .nil start w, hw⟩
  | cons p ps ih =>
    simp only [List.map_cons, total_cons] at hv
    have hsize : (v.extract start (start + p.dim)).size = p.dim := by simp; omega
    obtain ⟨x, u, hx, hsx, hu⟩ := hnever p List.mem_cons_self _ w hsize hw
    have hroom : start + p.dim + total (ps.map Prox.dim) ≤ v.size := by omega
    obtain ⟨xs, w', hxs, hw'⟩ := ih (fun q hq => hnever q (List.mem_cons_of_mem p hq)) hroom hu
    exact ⟨x :: xs, w', .cons (apply_eq_ok.mpr ⟨hsize, rfl, hx, hsx⟩) hxs, hw'⟩

theorem Answers.unique {σ : Type} {rho : F} {v : Array F} {ps : List (Prox σ F)} {start : Nat}
    {w w' w'' : World σ F} {xs ys : List (Array F)} (h : Answers rho v ps start w xs w')
    (h' : Answers rho v ps start w ys w'') : xs = ys ∧ w' = w'' := by
  induction h generalizing ys w'' with
  | nil =>
    cases h'
    exact ⟨rfl, rfl⟩
  | cons hx _ ih =>
    obtain _ | ⟨hy, hys⟩ := h'
    cases hx.symm.trans hy
    obtain ⟨rfl, rfl⟩ := ih hys
    exact ⟨rfl, rfl⟩

theorem Answers.of_slots {t : F} {v : Array F} {qs : List (Prox τ F)}
    (hobl : ∀ q ∈ qs, q.Oblivious) {k start : Nat} {w w' : World (Array τ) F}
    {ys : List (Array F)}
    (h : Answers t v (qs.mapIdx fun l q => q.slot (k + l)) start w ys w') :
    (∀ j < k, w'.state[j]? = w.state[j]?) ∧
    ∀ (l : Nat) q, qs[l]? = some q → ∃ s part y u, w.state[k + l]? = some s ∧
      (cut v (qs.map Prox.dim) start)[l]? = some part ∧ ys[l]? = some y ∧
      q.apply t part q.dim (.start s none) = .ok y u ∧ w'.state[k + l]? = some u.state := by
  induction qs generalizing k start w ys with
  | nil =>
    cases h
    exact ⟨fun _ _ => rfl, fun l q hq => by simp at hq⟩
  | cons q qs ih =>
    have hindex : (fun (l : Nat) (q : Prox τ F) => q.slot (k + (l + 1))) =
        fun l q => q.slot (k + 1 + l) := by
      funext l q
      rw [Nat.add_comm l, Nat.add_assoc]
    rw [List.mapIdx_cons, hindex] at h
    obtain _ | ⟨hx, hrest⟩ := h
    rename_i y ys w₁
    obtain ⟨hkeep, hown⟩ := ih (fun q hq => hobl q (List.mem_cons_of_mem _ hq)) hrest
    obtain ⟨hsize, -, heval, hsy⟩ := apply_eq_ok.mp hx
    obtain ⟨s, u, hs, hu, rfl⟩ := Prox.slot_eval_eq_ok.mp heval
    have hother : ∀ j, k ≠ j → (w.state.setIfInBounds k u.state)[j]? = w.state[j]? :=
      fun j hj => Array.getElem?_setIfInBounds_ne hj
    refine ⟨fun j hj => ?_, fun l q' hq' => ?_⟩
    · rw [hkeep j (by omega)]
      exact hother j (by omega)
    · cases l with
      | zero =>
        cases hq'
        have hrespects := (hobl q List.mem_cons_self).respects
        obtain ⟨_, u', hx', rfl, hstate⟩ := (hrespects.apply _ _ _).ok
          (apply_eq_ok.mpr ⟨hsize, rfl, hu, hsy⟩) (v := .start s none) rfl
        refine ⟨s, _, y, u', hs, rfl, rfl, hx', ?_⟩
        rw [Nat.add_zero, hkeep k (Nat.lt_succ_self k), ← hstate]
        obtain ⟨hk, -⟩ := Array.getElem?_eq_some_iff.mp hs
        exact Array.getElem?_setIfInBounds_self_of_lt hk
      | succ l =>
        obtain ⟨s', part, y', u', hs', hpart, hy', hx', hstate⟩ := hown l q' hq'
        rw [Nat.add_assoc, Nat.add_comm 1] at hs' hstate
        refine ⟨s', part, y', u', ?_, hpart, hy', hx', hstate⟩
        rw [← hs']
        exact (hother _ (by omega)).symm

/-! ## Round after round -/

/-- Each operator alone, called `n` times in a row from its state in `ss` and its vector in `vs`,
ends in its state in `ss'` with its vector in `xs`. -/
structure Separately (t : F) (qs : List (Prox τ F)) (ss : Array τ) (vs : List (Array F)) (n : Nat)
    (xs : List (Array F)) (ss' : Array τ) : Prop where
  sizes : xs.map Array.size = qs.map Prox.dim
  block : ∀ (l : Nat) q, qs[l]? = some q → ∃ s v x u, ss[l]? = some s ∧ vs[l]? = some v ∧
    xs[l]? = some x ∧ q.repeated t v n (.start s none) = .ok x u ∧ ss'[l]? = some u.state

variable {t : F} {qs : List (Prox τ F)} {ss : Array τ} {vs : List (Array F)}

theorem Separately.start (hlast : AllLasting t qs ss)
    (hsizes : vs.map Array.size = qs.map Prox.dim) : Separately t qs ss vs 0 vs ss := by
  refine ⟨hsizes, fun l q hq => ?_⟩
  obtain ⟨s, hs, -⟩ := hlast l q hq
  have hlen := congrArg List.length hsizes
  simp only [List.length_map] at hlen
  obtain ⟨hl, -⟩ := List.getElem?_eq_some_iff.mp hq
  exact ⟨s, vs[l], vs[l], .start s none, hs, by simp, by simp, rfl, hs⟩

theorem Separately.next (hobl : ∀ q ∈ qs, q.Oblivious) {n : Nat} {xs ys : List (Array F)}
    {w w' : World (Array τ) F} (h : Separately t qs ss vs n xs w.state)
    (hys : Answers t (stack xs) (Problem.decoupled qs).proxes 0 w ys w') :
    Separately t qs ss vs (n + 1) ys w'.state := by
  refine ⟨hys.sizes.trans (Problem.dims_decoupled qs), fun l q hq => ?_⟩
  have hslots : (Problem.decoupled qs).proxes = qs.mapIdx fun l q => q.slot (0 + l) := by
    simp [Problem.decoupled]
  rw [hslots] at hys
  obtain ⟨-, hown⟩ := Answers.of_slots hobl hys
  obtain ⟨s', part, y, u', hs', hpart, hy, hx', hstate⟩ := hown l q hq
  obtain ⟨s, v, x, u, hs, hv, hx, hrep, hu⟩ := h.block l q hq
  rw [← h.sizes, cut_stack, hx] at hpart
  rw [Nat.zero_add] at hs' hstate
  obtain rfl : x = part := Option.some.inj hpart
  -- the state is the one that the calls alone have left
  obtain rfl : u.state = s' := Option.some.inj (hu.symm.trans hs')
  have hrespects := (hobl q (List.mem_of_getElem? hq)).respects
  obtain ⟨_, u'', hx'', rfl, hstate'⟩ := (hrespects.apply _ _ _).ok hx' (v := u) rfl
  refine ⟨s, v, y, u'', hs, hv, hy, Prox.repeated_succ_eq_ok.mpr ⟨x, u, hrep, hx''⟩, ?_⟩
  rw [hstate]
  exact congrArg some hstate'

theorem AnswersAt.unique {σ : Type} [Scalar F] [Spectral F] {par : Params F}
    {init : Option (List (Array F))} {p : Problem σ F} {w : World σ F} {i : Nat}
    {xs ys : List (Array F)} (h : AnswersAt par init p w i xs) (h' : AnswersAt par init p w i ys) :
    xs = ys := by
  obtain ⟨proj, u, q, t, v, hp, hq, hxs⟩ := h
  obtain ⟨proj', u', q', t', v', hp', hq', hys⟩ := h'
  cases hp.symm.trans hp'
  cases hq.symm.trans hq'
  exact (hxs.unique hys).1

/-! ## Starting vectors -/

variable [Scalar F]

def starts (qs : List (Prox τ F)) (init : Option (List (Array F))) : List (Array F) :=
  init.getD (qs.map fun q => Vec.zeros q.dim)

theorem stack_zeros (ns : List Nat) :
    stack (ns.map fun n => (Vec.zeros n : Array F)) = Vec.zeros (total ns) := by
  induction ns with
  | nil => rfl
  | cons n ns ih =>
    rw [List.map_cons, stack_cons, ih, total_cons]
    simp [Vec.zeros]

theorem startPoint_decoupled {init : Option (List (Array F))} :
    startPoint (Problem.decoupled qs).dims init = stack (starts qs init) := by
  cases init with
  | none =>
    have hzeros := stack_zeros (F := F) (qs.map Prox.dim)
    rw [List.map_map] at hzeros
    rw [Problem.dims_decoupled]
    exact hzeros.symm
  | some vs => rfl

/-- Block by block: where the operator alone leads in `n` calls from its starting vector. -/
def OwnPoints (t : F) (init : Option (List (Array F))) (qs : List (Prox τ F)) (ss : Array τ)
    (n : Nat) (xs : List (Array F)) : Prop :=
  ∃ ss', Separately t qs ss (starts qs init) n xs ss'

end Solver

end Splitting
