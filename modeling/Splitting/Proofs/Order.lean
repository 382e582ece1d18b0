import Splitting.Proofs.Limits

/-!
# Blocks in another order

The blocks of a problem can be listed in another order. Operators that do not see each other's calls
answer the same in whatever order they are called, and leave the same state.
-/

namespace Splitting

variable {σ τ F α β : Type}

/-! ## Lists in another order -/

/-- The members of a list at the places `is`, in that order. -/
def pick (is : List Nat) (xs : List α) : List α := is.filterMap fun i => xs[i]?

section Pick

variable {is : List Nat} {xs : List α}

@[simp] theorem pick_nil (is : List Nat) : pick is ([] : List α) = [] := by
  simp [pick]

theorem pick_cons {i : Nat} {x : α} (h : xs[i]? = some x) :
    pick (i :: is) xs = x :: pick is xs := List.filterMap_cons_some h

theorem pick_skip {i : Nat} (h : xs[i]? = none) : pick (i :: is) xs = pick is xs :=
  List.filterMap_cons_none h

theorem pick_eq_map {f : Nat → α} (h : ∀ i ∈ is, xs[i]? = some (f i)) :
    pick is xs = is.map f := by
  unfold pick
  rw [List.filterMap_congr h]
  exact congrFun (List.filterMap_eq_map' (f := f)) is

theorem pick_range (xs : List α) : pick (List.range xs.length) xs = xs := by
  induction xs using List.reverseRecOn with
  | nil => rfl
  | append_singleton xs x ih =>
    have hfront : ∀ i ∈ List.range xs.length, (xs ++ [x])[i]? = xs[i]? := fun i hi =>
      List.getElem?_append_left (List.mem_range.mp hi)
    unfold pick at ih ⊢
    rw [List.length_append, List.length_singleton, List.range_succ, List.filterMap_append,
      List.filterMap_congr hfront, ih]
    simp

theorem map_pick (f : α → β) (is : List Nat) (xs : List α) :
    (pick is xs).map f = pick is (xs.map f) := by
  simp [pick, List.map_filterMap]

theorem pick_zip {ys : List β} (hx : ∀ i ∈ is, i < xs.length) (hy : ∀ i ∈ is, i < ys.length) :
    (pick is xs).zip (pick is ys) = pick is (xs.zip ys) := by
  induction is with
  | nil => rfl
  | cons i is ih =>
    obtain ⟨x, hxi⟩ : ∃ x, xs[i]? = some x := ⟨_, List.getElem?_eq_getElem (hx i (by simp))⟩
    obtain ⟨y, hyi⟩ : ∃ y, ys[i]? = some y := ⟨_, List.getElem?_eq_getElem (hy i (by simp))⟩
    have hzip : (xs.zip ys)[i]? = some (x, y) := List.getElem?_zip_eq_some.mpr ⟨hxi, hyi⟩
    rw [pick_cons hxi, pick_cons hyi, List.zip_cons_cons, pick_cons hzip]
    congr 1
    exact ih (fun j hj => hx j (List.mem_cons_of_mem i hj))
      fun j hj => hy j (List.mem_cons_of_mem i hj)

theorem pick_perm (h : is.Perm (List.range xs.length)) : (pick is xs).Perm xs := by
  have hperm := h.filterMap fun i => xs[i]?
  rwa [show (List.range xs.length).filterMap (fun i => xs[i]?) = xs from pick_range xs] at hperm

theorem lt_of_mem_perm {n i : Nat} (h : is.Perm (List.range n)) (hi : i ∈ is) : i < n :=
  List.mem_range.mp (h.mem_iff.mp hi)

theorem pick_injective {ys : List α} (hx : is.Perm (List.range xs.length))
    (hy : ys.length = xs.length) (h : pick is xs = pick is ys) : xs = ys := by
  refine List.ext_getElem hy.symm fun i hi hi' => ?_
  have hxs : pick is xs = is.map fun j => xs.getD j xs[i] := by
    refine pick_eq_map fun j hj => ?_
    rw [List.getElem?_eq_getElem (lt_of_mem_perm hx hj), List.getD_eq_getElem]
  have hys : pick is ys = is.map fun j => ys.getD j xs[i] := by
    refine pick_eq_map fun j hj => ?_
    rw [List.getElem?_eq_getElem (hy ▸ lt_of_mem_perm hx hj), List.getD_eq_getElem]
  rw [hxs, hys, List.map_inj_left] at h
  have hmem := h i (hx.mem_iff.mpr (List.mem_range.mpr hi))
  rwa [List.getD_eq_getElem _ _ hi, List.getD_eq_getElem _ _ hi'] at hmem

end Pick

/-! ## Calls in another order -/

/-- Called one after the other at the same step size, the operators answer the same and leave the
same state whichever comes first. -/
def Prox.Commutes (q q' : Prox σ F) : Prop :=
  ∀ t v v' (w : World σ F) x x' s,
    (∃ w₁ w₂, q.eval t v w = .ok x w₁ ∧ q'.eval t v' w₁ = .ok x' w₂ ∧ w₂.state = s) ↔
      ∃ w₁ w₂, q'.eval t v' w = .ok x' w₁ ∧ q.eval t v w₁ = .ok x w₂ ∧ w₂.state = s

theorem Prox.Commutes.symm {q q' : Prox σ F} (h : q.Commutes q') : q'.Commutes q :=
  fun t v v' w x x' s => (h t v' v w x' x s).symm

/-- From states with the property the operator answers every point of its dimension, and it keeps
the property. -/
def Prox.NeverFails (q : Prox σ F) (t : F) (P : σ → Prop) : Prop :=
  ∀ v w, v.size = q.dim → P w.state →
    ∃ x w', q.eval t v w = .ok x w' ∧ x.size = q.dim ∧ P w'.state

/-- From states with the property no operator fails, and none sees the calls of another. -/
structure Problem.Independent (p : Problem σ F) (t : F) (P : σ → Prop) : Prop where
  neverFails : ∀ q ∈ p.proxes, q.NeverFails t P
  oblivious : ∀ q ∈ p.proxes, q.Oblivious
  separate : p.proxes.Pairwise Prox.Commutes

namespace Solver

/-- The blocks in a list are called one after the other, each at its own part, and answer. -/
inductive Called (rho : F) (ps : List (Prox σ F)) (part ans : Nat → Array F) :
    List Nat → World σ F → World σ F → Prop
  | nil (w : World σ F) : Called rho ps part ans [] w w
  | cons {q : Prox σ F} {l : Nat} {is : List Nat} {w u w' : World σ F} :
    ps[l]? = some q → q.apply rho (part l) q.dim w = .ok (ans l) u →
      Called rho ps part ans is u w' → Called rho ps part ans (l :: is) w w'

variable {rho : F} {ps : List (Prox σ F)} {part ans : Nat → Array F} {is js : List Nat}
  {w w' : World σ F}

theorem Called.congr {ans' : Nat → Array F} (h : Called rho ps part ans is w w')
    (hans : ∀ l ∈ is, ans l = ans' l) : Called rho ps part ans' is w w' := by
  induction h with
  | nil w => exact .nil w
  | cons hq hx _ ih =>
    rw [hans _ List.mem_cons_self] at hx
    exact .cons hq hx (ih fun l hl => hans l (List.mem_cons_of_mem _ hl))

theorem Called.size (h : Called rho ps part ans is w w') {l : Nat} (hl : l ∈ is) {q : Prox σ F}
    (hq : ps[l]? = some q) : (ans l).size = q.dim := by
  induction h with
  | nil => simp at hl
  | cons hq' hx _ ih =>
    obtain ⟨-, -, -, hsize⟩ := apply_eq_ok.mp hx
    rcases List.mem_cons.mp hl with rfl | hl
    · cases hq.symm.trans hq'
      exact hsize
    · exact ih hl

theorem Called.from_state (hobl : ∀ q ∈ ps, q.Oblivious) (h : Called rho ps part ans is w w')
    {u : World σ F} (hu : w.state = u.state) :
    ∃ u', Called rho ps part ans is u u' ∧ w'.state = u'.state := by
  induction h generalizing u with
  | nil w => exact ⟨u, .nil u, hu⟩
  | cons hq hx _ ih =>
    have hrespects := (hobl _ (List.mem_of_getElem? hq)).respects
    obtain ⟨_, u₁, hx', rfl, hu₁⟩ := (hrespects.apply _ _ _).ok hx hu
    obtain ⟨u', hrest, hstate⟩ := ih hu₁
    exact ⟨u', .cons hq hx' hrest, hstate⟩

theorem commutes_of_ne (hsep : ps.Pairwise Prox.Commutes) {a b : Nat} {q q' : Prox σ F}
    (hq : ps[a]? = some q) (hq' : ps[b]? = some q') (hne : a ≠ b) : q.Commutes q' := by
  obtain ⟨ha, rfl⟩ := List.getElem?_eq_some_iff.mp hq
  obtain ⟨hb, rfl⟩ := List.getElem?_eq_some_iff.mp hq'
  rw [List.pairwise_iff_getElem] at hsep
  rcases Nat.lt_or_gt_of_ne hne with hlt | hlt
  · exact hsep a b ha hb hlt
  · exact (hsep b a hb ha hlt).symm

/-- The order of the calls changes neither the answers nor the state at the end. -/
theorem Called.perm (hobl : ∀ q ∈ ps, q.Oblivious) (hsep : ps.Pairwise Prox.Commutes)
    (hperm : is.Perm js) (hnodup : is.Nodup) (h : Called rho ps part ans is w w') {u : World σ F}
    (hu : w.state = u.state) : ∃ u', Called rho ps part ans js u u' ∧ w'.state = u'.state := by
  induction hperm generalizing w w' u with
  | nil => exact h.from_state hobl hu
  | cons l _ ih =>
    cases h with
    | cons hq hx hrest =>
      have hrespects := (hobl _ (List.mem_of_getElem? hq)).respects
      obtain ⟨_, u₁, hx', rfl, hu₁⟩ := (hrespects.apply _ _ _).ok hx hu
      obtain ⟨u', hrest', hstate⟩ := ih (List.nodup_cons.mp hnodup).2 hrest hu₁
      exact ⟨u', .cons hq hx' hrest', hstate⟩
  | swap a b l =>
    have hne : b ≠ a := fun e => (List.nodup_cons.mp hnodup).1 (e ▸ List.mem_cons_self)
    obtain _ | ⟨hqb, hb, _ | ⟨hqa, ha, hrest⟩⟩ := h
    obtain ⟨hvb, hrb, hb, hsb⟩ := apply_eq_ok.mp hb
    obtain ⟨hva, hra, ha, hsa⟩ := apply_eq_ok.mp ha
    obtain ⟨w₁, w₂, ha, hb, hstate⟩ :=
      (commutes_of_ne hsep hqb hqa hne _ _ _ _ _ _ _).mp ⟨_, _, hb, ha, rfl⟩
    have hboth : Called rho ps part ans [a, b] w w₂ :=
      .cons hqa (apply_eq_ok.mpr ⟨hva, hra, ha, hsa⟩)
        (.cons hqb (apply_eq_ok.mpr ⟨hvb, hrb, hb, hsb⟩) (.nil w₂))
    obtain ⟨u₂, hboth, hu₂⟩ := hboth.from_state hobl hu
    obtain ⟨u', hrest, hstate'⟩ := hrest.from_state hobl (hstate.symm.trans hu₂)
    obtain _ | ⟨hqa, ha, _ | ⟨hqb, hb, _ | _⟩⟩ := hboth
    exact ⟨u', .cons hqa ha (.cons hqb hb hrest), hstate'⟩
  | trans h₁ _ ih₁ ih₂ =>
    obtain ⟨v, h, hv⟩ := ih₁ hnodup h rfl
    obtain ⟨u', h, hu'⟩ := ih₂ (h₁.nodup_iff.mp hnodup) h hu
    exact ⟨u', h, hv.trans hu'⟩

theorem exists_called {P : σ → Prop} (hnever : ∀ q ∈ ps, q.NeverFails rho P) (hnodup : is.Nodup)
    (hpart : ∀ l ∈ is, ∃ q, ps[l]? = some q ∧ (part l).size = q.dim) (hw : P w.state) :
    ∃ ans w', Called rho ps part ans is w w' ∧ P w'.state := by
  induction is generalizing w with
  | nil => exact ⟨fun _ => #[], w, .nil w, hw⟩
  | cons l is ih =>
    obtain ⟨hl, hnodup⟩ := List.nodup_cons.mp hnodup
    obtain ⟨q, hq, hsize⟩ := hpart l List.mem_cons_self
    obtain ⟨x, u, hx, hsx, hu⟩ := hnever q (List.mem_of_getElem? hq) _ w hsize hw
    obtain ⟨ans, w', hrest, hw'⟩ := ih hnodup (fun k hk => hpart k (List.mem_cons_of_mem l hk)) hu
    -- the answers to the later calls stay when that of block `l` is added
    refine ⟨fun k => if k = l then x else ans k, w', .cons hq ?_ (hrest.congr ?_), hw'⟩
    · rw [if_pos rfl]
      exact apply_eq_ok.mpr ⟨hsize, rfl, hx, hsx⟩
    · intro k hk
      have hkl : k ≠ l := fun e => hl (e ▸ hk)
      rw [if_neg hkl]

theorem Called.answers (h : Called rho ps part ans is w w')
    (hpart : ∀ l ∈ is, ∀ q, ps[l]? = some q → (part l).size = q.dim) (y : Array F) :
    Answers rho (y ++ stack (is.map part)) (pick is ps) y.size w (is.map ans) w' := by
  induction h generalizing y with
  | nil w => exact .nil y.size w
  | @cons q l is w u w' hq hx _ ih =>
    have hdim := hpart l List.mem_cons_self q hq
    rw [pick_cons hq, List.map_cons, List.map_cons, stack_cons]
    refine .cons (u := u) ?_ ?_
    · rwa [← hdim, extract_append_middle, hdim]
    · rw [← Array.append_assoc, ← hdim, ← Array.size_append]
      exact ih (fun k hk => hpart k (List.mem_cons_of_mem l hk)) (y ++ part l)

end Solver

/-! ## Operators with slots of their own -/

namespace Prox

variable {q q' : Prox τ F} {l l' : Nat} {t : F} {v v' x x' : Array F}

theorem slot_eval_eq_ok {w w' : World (Array τ) F} :
    (q.slot l).eval t v w = .ok x w' ↔
      ∃ s u, w.state[l]? = some s ∧ q.eval t v (w.withState s) = .ok x u ∧
        w' = u.withState (w.state.setIfInBounds l u.state) := by
  simp only [slot, within, Run.within]
  cases hs : w.state[l]? with
  | none => simp
  | some s => cases hu : q.eval t v (w.withState s) <;> simp [hu, eq_comm]

theorem slot_swap (hq : q.Oblivious) (hq' : q'.Oblivious) (hne : l ≠ l')
    {w w₁ w₂ : World (Array τ) F} (h : (q.slot l).eval t v w = .ok x w₁)
    (h' : (q'.slot l').eval t v' w₁ = .ok x' w₂) :
    ∃ u₁ u₂, (q'.slot l').eval t v' w = .ok x' u₁ ∧ (q.slot l).eval t v u₁ = .ok x u₂ ∧
      u₂.state = w₂.state := by
  obtain ⟨s, u, hs, hu, rfl⟩ := slot_eval_eq_ok.mp h
  obtain ⟨s', u', hs', hu', rfl⟩ := slot_eval_eq_ok.mp h'
  have hkeep : w.state[l']? = some s' := by
    rwa [World.withState, Array.getElem?_setIfInBounds_ne hne] at hs'
  obtain ⟨_, y', hy', rfl, hstate'⟩ := (hq'.respects t v').ok hu' (v := w.withState s') rfl
  have hkeep' : (w.state.setIfInBounds l' y'.state)[l]? = some s := by
    rwa [Array.getElem?_setIfInBounds_ne hne.symm]
  obtain ⟨_, y, hy, rfl, hstate⟩ := (hq.respects t v).ok hu
    (v := (y'.withState (w.state.setIfInBounds l' y'.state)).withState s) rfl
  refine ⟨_, _, slot_eval_eq_ok.mpr ⟨s', y', hkeep, hy', rfl⟩,
    slot_eval_eq_ok.mpr ⟨s, y, hkeep', hy, rfl⟩, ?_⟩
  simp only [World.withState] at hstate hstate' ⊢
  rw [← hstate, ← hstate']
  exact Array.setIfInBounds_comm _ _ hne.symm

theorem slot_commutes (hq : q.Oblivious) (hq' : q'.Oblivious) (hne : l ≠ l') :
    (q.slot l).Commutes (q'.slot l') := by
  intro t v v' w x x' s
  constructor
  · rintro ⟨w₁, w₂, h, h', rfl⟩
    exact slot_swap hq hq' hne h h'
  · rintro ⟨w₁, w₂, h', h, rfl⟩
    exact slot_swap hq' hq hne.symm h' h

theorem Oblivious.slot (hq : q.Oblivious) (l : Nat) : (q.slot l).Oblivious := by
  refine fun t v => Run.alike_iff.mpr (hq.respects.slot ?_ ?_ t v)
  · rintro a _ rfl
    exact option_rel_refl (fun _ => rfl) _
  · rintro a _ s _ rfl rfl
    rfl

theorem Total.slot {n : Nat} (hq : q.Total t) (hl : l < n) :
    (q.slot l).NeverFails t fun s => s.size = n := by
  intro v w hv hw
  have hs : w.state[l]? = some w.state[l] := Array.getElem?_eq_getElem (hw ▸ hl)
  obtain ⟨x, u, hx, hsize⟩ := hq v (w.withState w.state[l]) hv
  exact ⟨x, _, slot_eval_eq_ok.mpr ⟨_, u, hs, hx, rfl⟩, hsize, by simpa [World.withState] using hw⟩

end Prox

theorem AbsSum.prox_commutes [Scalar F] (m n : Nat) (alpha beta : F) :
    (prox m alpha : Prox σ F).Commutes (prox n beta) := by
  intro t v v' w x x' s
  simp only [prox, EStateM.Result.ok.injEq]
  constructor
  · rintro ⟨_, _, ⟨hx, rfl⟩, ⟨hx', rfl⟩, hs⟩
    exact ⟨w, w, ⟨hx', rfl⟩, ⟨hx, rfl⟩, hs⟩
  · rintro ⟨_, _, ⟨hx', rfl⟩, ⟨hx, rfl⟩, hs⟩
    exact ⟨w, w, ⟨hx, rfl⟩, ⟨hx', rfl⟩, hs⟩

/-! ## Problems in another order -/

/-- The same problem with the blocks `is`, in that order. -/
def Problem.arranged (is : List Nat) (p : Problem σ F) : Problem σ F where
  proxes := pick is p.proxes
  couplings := pick is p.couplings
  rhs := p.rhs

def Solution.arranged (is : List Nat) (a : Solution F) : Solution F :=
  { a with blocks := pick is a.blocks }

theorem total_perm {ms ns : List Nat} (h : ms.Perm ns) : total ms = total ns := by
  induction h with
  | nil => rfl
  | cons n _ ih => rw [total_cons, total_cons, ih]
  | swap a b l => simp only [total_cons]; omega
  | trans _ _ ih₁ ih₂ => exact ih₁.trans ih₂

namespace Problem

variable {p : Problem σ F} {is : List Nat}

@[simp] theorem length_dims (p : Problem σ F) : p.dims.length = p.proxes.length :=
  List.length_map _

theorem dims_arranged (is : List Nat) (p : Problem σ F) : (p.arranged is).dims = pick is p.dims :=
  map_pick Prox.dim is p.proxes

variable (his : is.Perm (List.range p.proxes.length))
include his

theorem total_dims_arranged : total (p.arranged is).dims = total p.dims := by
  rw [dims_arranged]
  exact total_perm (pick_perm (by simpa [dims] using his))

theorem shapeDefect?_arranged (h : p.shapeDefect? = none) :
    (p.arranged is).shapeDefect? = none := by
  obtain ⟨hne, hlen, hfit⟩ := shapeDefect?_eq_none.mp h
  have hproxes := (pick_perm his).length_eq
  refine shapeDefect?_eq_none.mpr ⟨?_, ?_, fun q g hqg => hfit q g ?_⟩
  · intro hnil
    change pick is p.proxes = [] at hnil
    rw [hnil] at hproxes
    exact hne (List.length_eq_zero_iff.mp hproxes.symm)
  · rcases hlen with hlen | ⟨hnil, hzero⟩
    · exact Or.inl ((pick_perm (hlen ▸ his)).length_eq.trans (hlen.trans hproxes.symm))
    · exact Or.inr ⟨by simp [arranged, hnil], hzero⟩
  · rcases hlen with hlen | ⟨hnil, -⟩
    · have hlt : ∀ i ∈ is, i < p.proxes.length := fun i hi => lt_of_mem_perm his hi
      rw [arranged, pick_zip hlt fun i hi => hlen ▸ hlt i hi] at hqg
      obtain ⟨i, -, hi⟩ := List.mem_filterMap.mp hqg
      exact List.mem_of_getElem? hi
    · simp [arranged, hnil] at hqg

theorem initDefect?_arranged {vs : List (Array F)} (hlen : vs.length = p.proxes.length) :
    (p.arranged is).initDefect? (pick is vs) = none ↔ p.initDefect? vs = none := by
  rw [initDefect?_eq_none, initDefect?_eq_none, dims_arranged, map_pick]
  constructor
  · exact pick_injective (by simpa [hlen] using his) (by simp [dims, hlen])
  · exact congrArg (pick is)

theorem init_arranged {init : Option (List (Array F))} (h : init.bind p.initDefect? = none) :
    (init.map (pick is)).bind (p.arranged is).initDefect? = none := by
  cases init with
  | none => rfl
  | some vs =>
    have hvs := congrArg List.length (initDefect?_eq_none.mp h)
    rw [List.length_map, length_dims] at hvs
    exact (initDefect?_arranged his hvs).mpr h

end Problem

namespace Solver

variable {par : Params F} {p : Problem σ F} {is : List Nat}
  (his : is.Perm (List.range p.proxes.length))
include his

theorem defect?_arranged [Scalar F] (hshape : p.shapeDefect? = none)
    {init : Option (List (Array F))} (hinit : init.bind p.initDefect? = none) :
    defect? par (init.map (pick is)) (p.arranged is) = defect? par init p := by
  unfold defect?
  rw [hshape, Problem.shapeDefect?_arranged his hshape]
  dsimp only
  rw [hinit, Problem.init_arranged his hinit]

theorem hasRoom_arranged : HasRoom par (p.arranged is).dims ↔ HasRoom par p.dims := by
  unfold HasRoom
  rw [Problem.total_dims_arranged his]

end Solver

/-! ## Starting points that do not fit -/

namespace Problem

/-- Block `l` is the first one whose starting vector does not have its dimension. -/
structure FirstMisfit (p : Problem σ F) (vs : List (Array F)) (l len dim : Nat) : Prop where
  before : (vs.map Array.size).take l = p.dims.take l
  found : (vs.map Array.size)[l]? = some len
  wanted : p.dims[l]? = some dim
  ne : len ≠ dim

theorem exists_of_lengthDefect? {ps : List (Prox σ F)} {vs : List (Array F)} {k : Nat} {d : Defect}
    (h : lengthDefect? k ps vs = some d) :
    ∃ l len dim, d = .initMismatch (k + l) len dim ∧
      (vs.map Array.size).take l = (ps.map Prox.dim).take l ∧
      (vs.map Array.size)[l]? = some len ∧ (ps.map Prox.dim)[l]? = some dim ∧ len ≠ dim := by
  induction ps generalizing k vs with
  | nil => simp [lengthDefect?] at h
  | cons q ps ih =>
    cases vs with
    | nil => simp [lengthDefect?] at h
    | cons v vs =>
      unfold lengthDefect? at h
      split at h
      · rename_i hne
        cases h
        exact ⟨0, v.size, q.dim, rfl, rfl, rfl, rfl, hne⟩
      · rename_i heq
        obtain ⟨l, len, dim, rfl, hbefore, hlen, hdim, hne⟩ := ih h
        refine ⟨l + 1, len, dim, by rw [Nat.add_assoc, Nat.add_comm 1], ?_, hlen, hdim, hne⟩
        simpa [hbefore] using heq

theorem exists_firstMisfit {p : Problem σ F} {vs : List (Array F)}
    (hlen : vs.length = p.proxes.length) (h : p.initDefect? vs ≠ none) :
    ∃ l len dim, p.initDefect? vs = some (.initMismatch l len dim) ∧
      p.FirstMisfit vs l len dim := by
  obtain ⟨d, hd⟩ := Option.ne_none_iff_exists'.mp h
  have hlength := hd
  rw [initDefect?, if_neg (not_not.mpr hlen)] at hlength
  obtain ⟨l, len, dim, rfl, hbefore, hl, hdim, hne⟩ := exists_of_lengthDefect? hlength
  rw [Nat.zero_add] at hd
  exact ⟨l, len, dim, hd, hbefore, hl, hdim, hne⟩

end Problem

end Splitting
