import Splitting.Proofs.Verdict

/-!
# The calls of a run

A recorded run lists the calls of its blocks beside their state and is the plain run otherwise. An
iteration calls the blocks in order, each at its slice of the iterate, and the first call that fails
is the last of the run.
-/

namespace Splitting

open Prox (Call)

variable {σ F ε α β : Type}

/-! ## Worlds with a list of calls -/

def World.listing (calls : Array (Call F)) (w : World σ F) : World (σ × Array (Call F)) F :=
  w.withState (w.state, calls)

theorem World.listing_note (calls : Array (Call F)) (e : Event F) (w : World σ F) :
    (w.listing calls).note e = (w.note e).listing calls := by
  unfold note
  show (if w.watches e.level then _ else _) = _
  split <;> rfl

namespace Run

/-- The same end, in a world with a list of calls. -/
def listing (calls : Array (Call F)) :
    EStateM.Result (Halt ε) (World σ F) α →
      EStateM.Result (Halt ε) (World (σ × Array (Call F)) F) α
  | .ok a w => .ok a (w.listing calls)
  | .error h w => .error h (w.listing calls)

/-- The second run does what the first does, and lists no call. -/
def Silent (m : Run σ F ε α) (n : Run (σ × Array (Call F)) F ε α) : Prop :=
  ∀ calls w, n (w.listing calls) = listing calls (m w)

theorem silent_pure (a : α) : Silent (pure a : Run σ F ε α) (pure a) := fun _ _ => rfl

theorem silent_fail (e : ε) : Silent (fail e : Run σ F ε α) (fail e) := fun _ _ => rfl

theorem silent_note (e : Event F) : Silent (note e : Run σ F ε Unit) (note e) := fun calls w => by
  rw [note_apply, note_apply, World.listing_note]
  rfl

theorem silent_demand (o : Option α) : Silent (demand o : Run σ F ε α) (demand o) := by
  intro calls w
  cases o <;> rfl

theorem silent_require (p : Prop) [Decidable p] :
    Silent (require p : Run σ F ε Unit) (require p) := by
  intro calls w
  unfold require
  split <;> rfl

theorem silent_check (d : Option Defect) :
    Silent (check d : Run σ F SolverError Unit) (check d) := by
  intro calls w
  cases d with
  | none => rfl
  | some d =>
    show EStateM.Result.error _ ((w.listing calls).note (.refused d)) = _
    rw [World.listing_note]
    rfl

theorem silent_bind {m : Run σ F ε α} {n : Run (σ × Array (Call F)) F ε α} {f : α → Run σ F ε β}
    {g : α → Run (σ × Array (Call F)) F ε β} (h : Silent m n) (hf : ∀ a, Silent (f a) (g a)) :
    Silent (m >>= f) (n >>= g) := by
  intro calls w
  rw [bind_apply, bind_apply, h calls w]
  cases m w with
  | ok a v => exact hf a calls v
  | error e v => rfl

end Run

/-! ## The checks -/

namespace Problem

def recorded (p : Problem σ F) : Problem (σ × Array (Call F)) F := p.mapProxes Prox.recorded

theorem map_dim_recorded (proxes : List (Prox σ F)) :
    (proxes.mapIdx Prox.recorded).map Prox.dim = proxes.map Prox.dim := by
  refine List.ext_getElem (by simp) fun i _ _ => ?_
  simp [Prox.recorded]

theorem couplingDefect?_congr {τ : Type} {lenH l : Nat} {ps : List (Prox σ F)}
    {qs : List (Prox τ F)} (h : ps.map Prox.dim = qs.map Prox.dim) (gs : List (Operator F)) :
    couplingDefect? lenH l ps gs = couplingDefect? lenH l qs gs := by
  induction ps generalizing l qs gs with
  | nil =>
    obtain rfl := List.map_eq_nil_iff.mp h.symm
    rfl
  | cons p ps ih =>
    cases qs with
    | nil => cases h
    | cons q qs =>
      obtain ⟨hdim, h⟩ := List.cons.inj h
      cases gs with
      | nil => rfl
      | cons g gs => rw [couplingDefect?, couplingDefect?, ih h, hdim]

theorem lengthDefect?_congr {τ : Type} {l : Nat} {ps : List (Prox σ F)} {qs : List (Prox τ F)}
    (h : ps.map Prox.dim = qs.map Prox.dim) (vs : List (Array F)) :
    lengthDefect? l ps vs = lengthDefect? l qs vs := by
  induction ps generalizing l qs vs with
  | nil =>
    obtain rfl := List.map_eq_nil_iff.mp h.symm
    rfl
  | cons p ps ih =>
    cases qs with
    | nil => cases h
    | cons q qs =>
      obtain ⟨hdim, h⟩ := List.cons.inj h
      cases vs with
      | nil => rfl
      | cons v vs => rw [lengthDefect?, lengthDefect?, ih h, hdim]

theorem shapeDefect?_recorded (p : Problem σ F) : p.recorded.shapeDefect? = p.shapeDefect? := by
  unfold shapeDefect? shapeDefectOf? recorded mapProxes
  rw [List.length_mapIdx, couplingDefect?_congr (map_dim_recorded p.proxes)]

theorem initDefect?_recorded (p : Problem σ F) : p.recorded.initDefect? = p.initDefect? := by
  funext vs
  unfold initDefect? recorded mapProxes
  rw [List.length_mapIdx, lengthDefect?_congr (map_dim_recorded p.proxes)]

theorem dims_recorded (p : Problem σ F) : p.recorded.dims = p.dims := map_dim_recorded p.proxes

end Problem

theorem Solver.defect?_recorded [Scalar F] (par : Params F) (init : Option (List (Array F)))
    (p : Problem σ F) : defect? par init p.recorded = defect? par init p := by
  unfold defect?
  rw [Problem.shapeDefect?_recorded, Problem.initDefect?_recorded]

/-! ## The calls of an iteration -/

theorem Prox.apply_eq (q : Prox σ F) (t : F) (v : Array F) (w : World σ F) :
    q.apply t v q.dim w =
      if v.size = q.dim then
        match q.eval t v w with
        | .ok x u => if x.size = q.dim then .ok x u else .error .misuse u
        | .error h u => .error h u
      else .error .misuse w := by
  unfold apply
  rw [Run.bind_apply]
  by_cases hv : v.size = q.dim
  · rw [if_pos hv]
    simp only [Run.require, hv, and_self, if_true]
    rw [Run.bind_apply]
    cases q.eval t v w with
    | ok x u =>
      by_cases hx : x.size = q.dim
      · simp only [Run.bind_apply, hx, if_true]
        rfl
      · simp only [Run.bind_apply, Run.require, hx, if_false]
    | error h u => rfl
  · simp only [Run.require, hv, false_and, if_false]

theorem Prox.apply_recorded (block : Nat) (q : Prox σ F) (t : F) (v : Array F)
    (calls : Array (Call F)) (w : World σ F) :
    (q.recorded block).apply t v q.dim (w.listing calls) =
      match q.apply t v q.dim w with
      | .ok x u => .ok x (u.listing (calls.push ⟨block, t, v, .ok x⟩))
      | .error (.error e) u => .error (.error e) (u.listing (calls.push ⟨block, t, v, .error e⟩))
      | .error .misuse u => .error .misuse (u.listing calls) := by
  have heval : (q.recorded block).eval t v (w.listing calls) =
      match q.apply t v q.dim w with
      | .ok x u => .ok x (u.listing (calls.push ⟨block, t, v, .ok x⟩))
      | .error (.error e) u => .error (.error e) (u.listing (calls.push ⟨block, t, v, .error e⟩))
      | .error .misuse u => .error .misuse (u.listing calls) := rfl
  have h := (q.recorded block).apply_eq t v (w.listing calls)
  change (q.recorded block).apply t v q.dim (w.listing calls) = if v.size = q.dim then _ else _ at h
  rw [h, heval]
  by_cases hv : v.size = q.dim
  · rw [if_pos hv]
    cases ha : q.apply t v q.dim w with
    | ok x u => exact if_pos (Solver.apply_eq_ok.mp ha).2.2.2
    | error e u => cases e <;> rfl
  · rw [if_neg hv, Prox.apply_eq, if_neg hv]

namespace Solver

/-- The calls of the blocks from `block` on, each at its part of `v`, which begins at `start`. -/
def proxCalls (rho : F) (v : Array F) :
    List (Prox σ F) → Nat → Nat → World σ F → List (Call F)
  | [], _, _, _ => []
  | p :: ps, block, start, w =>
    let part := v.extract start (start + p.dim)
    match p.apply rho part p.dim w with
    | .ok x w => ⟨block, rho, part, .ok x⟩ :: proxCalls rho v ps (block + 1) (start + p.dim) w
    | .error (.error e) _ => [⟨block, rho, part, .error e⟩]
    | .error .misuse _ => []

theorem proxPoints_recorded (rho : F) (iter : Nat) (v : Array F) (ps : List (Prox σ F))
    (block start : Nat) (x : Array F) (calls : Array (Call F)) (w : World σ F) :
    proxPoints rho iter v (ps.mapIdx fun i => Prox.recorded (block + i)) block start x
        (w.listing calls) =
      Run.listing (calls ++ proxCalls rho v ps block start w)
        (proxPoints rho iter v ps block start x w) := by
  induction ps generalizing block start x calls w with
  | nil => simp [proxPoints, proxCalls, Run.listing]
  | cons p ps ih =>
    have hrest : (ps.mapIdx fun i => Prox.recorded (block + (i + 1))) =
        ps.mapIdx fun i => Prox.recorded (block + 1 + i) := by
      congr 1
      funext i
      rw [Nat.add_assoc, Nat.add_comm 1 i]
    have happ := Prox.apply_recorded block p rho (v.extract start (start + p.dim)) calls w
    have hdim : (p.recorded block).dim = p.dim := rfl
    rw [List.mapIdx_cons, hrest, Nat.add_zero]
    unfold proxPoints proxCalls
    dsimp only
    rw [hdim, happ]
    cases p.apply rho (v.extract start (start + p.dim)) p.dim w with
    | ok y u =>
      dsimp only
      rw [ih, Array.appendList_cons]
    | error h u =>
      cases h with
      | error e =>
        dsimp only
        rw [World.listing_note, Array.appendList_cons, Array.appendList_nil]
        rfl
      | misuse => simp [Run.listing]

/-- Call `j` of the blocks from `block` on, the first of which is at `start`. -/
structure CallAt (rho : F) (v : Array F) (dims : List Nat) (block start j : Nat) (c : Call F) :
    Prop where
  block : c.block = block + j
  step : c.step = rho
  point : (cut v dims start)[j]? = some c.point
  size : dims[j]? = some c.point.size

variable {rho : F} {iter : Nat} {v x : Array F} {ps : List (Prox σ F)} {block start : Nat}
  {w w' : World σ F}

theorem CallAt.succ {dims : List Nat} {n j : Nat} {c : Call F}
    (h : CallAt rho v dims (block + 1) (start + n) j c) :
    CallAt rho v (n :: dims) block start (j + 1) c :=
  ⟨by rw [h.block]; omega, h.step, h.point, h.size⟩

theorem callAt_of_getElem? {j : Nat} {c : Call F}
    (h : (proxCalls rho v ps block start w)[j]? = some c) :
    CallAt rho v (ps.map Prox.dim) block start j c := by
  induction ps generalizing block start w j with
  | nil => simp [proxCalls] at h
  | cons p ps ih =>
    have hfirst : ∀ answer, (v.extract start (start + p.dim)).size = p.dim →
        CallAt rho v (p.dim :: ps.map Prox.dim) block start 0
          ⟨block, rho, v.extract start (start + p.dim), answer⟩ := fun answer hv =>
      ⟨rfl, rfl, rfl, congrArg some hv.symm⟩
    unfold proxCalls at h
    dsimp only at h
    split at h
    · rename_i y u hy
      cases j with
      | zero =>
        cases h
        exact hfirst _ (apply_eq_ok.mp hy).1
      | succ j => exact (ih h).succ
    · rename_i e u he
      cases j with
      | zero =>
        cases h
        exact hfirst _ (eval_of_apply_failed he).1
      | succ j => cases h
    · cases h

theorem length_proxCalls_le : (proxCalls rho v ps block start w).length ≤ ps.length := by
  refine Nat.not_lt.mp fun hlt => ?_
  have h := (callAt_of_getElem? (List.getElem?_eq_getElem hlt)).size
  simp at h

theorem length_proxCalls {y : Array F} (h : proxPoints rho iter v ps block start x w = .ok y w') :
    (proxCalls rho v ps block start w).length = ps.length := by
  induction ps generalizing block start x w with
  | nil => rfl
  | cons p ps ih =>
    unfold proxPoints at h
    unfold proxCalls
    dsimp only
    cases hp : p.apply rho (v.extract start (start + p.dim)) p.dim w with
    | ok z u =>
      rw [hp] at h
      rw [List.length_cons, List.length_cons, ih h]
    | error e u =>
      rw [hp] at h
      cases e <;> cases h

theorem proxPoints_of_failed (iter : Nat) (x : Array F) {j : Nat} {c : Call F} {e : ProxError}
    (h : (proxCalls rho v ps block start w)[j]? = some c) (he : c.answer = .error e) :
    (proxCalls rho v ps block start w).length = j + 1 ∧
      ∃ u, proxPoints rho iter v ps block start x w =
        .error (.error (.ofProx (block + j) e)) u := by
  induction ps generalizing block start x w j with
  | nil => simp [proxCalls] at h
  | cons p ps ih =>
    unfold proxPoints
    unfold proxCalls at h ⊢
    dsimp only at h ⊢
    cases hp : p.apply rho (v.extract start (start + p.dim)) p.dim w with
    | ok z u =>
      rw [hp] at h
      cases j with
      | zero =>
        cases h
        cases he
      | succ j =>
        obtain ⟨hlen, u', hu⟩ := ih (x ++ z) h
        refine ⟨by rw [List.length_cons, hlen], u', ?_⟩
        dsimp only
        rw [hu, Nat.add_assoc, Nat.add_comm 1 j]
    | error d u =>
      rw [hp] at h
      cases d with
      | misuse => cases h
      | error d =>
        cases j with
        | zero =>
          cases h
          cases he
          exact ⟨rfl, _, rfl⟩
        | succ j => cases h

theorem failed_of_proxPoints {d : SolverError}
    (h : proxPoints rho iter v ps block start x w = .error (.error d) w') :
    ∃ j c e, (proxCalls rho v ps block start w)[j]? = some c ∧ c.answer = .error e ∧
      d = .ofProx (block + j) e := by
  induction ps generalizing block start x w with
  | nil => cases h
  | cons p ps ih =>
    unfold proxPoints at h
    unfold proxCalls
    dsimp only
    cases hp : p.apply rho (v.extract start (start + p.dim)) p.dim w with
    | ok z u =>
      rw [hp] at h
      obtain ⟨j, c, e, hj, he, rfl⟩ := ih h
      exact ⟨j + 1, c, e, hj, he, by rw [Nat.add_assoc, Nat.add_comm 1 j]⟩
    | error b u =>
      rw [hp] at h
      cases b with
      | misuse => cases h
      | error e =>
        cases h
        exact ⟨0, _, e, rfl, rfl, rfl⟩

theorem proxCalls_ne_nil (hs : ∀ q ∈ ps, q.Sound rho) (hps : ps ≠ [])
    (hv : start + total (ps.map Prox.dim) ≤ v.size) : proxCalls rho v ps block start w ≠ [] := by
  obtain ⟨p, ps, rfl⟩ := List.exists_cons_of_ne_nil hps
  simp only [List.map_cons, total_cons] at hv
  have hsize : (v.extract start (start + p.dim)).size = p.dim := by simp; omega
  unfold proxCalls
  dsimp only
  split
  · exact List.cons_ne_nil _ _
  · exact List.cons_ne_nil _ _
  · rename_i hmisuse
    exact absurd hmisuse (Prox.apply_ne_misuse (hs p List.mem_cons_self) hsize w _)

/-! ## The calls of a run -/

def callsIn [Scalar F] (par : Params F) (proxes : List (Prox σ F)) (p : Progress F)
    (w : World σ F) : List (Call F) :=
  proxCalls par.rho p.v proxes 0 0 (opened par p.iter w)

theorem opened_listing (par : Params F) (iter : Nat) (calls : Array (Call F)) (w : World σ F) :
    opened par iter (w.listing calls) = (opened par iter w).listing calls := by
  unfold opened
  rw [World.listing_note]
  show (if _ then if w.watches .debug then _ else _ else _) = _
  split
  · split <;> rfl
  · rfl

variable [Scalar F] {par : Params F} {proxes : List (Prox σ F)} {proj : Projection F}
  {p : Progress F}

theorem look_recorded (calls : Array (Call F)) (w : World σ F) :
    look par (proxes.mapIdx Prox.recorded) proj p (w.listing calls) =
      Run.listing (calls ++ callsIn par proxes p w) (look par proxes proj p w) := by
  have hprox := proxPoints_recorded par.rho p.iter p.v proxes 0 0 #[] calls (opened par p.iter w)
  simp only [Nat.zero_add] at hprox
  rw [look_apply, look_apply, opened_listing, Run.bind_apply, Run.bind_apply, hprox]
  cases proxPoints par.rho p.iter p.v proxes 0 0 #[] (opened par p.iter w) with
  | error h u => rfl
  | ok x u =>
    refine Run.silent_bind (Run.silent_demand _) (fun m => ?_) _ u
    exact Run.silent_pure _

variable [Spectral F]

theorem goOn_silent (m : Measure F) :
    Run.Silent (goOn par p m : Run σ F SolverError (Progress F)) (goOn par p m) := by
  unfold goOn
  refine Run.silent_bind (Run.silent_demand _) ?_
  rintro ⟨v, acceleration, rejected⟩
  cases rejected with
  | none => exact Run.silent_pure _
  | some norm => exact Run.silent_bind (Run.silent_note _) fun _ => Run.silent_pure _

theorem turn_recorded (calls : Array (Call F)) (w : World σ F) :
    turn par (proxes.mapIdx Prox.recorded) proj p (w.listing calls) =
      Run.listing (calls ++ callsIn par proxes p w) (turn par proxes proj p w) := by
  unfold turn
  rw [Run.bind_apply, Run.bind_apply, look_recorded, Problem.map_dim_recorded]
  cases look par proxes proj p w with
  | error h u => rfl
  | ok s u =>
    refine Run.silent_bind (Run.silent_note _) (fun _ => ?_) _ u
    split
    · refine Run.silent_bind (Run.silent_note _) fun _ => ?_
      exact Run.silent_bind (Run.silent_note _) fun _ => Run.silent_pure _
    split
    · refine Run.silent_bind (Run.silent_note _) fun _ => ?_
      exact Run.silent_bind (Run.silent_note _) fun _ => Run.silent_fail _
    · exact Run.silent_bind (goOn_silent _) fun _ => Run.silent_pure _

/-- The calls of at most `fuel` iterations from `p` on. -/
def runCalls (par : Params F) (proxes : List (Prox σ F)) (proj : Projection F) :
    Nat → Progress F → World σ F → List (Call F)
  | 0, _, _ => []
  | fuel + 1, p, w =>
    callsIn par proxes p w ++
      match turn par proxes proj p w with
      | .ok (.next q) u => runCalls par proxes proj fuel q u
      | _ => []

theorem iterate_recorded (fuel : Nat) (calls : Array (Call F)) (w : World σ F) :
    iterate par (proxes.mapIdx Prox.recorded) proj fuel p (w.listing calls) =
      Run.listing (calls ++ runCalls par proxes proj fuel p w)
        (iterate par proxes proj fuel p w) := by
  induction fuel generalizing p calls w with
  | zero => simp [iterate, runCalls, Run.listing]
  | succ fuel ih =>
    rw [iterate_succ, iterate_succ, turn_recorded]
    unfold runCalls
    cases turn par proxes proj p w with
    | error h u =>
      dsimp only [Run.listing]
      rw [List.append_nil]
    | ok t u =>
      cases t with
      | done a =>
        dsimp only [Run.listing]
        rw [List.append_nil]
      | next q =>
        dsimp only [Run.listing]
        rw [ih]
        congr 1
        refine Array.toList_inj.mp ?_
        simp

variable {init : Option (List (Array F))} {q : Problem σ F}

theorem prepare_silent : Run.Silent (prepare par init q) (prepare par init q.recorded) := by
  unfold prepare
  rw [defect?_recorded, Problem.dims_recorded]
  refine Run.silent_bind (Run.silent_check _) fun _ => ?_
  refine Run.silent_bind (Run.silent_note _) fun _ => ?_
  refine Run.silent_bind (Run.silent_note _) fun _ => ?_
  refine Run.silent_bind (Run.silent_demand _) fun _ => ?_
  refine Run.silent_bind (Run.silent_require _) fun _ => ?_
  exact Run.silent_bind (Run.silent_note _) fun _ => Run.silent_pure _

def solveCalls (budget : Nat) (par : Params F) (init : Option (List (Array F)))
    (q : Problem σ F) (w : World σ F) : List (Call F) :=
  match prepare par init q w with
  | .ok proj u =>
    runCalls par q.proxes proj (par.maxIter.getD budget) (begin par q.dims proj init) u
  | .error _ _ => []

theorem solve_recorded (budget : Nat) (calls : Array (Call F)) (w : World σ F) :
    solve budget par init q.recorded (w.listing calls) =
      Run.listing (calls ++ solveCalls budget par init q w) (solve budget par init q w) := by
  unfold solve solveCalls
  rw [Run.bind_apply, Run.bind_apply, prepare_silent, Problem.dims_recorded]
  cases prepare par init q w with
  | error h u =>
    dsimp only [Run.listing]
    rw [Array.appendList_nil]
  | ok proj u => exact iterate_recorded _ calls u

theorem solve_recorded_nil (budget : Nat) (w : World σ F) :
    solve budget par init q.recorded (w.listing #[]) =
      Run.listing (solveCalls budget par init q w).toArray (solve budget par init q w) := by
  rw [solve_recorded]
  congr 1
  exact Array.toList_inj.mp (by simp)

/-! ## The schedule -/

theorem Reaches.cons {n : Nat} {r s : Progress F} {u v w : World σ F}
    (ht : turn par proxes proj p w = .ok (.next r) u) (h : Reaches par proxes proj r u n s v) :
    Reaches par proxes proj p w (n + 1) s v := by
  induction h with
  | start => exact .next .start ht
  | next _ ht' ih => exact .next ih ht'

omit [Spectral F] in
theorem length_callsIn {s : Sight F} {w u : World σ F}
    (h : look par proxes proj p w = .ok s u) : (callsIn par proxes p w).length = proxes.length :=
  length_proxCalls (look_eq_ok.mp h).1

theorem callsIn_of_runCalls {fuel j : Nat} {w : World σ F} {c : Call F}
    (h : (runCalls par proxes proj fuel p w)[j]? = some c) :
    ∃ r u, Reaches par proxes proj p w (j / proxes.length) r u ∧
      (callsIn par proxes r u)[j % proxes.length]? = some c := by
  induction fuel generalizing p w j with
  | zero => cases h
  | succ fuel ih =>
    unfold runCalls at h
    have hle : (callsIn par proxes p w).length ≤ proxes.length := length_proxCalls_le
    rcases Nat.lt_or_ge j (callsIn par proxes p w).length with hj | hj
    · rw [List.getElem?_append_left hj] at h
      rw [Nat.div_eq_of_lt (by omega), Nat.mod_eq_of_lt (by omega)]
      exact ⟨p, w, .start, h⟩
    · rw [List.getElem?_append_right hj] at h
      split at h
      · rename_i r u ht
        obtain ⟨⟨s, v, hl, -⟩, -⟩ := turn_eq_next.mp ht
        rw [length_callsIn hl] at h hj
        obtain ⟨r', u', hr, hc⟩ := ih h
        have hpos : 0 < proxes.length := by
          have : (callsIn par proxes r' u').length ≤ proxes.length := length_proxCalls_le
          have := (List.getElem?_eq_some_iff.mp hc).1
          omega
        rw [Nat.div_eq_sub_div hpos hj, Nat.mod_eq_sub_mod hj]
        exact ⟨r', u', hr.cons ht, hc⟩
      · cases h

theorem iterate_of_failed {fuel j : Nat} {w : World σ F} {c : Call F} {e : ProxError}
    (h : (runCalls par proxes proj fuel p w)[j]? = some c) (he : c.answer = .error e) :
    (runCalls par proxes proj fuel p w).length = j + 1 ∧
      ∃ v, iterate par proxes proj fuel p w =
        .error (.error (.ofProx (j % proxes.length) e)) v := by
  induction fuel generalizing p w j with
  | zero => cases h
  | succ fuel ih =>
    rw [iterate_succ]
    unfold runCalls at h ⊢
    have hle : (callsIn par proxes p w).length ≤ proxes.length := length_proxCalls_le
    rcases Nat.lt_or_ge j (callsIn par proxes p w).length with hj | hj
    · rw [List.getElem?_append_left hj] at h
      obtain ⟨hlen, u, hu⟩ := proxPoints_of_failed p.iter #[] h he
      have hl : look par proxes proj p w = .error (.error (.ofProx (0 + j) e)) u := by
        rw [look_apply, Run.bind_apply, hu]
      have ht : turn par proxes proj p w = .error (.error (.ofProx (0 + j) e)) u := by
        unfold turn
        rw [Run.bind_apply, hl]
      rw [ht, Nat.mod_eq_of_lt (by omega), Nat.zero_add]
      exact ⟨by rw [List.append_nil]; exact hlen, u, rfl⟩
    · rw [List.getElem?_append_right hj] at h
      split at h
      · rename_i r u ht
        obtain ⟨⟨s, v, hl, -⟩, -⟩ := turn_eq_next.mp ht
        rw [length_callsIn hl] at h hj
        obtain ⟨hlen, v', hv⟩ := ih h
        rw [ht]
        dsimp only
        rw [List.length_append, length_callsIn hl, hlen, Nat.mod_eq_sub_mod hj]
        exact ⟨by omega, v', hv⟩
      · cases h

theorem runCalls_of_reaches {n : Nat} {r : Progress F} {w u : World σ F}
    (h : Reaches par proxes proj p w n r u) (fuel : Nat) :
    ∃ before, runCalls par proxes proj (n + fuel) p w =
        before ++ runCalls par proxes proj fuel r u ∧
      before.length = proxes.length * n := by
  induction h generalizing fuel with
  | start => exact ⟨[], by rw [Nat.zero_add]; rfl, rfl⟩
  | @next n r s u v _ ht ih =>
    obtain ⟨before, hb, hlen⟩ := ih (1 + fuel)
    obtain ⟨⟨t, v', hl, -⟩, -⟩ := turn_eq_next.mp ht
    have hstep : runCalls par proxes proj (1 + fuel) r u =
        callsIn par proxes r u ++ runCalls par proxes proj fuel s v := by
      rw [Nat.add_comm, runCalls, ht]
    refine ⟨before ++ callsIn par proxes r u, ?_, ?_⟩
    · rw [Nat.add_assoc, hb, hstep, List.append_assoc]
    · rw [List.length_append, hlen, length_callsIn hl, Nat.mul_succ]

theorem runCalls_of_end {n fuel : Nat} {r : Progress F} {w u : World σ F}
    (h : Reaches par proxes proj p w n r u) (hn : n < fuel)
    (ht : ∀ s v, turn par proxes proj r u ≠ .ok (.next s) v) :
    ∃ before, runCalls par proxes proj fuel p w = before ++ callsIn par proxes r u ∧
      before.length = proxes.length * n := by
  obtain ⟨before, hb, hlen⟩ := runCalls_of_reaches h (fuel - n)
  refine ⟨before, ?_, hlen⟩
  rw [show n + (fuel - n) = fuel by omega, show fuel - n = fuel - n - 1 + 1 by omega] at hb
  rw [hb, runCalls]
  split
  · rename_i s v hs
    exact absurd hs (ht s v)
  · rw [List.append_nil]

theorem failed_of_turn {w u : World σ F} {d : SolverError} (hd : d ≠ .excessIter)
    (h : turn par proxes proj p w = .error (.error d) u) :
    ∃ j c e, (callsIn par proxes p w)[j]? = some c ∧ c.answer = .error e ∧ d = .ofProx j e := by
  have hl : look par proxes proj p w = .error (.error d) u := by
    obtain ⟨e, v, hs, ht⟩ | ⟨s, v, -, ⟨-, ht⟩ | ⟨-, -, ht⟩ |
        ⟨-, ⟨q, t, -, ht⟩ | ⟨e, t, hp, ht⟩⟩⟩ := turn_cases par proxes proj p w
    all_goals
      rw [ht] at h
      cases h
    · exact hs
    · exact absurd rfl hd
    · rcases pass_eq_error.mp hp with hp | ⟨s, v, -, -, hmisuse, -⟩
      · exact hp
      · cases hmisuse
  rw [look_apply] at hl
  rcases Run.bind_eq_error.mp hl with hx | ⟨x, v, -, hm⟩
  · obtain ⟨j, c, e, hc, he, rfl⟩ := failed_of_proxPoints hx
    exact ⟨j, c, e, hc, he, by rw [Nat.zero_add]⟩
  rcases Run.bind_eq_error.mp hm with hm | ⟨m, v', -, hm⟩
  · have := (Run.demand_eq_error.mp hm).2.1
    cases this
  · exact absurd hm Run.pure_ne_error

theorem ofProx_inj {b b' : Nat} {e e' : ProxError} :
    SolverError.ofProx b e = .ofProx b' e' ↔ b = b' ∧ e = e' := by
  cases e <;> cases e' <;> simp [SolverError.ofProx]

/-! ## Whole runs -/

/-- In iteration `i` of the run the iterate is `v`. -/
def PointAt (par : Params F) (init : Option (List (Array F))) (q : Problem σ F) (w : World σ F)
    (i : Nat) (v : Array F) : Prop :=
  ∃ proj u r t, prepare par init q w = .ok proj u ∧
    Reaches par q.proxes proj (begin par q.dims proj init) u i r t ∧ r.v = v

section Solve

variable {budget : Nat} {w v : World σ F}

theorem callAt_of_solveCalls {j : Nat} {c : Call F}
    (h : (solveCalls budget par init q w)[j]? = some c) :
    ∃ v, PointAt par init q w (j / q.proxes.length) v ∧
      CallAt par.rho v q.dims 0 0 (j % q.proxes.length) c := by
  unfold solveCalls at h
  split at h
  · rename_i proj u hp
    obtain ⟨r, t, hr, hc⟩ := callsIn_of_runCalls h
    exact ⟨r.v, ⟨proj, u, r, t, hp, hr, rfl⟩, callAt_of_getElem? hc⟩
  · cases h

theorem solve_of_failed {j : Nat} {c : Call F} {e : ProxError}
    (h : (solveCalls budget par init q w)[j]? = some c) (he : c.answer = .error e) :
    (solveCalls budget par init q w).length = j + 1 ∧
      ∃ v, solve budget par init q w = .error (.error (.ofProx (j % q.proxes.length) e)) v := by
  unfold solve
  unfold solveCalls at h ⊢
  rw [Run.bind_apply]
  cases hp : prepare par init q w with
  | error d u =>
    rw [hp] at h
    cases h
  | ok proj u =>
    rw [hp] at h
    exact iterate_of_failed h he

theorem failed_of_solve {block : Nat} {e : ProxError}
    (h : solve budget par init q w = .error (.error (.ofProx block e)) v) :
    ∃ j c, (solveCalls budget par init q w)[j]? = some c ∧ c.answer = .error e ∧
      block = j % q.proxes.length := by
  unfold solve at h
  rcases Run.bind_eq_error.mp h with h | ⟨proj, u, hp, h⟩
  · rcases prepare_eq_error h with ⟨d, -, hd⟩ | hd
    · injection hd with hd
      exact absurd hd.symm (defect_error_ne_ofProx d block e)
    · cases hd
  obtain ⟨n, hn, r, t, hr, ht⟩ := iterate_eq_error.mp h
  obtain ⟨j, c, e', hc, he, hj⟩ := failed_of_turn (by cases e <;> simp [SolverError.ofProx]) ht
  obtain ⟨rfl, rfl⟩ := ofProx_inj.mp hj
  obtain ⟨before, hcalls, hlen⟩ := runCalls_of_end hr hn fun s v hs => by
    rw [ht] at hs
    cases hs
  have hlt : block < q.proxes.length := by
    have : (callsIn par q.proxes r t).length ≤ q.proxes.length := length_proxCalls_le
    have := (List.getElem?_eq_some_iff.mp hc).1
    omega
  refine ⟨q.proxes.length * n + block, c, ?_, he, ?_⟩
  · unfold solveCalls
    rw [hp]
    dsimp only
    rw [hcalls, List.getElem?_append_right (by omega), hlen, Nat.add_sub_cancel_left]
    exact hc
  · rw [Nat.mul_add_mod, Nat.mod_eq_of_lt hlt]

theorem length_solveCalls_of_end {proj : Projection F} {u : World σ F} {n : Nat}
    {r : Progress F} {s : Sight F} {t t' : World σ F} (hp : prepare par init q w = .ok proj u)
    (hr : Reaches par q.proxes proj (begin par q.dims proj init) u n r t)
    (hn : n < par.maxIter.getD budget) (hl : look par q.proxes proj r t = .ok s t')
    (ht : ∀ s v, turn par q.proxes proj r t ≠ .ok (.next s) v) :
    (solveCalls budget par init q w).length = q.proxes.length * (n + 1) := by
  obtain ⟨before, hcalls, hlen⟩ := runCalls_of_end hr hn ht
  unfold solveCalls
  rw [hp]
  dsimp only
  rw [hcalls, List.length_append, hlen, length_callsIn hl, Nat.mul_succ]

theorem solveCalls_ne_nil (hd : defect? par init q = none) (hr : HasRoom par q.dims)
    (hs : q.Sound par.rho) (hb : 0 < par.maxIter.getD budget) :
    solveCalls budget par init q w ≠ [] := by
  obtain ⟨proj, u, hp⟩ := prepare_total hd hr hs.couplings w
  obtain ⟨-, -, hbegin⟩ := fits_of_prepare hs.couplings hp
  obtain ⟨hblocks, -, -⟩ := Problem.shapeDefect?_eq_none.mp (shapeDefect?_of_defect? hd)
  have hroom : 0 + total (q.proxes.map Prox.dim) ≤ (begin par q.dims proj init).v.size := by
    rw [hbegin.v, Nat.zero_add]
    exact Nat.le_refl _
  obtain ⟨fuel, hfuel⟩ := Nat.exists_eq_succ_of_ne_zero (Nat.ne_of_gt hb)
  unfold solveCalls
  rw [hp, hfuel]
  exact List.append_ne_nil_of_left_ne_nil (proxCalls_ne_nil hs.proxes hblocks hroom) _

theorem length_solveCalls_of_some {a : Solution F}
    (h : solve budget par init q w = .ok (some a) v) : 0 < a.iterations ∧
      (solveCalls budget par init q w).length = q.proxes.length * a.iterations := by
  obtain ⟨proj, u, hp, hi⟩ := Run.bind_eq_ok.mp h
  obtain ⟨n, hn, r, t, hr, ht⟩ := iterate_eq_some.mp hi
  obtain ⟨s, t', hl, -, rfl, -⟩ := turn_eq_done.mp ht
  have hiter : r.iter = n := by
    rw [course_iter (reaches_iff.mp hr).1]
    exact Nat.zero_add n
  have hlen := length_solveCalls_of_end hp hr hn hl fun s v hs => by
    rw [ht] at hs
    cases hs
  refine ⟨Nat.succ_pos r.iter, ?_⟩
  rw [hlen, ← hiter]
  rfl

theorem length_solveCalls_of_excessIter
    (h : solve budget par init q w = .error (.error .excessIter) v) :
    ∃ M, par.maxIter = some M ∧
      (solveCalls budget par init q w).length = q.proxes.length * M := by
  rcases Run.bind_eq_error.mp h with h | ⟨proj, u, hp, hi⟩
  · exact absurd h prepare_ne_excessIter
  obtain ⟨n, hn, r, t, hr, ht⟩ := iterate_eq_error.mp hi
  obtain ⟨s, t', hl, -, hlast, -⟩ := turn_eq_excessIter.mp ht
  obtain ⟨M, hM, hle⟩ := isLast_iff.mp hlast
  rw [course_iter (reaches_iff.mp hr).1] at hle
  have hlen := length_solveCalls_of_end hp hr hn hl fun s v hs => by
    rw [ht] at hs
    cases hs
  rw [hM, Option.getD_some] at hn
  change M ≤ 0 + n + 1 at hle
  obtain rfl : M = n + 1 := by omega
  exact ⟨n + 1, hM, hlen⟩

theorem length_solveCalls_of_none (h : solve budget par init q w = .ok none v) :
    (solveCalls budget par init q w).length = q.proxes.length * par.maxIter.getD budget := by
  obtain ⟨proj, u, hp, hi⟩ := Run.bind_eq_ok.mp h
  obtain ⟨r, t, hr, -⟩ | ⟨n, -, r, t, -, ⟨a, t', -, hi'⟩ | ⟨e, t', -, hi'⟩⟩ :=
    iterate_cases par q.proxes proj (par.maxIter.getD budget) (begin par q.dims proj init) u
  · obtain ⟨before, hcalls, hlen⟩ := runCalls_of_reaches hr 0
    rw [Nat.add_zero] at hcalls
    unfold solveCalls
    rw [hp]
    dsimp only
    rw [hcalls, ← hlen]
    exact congrArg List.length (List.append_nil before)
  · rw [hi'] at hi
    cases hi
  · rw [hi'] at hi
    cases hi

end Solve

/-- When the blocks are called, with what, and how a failing call ends the run. A run whose
parameters and shapes are refused makes no call, and a rejected point costs none. -/
theorem prox_call_schedule (budget : Nat) (par : Params F) (init : Option (List (Array F)))
    (q : Problem σ F) (w : World σ F) :
    ∃ calls : List (Call F),
      solve budget par init q.recorded (w.listing #[]) =
        Run.listing calls.toArray (solve budget par init q w) ∧
      (∀ d, defect? par init q = some d →
        calls = [] ∧ ∃ v, solve budget par init q w = .error (.error d.error) v) ∧
      (defect? par init q = none → HasRoom par q.dims → q.Sound par.rho →
        0 < par.maxIter.getD budget → calls ≠ []) ∧
      (∀ j c, calls[j]? = some c → ∃ v, PointAt par init q w (j / q.proxes.length) v ∧
        c.block = j % q.proxes.length ∧ c.step = par.rho ∧
        (cut v q.dims 0)[j % q.proxes.length]? = some c.point ∧
        q.dims[j % q.proxes.length]? = some c.point.size) ∧
      (∀ j c e, calls[j]? = some c → c.answer = .error e → calls.length = j + 1 ∧
        ∃ v, solve budget par init q w = .error (.error (.ofProx (j % q.proxes.length) e)) v) ∧
      (∀ block e v, solve budget par init q w = .error (.error (.ofProx block e)) v →
        ∃ j c, calls[j]? = some c ∧ c.answer = .error e ∧ block = j % q.proxes.length) ∧
      (∀ a v, solve budget par init q w = .ok (some a) v →
        0 < a.iterations ∧ calls.length = q.proxes.length * a.iterations) ∧
      (∀ v, solve budget par init q w = .error (.error .excessIter) v →
        ∃ M, par.maxIter = some M ∧ calls.length = q.proxes.length * M) ∧
      (∀ v, solve budget par init q w = .ok none v →
        calls.length = q.proxes.length * par.maxIter.getD budget) := by
  refine ⟨_, solve_recorded_nil budget w, fun d hd => ⟨?_, ?_⟩,
    fun hd hr hs hb => solveCalls_ne_nil hd hr hs hb, fun j c hc => ?_,
    fun j c e => solve_of_failed, fun block e v => failed_of_solve,
    fun a v => length_solveCalls_of_some, fun v => length_solveCalls_of_excessIter,
    fun v => length_solveCalls_of_none⟩
  · unfold solveCalls
    rw [prepare_of_defect hd]
  · unfold solve
    rw [Run.bind_apply, prepare_of_defect hd]
    exact ⟨_, rfl⟩
  · obtain ⟨v, hv, hcall⟩ := callAt_of_solveCalls hc
    exact ⟨v, hv, by rw [hcall.block, Nat.zero_add], hcall.step, hcall.point, hcall.size⟩

/-- Adds one to each entry, and fails once the calls that the state allows are used up. -/
def rationed (n : Nat) : Prox Nat Float where
  dim := n
  eval _ v := fun w =>
    if w.state = 0 then .error (.error .infeasible) w
    else .ok (v.map fun e => e + 1) (w.withState (w.state - 1))

theorem rationed_sound (n : Nat) (t : Float) : (rationed n).Sound t where
  ne_misuse v w w' _ h := by
    simp only [rationed] at h
    split at h <;> cases h
  size v w x w' hv h := by
    simp only [rationed] at h
    split at h
    · cases h
    · cases h
      simpa using hv

/-- Two blocks, the second of which answers as often as the state says. -/
def brittle : Problem Nat Float := ⟨[AbsSum.prox 1 1, rationed 1], [], #[]⟩

theorem brittle_sound (t : Float) : brittle.Sound t where
  proxes := List.forall_mem_cons.mpr ⟨(AbsSum.prox_total 1 1 t).sound,
    List.forall_mem_singleton.mpr (rationed_sound 1 t)⟩
  couplings _ hg := absurd hg List.not_mem_nil

/-- Any residuals are within the tolerances of the first iteration. -/
def content : Params Float := { Params.standard with epsRel := 1 }

-- The second block answers once. One run asks it twice, two end before, and one is refused.
theorem brittle_calls :
    let w : World Nat Float := .start 1 none
    let Listed (par : Params Float) (calls : List (Call Float)) : Prop :=
      solve 0 par none brittle.recorded (w.listing #[]) =
        Run.listing calls.toArray (solve 0 par none brittle w)
    (∃ calls j c v, Listed .standard calls ∧ calls ≠ [] ∧ calls[j]? = some c ∧
      c.answer = .error .infeasible ∧ c.block = 1 ∧ c.step = 1 ∧ calls.length = j + 1 ∧
      solve 0 .standard none brittle w = .error (.error (.infeasible 1)) v) ∧
    (∃ calls v, Listed (upTo 1) calls ∧ calls.length = 2 ∧
      solve 0 (upTo 1) none brittle w = .error (.error .excessIter) v) ∧
    (∃ calls a v, Listed content calls ∧ calls.length = 2 * a.iterations ∧ 0 < a.iterations ∧
      solve 0 content none brittle w = .ok (some a) v) ∧
    ∃ v, Listed (upTo 0) [] ∧ solve 0 (upTo 0) none brittle w =
      .error (.error (.invalidParam ParamRule.maxIter.text)) v := by
  intro w Listed
  refine ⟨?_, ?_, ?_, ?_⟩
  · have hrun : Run.halt? (solve 0 .standard none brittle w) = some (.error (.infeasible 1)) := by
      decide +kernel
    obtain ⟨v, hs⟩ := Run.halt?_eq_some.mp hrun
    obtain ⟨calls, hlisted, -, hfirst, hcall, hlast, hfails, -⟩ :=
      prox_call_schedule 0 .standard none brittle w
    have hne := hfirst (by decide +kernel) (by decide) (brittle_sound _) (by decide)
    obtain ⟨j, c, hc, hanswer, hblock⟩ := hfails 1 .infeasible v hs
    obtain ⟨-, -, hcblock, hstep, -⟩ := hcall j c hc
    exact ⟨calls, j, c, v, hlisted, hne, hc, hanswer, hcblock.trans hblock.symm, hstep,
      (hlast j c _ hc hanswer).1, hs⟩
  · have hrun : Run.halt? (solve 0 (upTo 1) none brittle w) = some (.error .excessIter) := by
      decide +kernel
    obtain ⟨v, hs⟩ := Run.halt?_eq_some.mp hrun
    obtain ⟨calls, hlisted, -, -, -, -, -, -, hexceeds, -⟩ :=
      prox_call_schedule 0 (upTo 1) none brittle w
    obtain ⟨M, hM, hlen⟩ := hexceeds v hs
    obtain rfl : 1 = M := by simpa [upTo] using hM
    exact ⟨calls, v, hlisted, hlen, hs⟩
  · have hrun : (Run.value? (solve 0 content none brittle w)).join.isSome = true := by
      decide +kernel
    obtain ⟨a, ha⟩ := Option.isSome_iff_exists.mp hrun
    obtain ⟨v, hs⟩ := Run.value?_eq_some.mp (Option.join_eq_some_iff.mp ha)
    obtain ⟨calls, hlisted, -, -, -, -, -, hanswers, -⟩ :=
      prox_call_schedule 0 content none brittle w
    obtain ⟨hpos, hlen⟩ := hanswers a v hs
    exact ⟨calls, a, v, hlisted, hlen, hpos, hs⟩
  · have hdefect : defect? (upTo 0) none brittle = some (.param .maxIter) := by decide +kernel
    obtain ⟨calls, hlisted, hrefused, -⟩ := prox_call_schedule 0 (upTo 0) none brittle w
    obtain ⟨rfl, v, hs⟩ := hrefused _ hdefect
    exact ⟨v, hlisted, hs⟩

end Solver

end Splitting
