import Splitting.Proofs.Run
import Splitting.Solver.Basic

/-!
# The course of a run

The course makes one iteration after the other and never asks whether to stop. A run follows it up
to the first iteration that stops, and ends there.
-/

namespace Splitting.Solver

variable {σ F : Type}

/-! ## The log and the failures of an iteration -/

/-- The world after the warning of a run that logs no progress, which comes with its first
iteration. -/
def opened (par : Params F) (iter : Nat) (w : World σ F) : World σ F :=
  if par.logPeriod = 0 ∧ iter = 0 then if w.watches .debug then w.note .noPeriod else w else w

@[simp] theorem state_opened (par : Params F) (iter : Nat) (w : World σ F) :
    (opened par iter w).state = w.state := by
  unfold opened
  split
  · split <;> simp
  · rfl

/-- The world at the end of a run that stops in iteration `iter`. -/
def ended (iter : Nat) (s : Sight F) (last : Event F) (w : World σ F) : World σ F :=
  ((w.note (.residuals true iter s.measure.primal s.measure.dual)).note (.point iter s.x)).note last

/-- With step size `t` the operator fails at a point of its dimension. -/
def Fails (t : F) (q : Prox σ F) (e : ProxError) : Prop :=
  ∃ v w w', v.size = q.dim ∧ q.eval t v w = .error (.error e) w'

theorem eval_of_apply_failed {t : F} {q : Prox σ F} {v : Array F} {n : Nat} {e : ProxError}
    {w w' : World σ F} (h : q.apply t v n w = .error (.error e) w') :
    v.size = q.dim ∧ q.eval t v w = .error (.error e) w' := by
  unfold Prox.apply at h
  rcases Run.bind_eq_error.mp h with h | ⟨_, u, hsize, h⟩
  · cases (Run.require_eq_error.mp h).2.1
  obtain ⟨⟨hv, -⟩, rfl⟩ := Run.require_eq_ok.mp hsize
  rcases Run.bind_eq_error.mp h with h | ⟨x, u, -, h⟩
  · exact ⟨hv, h⟩
  rcases Run.bind_eq_error.mp h with h | ⟨-, u', -, h⟩
  · cases (Run.require_eq_error.mp h).2.1
  · exact absurd h Run.pure_ne_error

/-- How an iteration breaks off: a block fails, or a length is not what it should be. -/
def Breaks (rho : F) (proxes : List (Prox σ F)) (h : Halt SolverError) : Prop :=
  h = .misuse ∨
    ∃ block q e, proxes[block]? = some q ∧ Fails rho q e ∧ h = .error (.ofProx block e)

theorem Breaks.ne_excessIter {rho : F} {proxes : List (Prox σ F)} {h : Halt SolverError}
    (hb : Breaks rho proxes h) : h ≠ .error .excessIter := by
  rcases hb with rfl | ⟨block, q, e, -, -, rfl⟩
  · simp
  · cases e <;> simp [SolverError.ofProx]

theorem proxPoints_eq_error {rho : F} {iter : Nat} {v : Array F} {proxes : List (Prox σ F)}
    {block start : Nat} {x : Array F} {w w' : World σ F} {h : Halt SolverError}
    (he : proxPoints rho iter v proxes block start x w = .error h w') : h = .misuse ∨
      ∃ j q e, proxes[j]? = some q ∧ Fails rho q e ∧ h = .error (.ofProx (block + j) e) := by
  induction proxes generalizing block start x w with
  | nil => cases he
  | cons p ps ih =>
    unfold proxPoints at he
    split at he
    · refine (ih he).imp_right ?_
      rintro ⟨j, q, e, hq, hfails, rfl⟩
      exact ⟨j + 1, q, e, hq, hfails, by rw [Nat.add_right_comm, Nat.add_assoc]⟩
    · rename_i e u happly
      cases he
      exact Or.inr ⟨0, p, e, rfl, ⟨_, w, u, eval_of_apply_failed happly⟩, rfl⟩
    · cases he
      exact Or.inl rfl

theorem proxPoints_breaks {rho : F} {iter : Nat} {v : Array F} {proxes : List (Prox σ F)}
    {x : Array F} {w w' : World σ F} {h : Halt SolverError}
    (he : proxPoints rho iter v proxes 0 0 x w = .error h w') : Breaks rho proxes h := by
  refine (proxPoints_eq_error he).imp_right ?_
  rintro ⟨j, q, e, hq, hfails, rfl⟩
  exact ⟨j, q, e, hq, hfails, by rw [Nat.zero_add]⟩

theorem isLast_iff {par : Params F} {i : Nat} :
    isLast par i = true ↔ ∃ M, par.maxIter = some M ∧ M ≤ i + 1 := by
  unfold isLast
  cases par.maxIter <;> simp

/-! ## The first half of an iteration -/

variable [Scalar F]

theorem look_apply (par : Params F) (proxes : List (Prox σ F)) (proj : Projection F)
    (p : Progress F) (w : World σ F) :
    look par proxes proj p w =
      (proxPoints par.rho p.iter p.v proxes 0 0 #[] >>= fun x => do
        let m ← Run.demand (measure? proj par.rho p.scratch p.v x)
        return ⟨x, m⟩ : Run σ F SolverError (Sight F)) (opened par p.iter w) := by
  unfold look opened
  split
  · exact Run.bind_apply _ _ w
  · rfl

theorem look_eq_ok {par : Params F} {proxes : List (Prox σ F)} {proj : Projection F}
    {p : Progress F} {w v : World σ F} {s : Sight F} :
    look par proxes proj p w = .ok s v ↔
      proxPoints par.rho p.iter p.v proxes 0 0 #[] (opened par p.iter w) = .ok s.x v ∧
        measure? proj par.rho p.scratch p.v s.x = some s.measure := by
  simp only [look_apply, Run.bind_eq_ok, Run.demand_eq_ok, Run.pure_eq_ok]
  constructor
  · rintro ⟨x, u, hx, m, u', ⟨hm, rfl⟩, rfl, rfl⟩
    exact ⟨hx, hm⟩
  · rintro ⟨hx, hm⟩
    exact ⟨s.x, v, hx, s.measure, v, ⟨hm, rfl⟩, rfl, rfl⟩

theorem look_breaks {par : Params F} {proxes : List (Prox σ F)} {proj : Projection F}
    {p : Progress F} {w v : World σ F} {h : Halt SolverError}
    (he : look par proxes proj p w = .error h v) : Breaks par.rho proxes h := by
  rw [look_apply] at he
  rcases Run.bind_eq_error.mp he with he | ⟨x, u, -, he⟩
  · exact proxPoints_breaks he
  rcases Run.bind_eq_error.mp he with he | ⟨m, u', -, he⟩
  · exact Or.inl (Run.demand_eq_error.mp he).2.1
  · exact absurd he Run.pure_ne_error

/-! ## One iteration -/

def Progress.advanced (p : Progress F) (m : Measure F) (v : Array F)
    (acceleration : Option (Anderson.State F)) : Progress F :=
  ⟨p.iter + 1, v, m.scratch, acceleration, p.primal.push m.primal, p.dual.push m.dual,
    some (p.reference m)⟩

def reported (rejected : Option F) (w : World σ F) : World σ F :=
  rejected.elim w fun norm => w.note (.stepRejected norm)

variable [Spectral F]

/-- An iteration that is followed by another one, whatever it has seen. -/
def pass (par : Params F) (proxes : List (Prox σ F)) (proj : Projection F) (p : Progress F) :
    Run σ F SolverError (Progress F) := do
  let s ← look par proxes proj p
  Run.note (.residuals (isDue par p.iter) p.iter s.measure.primal s.measure.dual)
  goOn par p s.measure

def Converges (par : Params F) (p : Progress F) (s : Sight F) : Prop :=
  converged par (p.reference s.measure) s.measure.primal s.measure.dual = true

def Stops (par : Params F) (p : Progress F) (s : Sight F) : Prop :=
  Converges par p s ∨ isLast par p.iter = true

variable {par : Params F} {proxes : List (Prox σ F)} {proj : Projection F} {p : Progress F}
  {w v : World σ F} {s : Sight F}

theorem turn_of_not_stops (hs : look par proxes proj p w = .ok s v) (hn : ¬ Stops par p s) :
    turn par proxes proj p w =
      match pass par proxes proj p w with
      | .ok q u => .ok (.next q) u
      | .error h u => .error h u := by
  obtain ⟨hc, hl⟩ := not_or.mp hn
  unfold Converges at hc
  have e : turn par proxes proj p w =
      (pass par proxes proj p >>= fun q => pure (.next q) : Run σ F SolverError (Turn F)) w := by
    unfold turn pass
    rw [bind_assoc, Run.bind_apply, Run.bind_apply, hs]
    simp only [hc, hl, Bool.or_false, Bool.false_eq_true, if_false, bind_assoc]
  rw [e, Run.bind_apply]
  cases pass par proxes proj p w <;> rfl

/-- An iteration fails, converges, runs into the limit, or goes on. -/
theorem turn_cases (par : Params F) (proxes : List (Prox σ F)) (proj : Projection F)
    (p : Progress F) (w : World σ F) :
    (∃ h v, look par proxes proj p w = .error h v ∧ turn par proxes proj p w = .error h v) ∨
    ∃ s v, look par proxes proj p w = .ok s v ∧
      (Converges par p s ∧ turn par proxes proj p w =
          .ok (.done (p.solution (proxes.map Prox.dim) s)) (ended p.iter s .converged v) ∨
        ¬ Converges par p s ∧ isLast par p.iter = true ∧ turn par proxes proj p w =
          .error (.error .excessIter) (ended p.iter s .excessIter v) ∨
        ¬ Stops par p s ∧
          ((∃ q u, pass par proxes proj p w = .ok q u ∧
              turn par proxes proj p w = .ok (.next q) u) ∨
            ∃ h u, pass par proxes proj p w = .error h u ∧
              turn par proxes proj p w = .error h u)) := by
  cases hs : look par proxes proj p w with
  | error h v =>
    refine Or.inl ⟨h, v, rfl, ?_⟩
    unfold turn
    rw [Run.bind_apply, hs]
  | ok s v =>
    refine Or.inr ⟨s, v, rfl, ?_⟩
    by_cases hc : Converges par p s
    · refine Or.inl ⟨hc, ?_⟩
      unfold Converges at hc
      unfold turn
      rw [Run.bind_apply, hs]
      simp only [hc, Bool.or_true, if_true]
      rfl
    refine Or.inr ?_
    by_cases hl : isLast par p.iter = true
    · refine Or.inl ⟨hc, hl, ?_⟩
      unfold Converges at hc
      unfold turn
      rw [Run.bind_apply, hs]
      simp only [hc, hl, Bool.or_true, Bool.true_or, if_true]
      rfl
    · have hn : ¬ Stops par p s := not_or.mpr ⟨hc, hl⟩
      refine Or.inr ⟨hn, ?_⟩
      rw [turn_of_not_stops hs hn]
      cases pass par proxes proj p w with
      | ok q u => exact Or.inl ⟨q, u, rfl, rfl⟩
      | error h u => exact Or.inr ⟨h, u, rfl, rfl⟩

theorem turn_eq_done {a : Solution F} :
    turn par proxes proj p w = .ok (.done a) v ↔
      ∃ s u, look par proxes proj p w = .ok s u ∧ Converges par p s ∧
        a = p.solution (proxes.map Prox.dim) s ∧ v = ended p.iter s .converged u := by
  obtain ⟨h, u, hs, ht⟩ | ⟨s, u, hs, ⟨hc, ht⟩ | ⟨hc, -, ht⟩ |
      ⟨hn, ⟨q, t, -, ht⟩ | ⟨h, t, -, ht⟩⟩⟩ :=
    turn_cases par proxes proj p w
  · simp [hs, ht]
  · rw [ht, hs]
    constructor
    · intro h
      cases h
      exact ⟨s, u, rfl, hc, rfl, rfl⟩
    · rintro ⟨_, _, ⟨⟩, -, rfl, rfl⟩
      rfl
  · rw [ht, hs]
    constructor
    · intro h; cases h
    · rintro ⟨_, _, ⟨⟩, h, -⟩
      exact absurd h hc
  all_goals
    rw [ht, hs]
    constructor
    · intro h; cases h
    · rintro ⟨_, _, ⟨⟩, h, -⟩
      exact absurd (Or.inl h) hn

theorem turn_eq_next {q : Progress F} :
    turn par proxes proj p w = .ok (.next q) v ↔
      (∃ s u, look par proxes proj p w = .ok s u ∧ ¬ Stops par p s) ∧
        pass par proxes proj p w = .ok q v := by
  obtain ⟨h, u, hs, ht⟩ | ⟨s, u, hs, ⟨hc, ht⟩ | ⟨hc, hl, ht⟩ |
      ⟨hn, ⟨r, t, hp, ht⟩ | ⟨h, t, hp, ht⟩⟩⟩ :=
    turn_cases par proxes proj p w
  · simp [hs, ht]
  · rw [ht, hs]
    constructor
    · intro h; cases h
    · rintro ⟨⟨_, _, ⟨⟩, h⟩, -⟩
      exact absurd (Or.inl hc) h
  · rw [ht, hs]
    constructor
    · intro h; cases h
    · rintro ⟨⟨_, _, ⟨⟩, h⟩, -⟩
      exact absurd (Or.inr hl) h
  · rw [ht, hs, hp]
    constructor
    · intro h
      cases h
      exact ⟨⟨s, u, rfl, hn⟩, rfl⟩
    · rintro ⟨-, ⟨⟩⟩
      rfl
  · rw [ht, hp]
    simp

theorem goOn_eq_ok {m : Measure F} {q : Progress F} :
    goOn par p m w = .ok q v ↔
      ∃ x a rejected, nextPoint? par m p.acceleration = some (x, a, rejected) ∧
        q = p.advanced m x a ∧ v = reported rejected w := by
  unfold goOn
  rw [Run.bind_eq_ok]
  constructor
  · rintro ⟨⟨x, a, rejected⟩, u, hd, h⟩
    obtain ⟨hx, rfl⟩ := Run.demand_eq_ok.mp hd
    refine ⟨x, a, rejected, hx, ?_⟩
    cases rejected <;> cases h <;> exact ⟨rfl, rfl⟩
  · rintro ⟨x, a, rejected, hx, rfl, rfl⟩
    refine ⟨(x, a, rejected), w, Run.demand_eq_ok.mpr ⟨hx, rfl⟩, ?_⟩
    cases rejected <;> rfl

theorem pass_eq_ok {q : Progress F} :
    pass par proxes proj p w = .ok q v ↔
      ∃ s u x a rejected, look par proxes proj p w = .ok s u ∧
        nextPoint? par s.measure p.acceleration = some (x, a, rejected) ∧
        q = p.advanced s.measure x a ∧
        v = reported rejected (u.note
          (.residuals (isDue par p.iter) p.iter s.measure.primal s.measure.dual)) := by
  unfold pass
  rw [Run.bind_eq_ok]
  constructor
  · rintro ⟨s, u, hs, h⟩
    obtain ⟨x, a, rejected, hx, hq, hv⟩ := goOn_eq_ok.mp h
    exact ⟨s, u, x, a, rejected, hs, hx, hq, hv⟩
  · rintro ⟨s, u, x, a, rejected, hs, hx, hq, hv⟩
    exact ⟨s, u, hs, goOn_eq_ok.mpr ⟨x, a, rejected, hx, hq, hv⟩⟩

theorem goOn_eq_error {m : Measure F} {h : Halt SolverError} :
    goOn par p m w = .error h v ↔
      nextPoint? par m p.acceleration = none ∧ h = .misuse ∧ w = v := by
  unfold goOn
  rw [Run.bind_eq_error, Run.demand_eq_error]
  constructor
  · rintro (he | ⟨⟨x, a, r⟩, u, -, he⟩)
    · exact he
    · cases r <;> cases he
  · exact Or.inl

theorem pass_eq_error {h : Halt SolverError} :
    pass par proxes proj p w = .error h v ↔
      look par proxes proj p w = .error h v ∨
        ∃ s u, look par proxes proj p w = .ok s u ∧
          nextPoint? par s.measure p.acceleration = none ∧ h = .misuse ∧
          v = u.note (.residuals (isDue par p.iter) p.iter s.measure.primal s.measure.dual) := by
  unfold pass
  rw [Run.bind_eq_error]
  constructor
  · rintro (he | ⟨s, u, hs, he⟩)
    · exact Or.inl he
    · obtain ⟨hx, rfl, rfl⟩ := goOn_eq_error.mp he
      exact Or.inr ⟨s, u, hs, hx, rfl, rfl⟩
  · rintro (he | ⟨s, u, hs, hx, rfl, rfl⟩)
    · exact Or.inl he
    · exact Or.inr ⟨s, u, hs, goOn_eq_error.mpr ⟨hx, rfl, rfl⟩⟩

theorem pass_breaks {h : Halt SolverError} (he : pass par proxes proj p w = .error h v) :
    Breaks par.rho proxes h := by
  rcases pass_eq_error.mp he with he | ⟨s, u, -, -, rfl, -⟩
  · exact look_breaks he
  · exact Or.inl rfl

theorem turn_eq_excessIter :
    turn par proxes proj p w = .error (.error .excessIter) v ↔
      ∃ s u, look par proxes proj p w = .ok s u ∧ ¬ Converges par p s ∧
        isLast par p.iter = true ∧ v = ended p.iter s .excessIter u := by
  obtain ⟨h, u, hs, ht⟩ | ⟨s, u, hs, ⟨hc, ht⟩ | ⟨hc, hl, ht⟩ |
      ⟨hn, ⟨r, t, hp, ht⟩ | ⟨h, t, hp, ht⟩⟩⟩ :=
    turn_cases par proxes proj p w
  · rw [ht]
    constructor
    · intro he
      cases he
      exact absurd rfl (look_breaks hs).ne_excessIter
    · rintro ⟨_, _, h, -⟩
      rw [hs] at h
      cases h
  · rw [ht, hs]
    constructor
    · intro h; cases h
    · rintro ⟨_, _, ⟨⟩, h, -⟩
      exact absurd hc h
  · rw [ht, hs]
    constructor
    · intro h
      cases h
      exact ⟨s, u, rfl, hc, hl, rfl⟩
    · rintro ⟨_, _, ⟨⟩, -, -, rfl⟩
      rfl
  · rw [ht, hs]
    constructor
    · intro h; cases h
    · rintro ⟨_, _, ⟨⟩, -, h, -⟩
      exact absurd (Or.inr h) hn
  · rw [ht, hs]
    constructor
    · intro he
      cases he
      exact absurd rfl (pass_breaks hp).ne_excessIter
    · rintro ⟨_, _, ⟨⟩, -, h, -⟩
      exact absurd (Or.inr h) hn

/-! ## The course -/

/-- Where `n` iterations lead that do not ask whether to stop. -/
def course (par : Params F) (proxes : List (Prox σ F)) (proj : Projection F) :
    Nat → Progress F → Run σ F SolverError (Progress F)
  | 0, p => pure p
  | n + 1, p => do
    let q ← course par proxes proj n p
    pass par proxes proj q

theorem course_succ_eq_ok {n : Nat} {q : Progress F} :
    course par proxes proj (n + 1) p w = .ok q v ↔
      ∃ r u, course par proxes proj n p w = .ok r u ∧ pass par proxes proj r u = .ok q v :=
  Run.bind_eq_ok

theorem exists_course_of_le {m n : Nat} {q : Progress F} (hmn : m ≤ n)
    (h : course par proxes proj n p w = .ok q v) :
    ∃ r u, course par proxes proj m p w = .ok r u := by
  induction n generalizing q v with
  | zero =>
    obtain rfl : m = 0 := by omega
    exact ⟨q, v, h⟩
  | succ n ih =>
    rcases Nat.lt_or_eq_of_le hmn with hlt | rfl
    · obtain ⟨r, u, hr, -⟩ := course_succ_eq_ok.mp h
      exact ih (by omega) hr
    · exact ⟨q, v, h⟩

theorem course_breaks {n : Nat} {h : Halt SolverError}
    (he : course par proxes proj n p w = .error h v) : Breaks par.rho proxes h := by
  induction n generalizing v with
  | zero => exact absurd he Run.pure_ne_error
  | succ n ih =>
    rcases Run.bind_eq_error.mp he with he | ⟨q, u, -, he⟩
    · exact ih he
    · exact pass_breaks he

theorem pass_plain {q : Progress F} (hp : p.acceleration = none)
    (h : pass par proxes proj p w = .ok q v) :
    ∃ s u, look par proxes proj p w = .ok s u ∧ q.v = s.measure.image ∧ q.acceleration = none := by
  obtain ⟨s, u, x, a, rejected, hs, hx, rfl, -⟩ := pass_eq_ok.mp h
  rw [hp] at hx
  cases hx
  exact ⟨s, u, hs, rfl, rfl⟩

theorem course_plain {n : Nat} {q : Progress F} (hp : p.acceleration = none)
    (h : course par proxes proj n p w = .ok q v) : q.acceleration = none := by
  induction n generalizing q v with
  | zero =>
    obtain ⟨rfl, -⟩ := Run.pure_eq_ok.mp h
    exact hp
  | succ n ih =>
    obtain ⟨r, u, hr, hq⟩ := course_succ_eq_ok.mp h
    obtain ⟨-, -, -, -, ha⟩ := pass_plain (ih hr) hq
    exact ha

/-! ## The run -/

/-- The run from `p` on makes `n` iterations without stopping, and is at `q` then. -/
inductive Reaches (par : Params F) (proxes : List (Prox σ F)) (proj : Projection F)
    (p : Progress F) (w : World σ F) : Nat → Progress F → World σ F → Prop
  | start : Reaches par proxes proj p w 0 p w
  | next {n : Nat} {q r : Progress F} {u v : World σ F} :
    Reaches par proxes proj p w n q u → turn par proxes proj q u = .ok (.next r) v →
      Reaches par proxes proj p w (n + 1) r v

/-- The first `n` iterations of the course give no cause to stop. -/
def Unstopped (par : Params F) (proxes : List (Prox σ F)) (proj : Projection F) (p : Progress F)
    (w : World σ F) (n : Nat) : Prop :=
  ∀ i < n, ∃ q u s t, course par proxes proj i p w = .ok q u ∧
    look par proxes proj q u = .ok s t ∧ ¬ Stops par q s

theorem reaches_iff {n : Nat} {q : Progress F} :
    Reaches par proxes proj p w n q v ↔
      course par proxes proj n p w = .ok q v ∧ Unstopped par proxes proj p w n := by
  constructor
  · intro h
    induction h with
    | start => exact ⟨rfl, fun i hi => absurd hi (Nat.not_lt_zero i)⟩
    | @next n q r u v _ ht ih =>
      obtain ⟨⟨s, t, hs, hn⟩, hp⟩ := turn_eq_next.mp ht
      refine ⟨course_succ_eq_ok.mpr ⟨q, u, ih.1, hp⟩, fun i hi => ?_⟩
      rcases Nat.lt_succ_iff_lt_or_eq.mp hi with hlt | rfl
      · exact ih.2 i hlt
      · exact ⟨q, u, s, t, ih.1, hs, hn⟩
  · rintro ⟨hc, hg⟩
    induction n generalizing q v with
    | zero =>
      obtain ⟨rfl, rfl⟩ := Run.pure_eq_ok.mp hc
      exact .start
    | succ n ih =>
      obtain ⟨r, u, hr, hp⟩ := course_succ_eq_ok.mp hc
      obtain ⟨q', u', s, t, hq, hs, hn⟩ := hg n (Nat.lt_succ_self n)
      rw [hr] at hq
      cases hq
      exact .next (ih hr fun i hi => hg i (Nat.lt_succ_of_lt hi))
        (turn_eq_next.mpr ⟨⟨s, t, hs, hn⟩, hp⟩)

theorem Reaches.unique {n : Nat} {q q' : Progress F} {v' : World σ F}
    (h : Reaches par proxes proj p w n q v) (h' : Reaches par proxes proj p w n q' v') :
    q = q' ∧ v = v' := by
  have hq := (reaches_iff.mp h).1
  rw [(reaches_iff.mp h').1] at hq
  cases hq
  exact ⟨rfl, rfl⟩

theorem iterate_succ (fuel : Nat) :
    iterate par proxes proj (fuel + 1) p w =
      match turn par proxes proj p w with
      | .ok (.done a) v => .ok (some a) v
      | .ok (.next q) v => iterate par proxes proj fuel q v
      | .error h v => .error h v := rfl

theorem iterate_of_reaches {n : Nat} {q : Progress F} (h : Reaches par proxes proj p w n q v)
    (fuel : Nat) :
    iterate par proxes proj (n + fuel) p w = iterate par proxes proj fuel q v := by
  induction h generalizing fuel with
  | start => rw [Nat.zero_add]
  | next _ ht ih => rw [Nat.add_assoc, ih, Nat.add_comm, iterate_succ, ht]

theorem iterate_eq_turn {n fuel : Nat} {q : Progress F} {u : World σ F}
    (h : Reaches par proxes proj p w n q u) (hn : n < fuel) :
    iterate par proxes proj fuel p w =
      match turn par proxes proj q u with
      | .ok (.done a) v => .ok (some a) v
      | .ok (.next r) v => iterate par proxes proj (fuel - n - 1) r v
      | .error h v => .error h v := by
  rw [← iterate_succ, ← iterate_of_reaches h]
  congr 1
  omega

/-- What becomes of a run: it stops or fails in one of the iterations that it may make, or it has
made them all. -/
theorem iterate_cases (par : Params F) (proxes : List (Prox σ F)) (proj : Projection F) (fuel : Nat)
    (p : Progress F) (w : World σ F) :
    (∃ q v, Reaches par proxes proj p w fuel q v ∧
      iterate par proxes proj fuel p w = .ok none v) ∨
    ∃ n < fuel, ∃ q u, Reaches par proxes proj p w n q u ∧
      ((∃ a v, turn par proxes proj q u = .ok (.done a) v ∧
          iterate par proxes proj fuel p w = .ok (some a) v) ∨
        ∃ h v, turn par proxes proj q u = .error h v ∧
          iterate par proxes proj fuel p w = .error h v) := by
  induction fuel with
  | zero => exact Or.inl ⟨p, w, .start, rfl⟩
  | succ fuel ih =>
    rcases ih with ⟨q, u, hr, -⟩ | ⟨n, hn, q, u, hr, h⟩
    · have hi := iterate_eq_turn hr (Nat.lt_succ_self fuel)
      cases ht : turn par proxes proj q u with
      | error h v =>
        rw [ht] at hi
        exact Or.inr ⟨fuel, by omega, q, u, hr, Or.inr ⟨h, v, ht, hi⟩⟩
      | ok t v =>
        rw [ht] at hi
        cases t with
        | done a => exact Or.inr ⟨fuel, by omega, q, u, hr, Or.inl ⟨a, v, ht, hi⟩⟩
        | next r =>
          rw [show fuel + 1 - fuel - 1 = 0 by omega] at hi
          exact Or.inl ⟨r, v, .next hr ht, hi⟩
    · refine Or.inr ⟨n, by omega, q, u, hr, ?_⟩
      have hi := iterate_eq_turn hr (Nat.lt_succ_of_lt hn)
      rcases h with ⟨a, v, ht, -⟩ | ⟨h, v, ht, -⟩
      · rw [ht] at hi
        exact Or.inl ⟨a, v, ht, hi⟩
      · rw [ht] at hi
        exact Or.inr ⟨h, v, ht, hi⟩

theorem iterate_eq_some {fuel : Nat} {a : Solution F} :
    iterate par proxes proj fuel p w = .ok (some a) v ↔
      ∃ n < fuel, ∃ q u, Reaches par proxes proj p w n q u ∧
        turn par proxes proj q u = .ok (.done a) v := by
  constructor
  · intro h
    obtain ⟨q, u, -, hi⟩ | ⟨n, hn, q, u, hr, ⟨b, t, ht, hi⟩ | ⟨e, t, -, hi⟩⟩ :=
      iterate_cases par proxes proj fuel p w
    · rw [hi] at h; cases h
    · rw [hi] at h
      cases h
      exact ⟨n, hn, q, u, hr, ht⟩
    · rw [hi] at h; cases h
  · rintro ⟨n, hn, q, u, hr, ht⟩
    rw [iterate_eq_turn hr hn, ht]

theorem iterate_eq_error {fuel : Nat} {h : Halt SolverError} :
    iterate par proxes proj fuel p w = .error h v ↔
      ∃ n < fuel, ∃ q u, Reaches par proxes proj p w n q u ∧
        turn par proxes proj q u = .error h v := by
  constructor
  · intro he
    obtain ⟨q, u, -, hi⟩ | ⟨n, hn, q, u, hr, ⟨b, t, -, hi⟩ | ⟨e, t, ht, hi⟩⟩ :=
      iterate_cases par proxes proj fuel p w
    · rw [hi] at he; cases he
    · rw [hi] at he; cases he
    · rw [hi] at he
      cases he
      exact ⟨n, hn, q, u, hr, ht⟩
  · rintro ⟨n, hn, q, u, hr, ht⟩
    rw [iterate_eq_turn hr hn, ht]

end Splitting.Solver
