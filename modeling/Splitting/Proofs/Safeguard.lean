import Splitting.Proofs.Acceleration
import Splitting.Proofs.Log

/-!
# The safeguard

Every accelerated point is judged once, in the iteration after it, against the plain step kept for
it. The first two iterations of a run are the same with and without the acceleration.
-/

namespace Splitting.Solver

open Anderson (Sample State)

variable {σ F : Type}

def plain (par : Params F) : Params F := { par with anderson := false }

/-! ## The first two iterations -/

def Progress.plain (p : Progress F) : Progress F := { p with acceleration := none }

/-- The second point of a run, of `n` entries, with the sample of the first. -/
def AtSecond (n : Nat) (p q : Progress F) : Prop :=
  q = p.plain ∧ p.v.size = n ∧ ∃ s b, p.acceleration = some s ∧ Primed b s ∧ b.Sized n

variable [Scalar F] [Spectral F]

theorem turn_plain {par : Params F} {proxes : List (Prox σ F)}
    (hp : ∀ q ∈ proxes, q.IgnoresLog) {proj : Projection F} {p : Progress F}
    {R : Progress F → Progress F → Prop}
    (hgo : ∀ s w v, look par proxes proj p w = .ok s v →
      Run.Tied World.Agrees R (goOn par p s.measure : Run σ F SolverError (Progress F))
        (goOn (plain par) p.plain s.measure)) :
    Run.Tied World.Agrees (TurnsAlike Eq R) (turn par proxes proj p)
      (turn (plain par) proxes proj p.plain) := by
  refine turn_tied (S := Eq) (look_tied rfl (fun q hq => (hp q hq).respects) proj rfl rfl rfl) rfl
    ?_ ?_ ?_
  · rintro s _ rfl
    rfl
  · rintro s _ rfl
    rfl
  · rintro s _ w v rfl hs
    exact hgo s w v hs

theorem goOn_plain (par : Params F) (p : Progress F) (m : Measure F) (w : World σ F) :
    goOn (plain par) p.plain m w = .ok (p.plain.advanced m m.image none) w :=
  goOn_eq_ok.mpr ⟨_, _, none, rfl, rfl, rfl⟩

theorem first_turn_plain {par : Params F} {proxes : List (Prox σ F)}
    (hp : ∀ q ∈ proxes, q.IgnoresLog) {proj : Projection F} {p : Progress F} {s : State F}
    (hs : p.acceleration = some s) (hc : Cleared s) :
    Run.Tied World.Agrees (TurnsAlike Eq (AtSecond p.v.size)) (turn par proxes proj p)
      (turn (plain par) proxes proj p.plain) := by
  refine turn_plain hp fun t w v ht w₁ w₂ hw => ?_
  obtain ⟨s', hx, hb⟩ := nextPoint?_cleared hc par t.measure
  rw [← hs] at hx
  have hgo : goOn par p t.measure w₁ =
      .ok (p.advanced t.measure t.measure.image (some s')) w₁ :=
    goOn_eq_ok.mpr ⟨_, _, none, hx, rfl, rfl⟩
  rw [hgo, goOn_plain]
  have hsizes := sizes_of_measure? (look_eq_ok.mp ht).2
  exact ⟨⟨rfl, hsizes.1, s', _, rfl, hb, hsizes⟩, hw⟩

theorem second_turn_plain {par : Params F} {proxes : List (Prox σ F)}
    (hp : ∀ q ∈ proxes, q.IgnoresLog) {proj : Projection F} {n : Nat} {p q : Progress F}
    (h : AtSecond n p q) :
    Run.Tied World.Agrees (TurnsAlike Eq fun _ _ => True) (turn par proxes proj p)
      (turn (plain par) proxes proj q) := by
  obtain ⟨rfl, hn, s, b, hs, hb, hsize⟩ := h
  refine turn_plain hp fun t w v ht w₁ w₂ hw => ?_
  have hsized : ∀ s', p.acceleration = some s' → s'.Sized n := by
    rw [hs]
    rintro _ ⟨⟩
    refine ⟨?_, by simp [hb.memory], by simp [hb.pending]⟩
    rw [hb.last]
    rintro _ ⟨⟩
    exact hsize
  have hsizes := sizes_of_measure? (look_eq_ok.mp ht).2
  rw [hn] at hsizes
  obtain ⟨x, a, rejected, hx, -⟩ := nextPoint?_total par hsizes hsized
  have hx' := hx
  rw [hs] at hx'
  obtain ⟨rfl, -⟩ := nextPoint?_primed hb hx'
  have hgo : goOn par p t.measure w₁ = .ok (p.advanced t.measure x a) w₁ :=
    goOn_eq_ok.mpr ⟨_, _, none, hx, rfl, rfl⟩
  rw [hgo, goOn_plain]
  exact ⟨trivial, hw⟩

theorem iterate_ends_alike {par : Params F} {proxes : List (Prox σ F)}
    (hp : ∀ q ∈ proxes, q.IgnoresLog) {proj : Projection F} {p : Progress F} {s : State F}
    (hs : p.acceleration = some s) (hc : Cleared s) {w v : World σ F} (hw : w.Agrees v)
    (hshort : ¬ ∃ q u, Reaches par proxes proj p w 2 q u) (fuel : Nat) :
    Run.EndsIn World.Agrees (Option.Rel Eq) (iterate par proxes proj fuel p w)
      (iterate (plain par) proxes proj fuel p.plain v) := by
  -- the second point is the last that both runs are sure to share
  cases fuel with
  | zero => exact ⟨.none, hw⟩
  | succ fuel =>
    refine iterate_succ_ends (first_turn_plain hp hs hc w v hw) ?_
    intro q q' w' v' ht hq hw'
    cases fuel with
    | zero => exact ⟨.none, hw'⟩
    | succ fuel =>
      refine iterate_succ_ends (second_turn_plain hp hq w' v' hw') ?_
      intro r r' w'' v'' ht' _ _
      exact absurd ⟨r, w'', .next (.next .start ht) ht'⟩ hshort

/-! ## Whole runs -/

section

variable {par : Params F} {init : Option (List (Array F))} {p : Problem σ F}

theorem prepare_plain (init : Option (List (Array F))) (hroom : HasRoom par p.dims) :
    Run.Tied World.Agrees Eq (prepare par init p) (prepare (plain par) init p) :=
  prepare_tied rfl (option_rel_refl (fun _ => rfl) _)
    ⟨fun h => ⟨nofun, h.2⟩, fun _ => hroom⟩

def OutlastsTwo (par : Params F) (init : Option (List (Array F))) (p : Problem σ F)
    (w : World σ F) : Prop :=
  ∃ proj u q v, prepare par init p w = .ok proj u ∧
    Reaches par p.proxes proj (begin par p.dims proj init) u 2 q v

theorem solve_ends_alike (ha : par.anderson = true) (hroom : HasRoom par p.dims)
    (hp : ∀ q ∈ p.proxes, q.IgnoresLog) {w : World σ F} (hshort : ¬ OutlastsTwo par init p w)
    (budget : Nat) :
    Run.Ends Eq (solve budget par init p w) (solve budget (plain par) init p w) := by
  unfold solve
  rw [Run.bind_apply, Run.bind_apply, Run.ends_iff]
  have hprep := prepare_plain init hroom w w ⟨rfl, rfl⟩
  obtain ⟨proj, _, u, u', hm, hn, rfl, hu⟩ | ⟨h, u, u', hm, hn, hu⟩ := hprep.cases
  · rw [hm, hn]
    have hacc : (begin par p.dims proj init).acceleration = some .initial := by simp [begin, ha]
    have hbegin : begin (plain par) p.dims proj init = (begin par p.dims proj init).plain := by
      simp [begin, plain, Progress.plain]
    dsimp only
    rw [hbegin]
    refine (iterate_ends_alike hp hacc initial_cleared hu ?_ _).mono
      (fun _ _ => eq_of_option_rel) fun _ _ => id
    rintro ⟨q, v, hr⟩
    exact hshort ⟨proj, u, q, v, hm, hr⟩
  · rw [hm, hn]
    exact ⟨rfl, hu⟩

end

/-- The iterations of an accelerated run, its rejections, and what a short run answers. -/
theorem accelerated_run_steps (par : Params F) (init : Option (List (Array F))) (p : Problem σ F)
    (w : World σ F) (ha : par.anderson = true) :
    (∀ i q m r, Passes par init p w i q m r →
      ∃ s s', q.acceleration = some s ∧ r.acceleration = some s' ∧
        (Restarts par init p w i ∧ ¬ Rejects par init p w i ∧
            r.v = m.image ∧ s'.pending = none ∨
          ¬ Restarts par init p w i ∧ Rejects par init p w i ∧
            (∃ j q' m', i = j + 1 ∧ Passes par init p w j q' m' q ∧ r.v = m'.image) ∧
            s'.pending = none ∨
          ¬ Restarts par init p w i ∧ ¬ Rejects par init p w i ∧
            (∃ j q' m', i = j + 1 ∧ Passes par init p w j q' m' q ∧
              Combines par m'.sample m s.memory s'.memory r.v) ∧
            s'.pending = some m.image) ∧
        (Rejects par init p w i ↔ (∃ z, s.pending = some z) ∧ ¬ Acceptable s m) ∧
        ∀ z, s.pending = some z ↔ ∃ j q' m', i = j + 1 ∧ Passes par init p w j q' m' q ∧
          ¬ Restarts par init p w j ∧ ¬ Rejects par init p w j ∧ z = m'.image) ∧
    (∀ i, Rejects par init p w i → 2 ≤ i) ∧
    (∀ i j, Rejects par init p w i → Rejects par init p w j → i < j → i + 3 ≤ j) ∧
    (HasRoom par p.dims → (∀ q ∈ p.proxes, q.IgnoresLog) → ¬ OutlastsTwo par init p w →
      ∀ budget, Run.Ends Eq (solve budget par init p w) (solve budget (plain par) init p w)) := by
  refine ⟨fun i q m r h => ?_, fun i h => ?_, fun i j hi hj hij => ?_, fun hroom hp hshort => ?_⟩
  · obtain ⟨s, hq, hs⟩ := h.phase ha
    obtain ⟨s', hr, hmove⟩ := hs.move h hq
    exact ⟨s, s', hq, hr, hmove.cases, hmove.rejects_iff, hmove.pending_iff⟩
  · obtain ⟨j, rfl, -⟩ := h.before ha
    omega
  · obtain ⟨k, rfl, hk, hk'⟩ := hj.before ha
    have h₁ : i ≠ k + 1 := fun e => hk (e ▸ hi)
    have h₂ : i ≠ k := fun e => hk' (e ▸ hi)
    omega
  · exact solve_ends_alike ha hroom hp hshort

/-! ## Blunt arithmetic -/

/-- Two values, with one for every norm and zero for every power, so that no run converges and no
point in doubt is acceptable. -/
@[reducible] def blunt : Scalar Bool where
  zero := false
  one := true
  add := or
  sub := xor
  mul := and
  div a _ := a
  neg a := a
  le a b := a = true → b = true
  lt a b := a = false ∧ b = true
  beq a b := a == b
  ofScientific _ _ _ := true
  decLe := inferInstance
  decLt := inferInstance
  ofNat n := n != 0
  sqrt _ := true
  abs a := a
  pow _ _ := false
  maxNum := or
  isFinite _ := true

section Blunt

attribute [local instance] blunt

@[reducible] def bluntSpectral : Spectral Bool :=
  ⟨fun _ => 0, fun a _ _ work => (a, work), fun _ _ _ _ => rfl, fun _ _ _ _ _ => rfl⟩

attribute [local instance] bluntSpectral

def bluntly : Params Bool := ⟨none, true, false, false, true, 1, false, false, 0⟩

def still : Problem Unit Bool := ⟨[⟨1, fun _ v => pure v⟩], [], #[]⟩

theorem blunt_not_acceptable (s : State Bool) (m : Measure Bool) : ¬ Acceptable s m := by
  intro h
  have hpow : Anderson.bound (s.firstNorm.getD (Vec.norm m.residual)) s.accepted = false :=
    Bool.and_false _
  unfold Acceptable at h
  rw [hpow] at h
  exact Bool.noConfusion (h rfl)

theorem blunt_dual {p : Projection Bool} {rho : Bool} {t : Projection.Scratch Bool}
    {v x : Array Bool} {m : Measure Bool} (h : measure? p rho t v x = some m) : m.dual = true := by
  simp only [measure?, Option.bind_eq_bind, Option.bind_eq_some_iff] at h
  obtain ⟨r, -, ⟨y, s₁⟩, -, g, -, f, -, ⟨a, s₂⟩, -, l, -, ⟨b, s₃⟩, hb, hm⟩ := h
  cases hm
  unfold Projection.rangeResidual? at hb
  split at hb
  · simp only [Option.bind_eq_bind, Option.bind_eq_some_iff] at hb
    obtain ⟨gap, -, ⟨rest, s⟩, -, hb⟩ := hb
    cases hb
    rfl
  · cases hb
    rfl

theorem blunt_not_convergesAt (w : World Unit Bool) (i : Nat) :
    ¬ ConvergesAt bluntly none still w i := by
  rintro ⟨r₀, r, -, hr, -, hle⟩
  obtain ⟨proj, u, hp⟩ := prepare_of_residuals? hr
  obtain ⟨s, ⟨q, t, v, -, hs⟩, rfl⟩ := (residuals?_eq_some hp).mp hr
  exact Bool.noConfusion (hle (blunt_dual (look_eq_ok.mp hs).2))

theorem blunt_passes (w : World Unit Bool) (i : Nat) :
    ∃ q m r, Passes bluntly none still w i q m r := by
  have hg : ∀ g ∈ still.couplings, g.Sound := fun g hg => by cases hg
  have hs : ∀ b ∈ still.proxes, b.Total bluntly.rho := by
    intro b hb
    rw [List.mem_singleton.mp hb]
    exact fun v w hv => ⟨v, w, rfl, hv⟩
  have hroom : HasRoom bluntly still.dims := ⟨fun _ => by decide, by decide⟩
  exact exists_passes (prepare_total rfl hroom hg w) hg hs (fun j _ => blunt_not_convergesAt w j)
    nofun

theorem blunt_run_rejections :
    Rejects bluntly none still (World.start () none) 2 ∧
      Rejects bluntly none still (World.start () none) 5 ∧
      ∀ i j, Rejects bluntly none still (World.start () none) i →
        Rejects bluntly none still (World.start () none) j → i < j → i + 3 ≤ j := by
  have hthird := rejects_every_third rfl blunt_not_acceptable (blunt_passes (World.start () none))
  obtain ⟨-, -, hspaced, -⟩ := accelerated_run_steps bluntly none still (World.start () none) rfl
  exact ⟨(hthird 0).2.2, (hthird 1).2.2, hspaced⟩

end Blunt

end Splitting.Solver
