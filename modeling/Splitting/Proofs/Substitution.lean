import Mathlib.Data.List.Forall2
import Splitting.Proofs.Safety

/-!
# Operators that stand for each other

Operators of one size that answer the same for vectors of that size can stand for each other: in
whatever problem one is replaced by the other, a solve does the same.
-/

namespace Splitting

variable {σ F : Type}

namespace Operator

/-- The answer takes the place of `y`, so it is as long. -/
structure InPlace (g : Operator F) : Prop where
  apply : ∀ alpha x beta y z, g.apply alpha x beta y = some z → z.size = y.size
  applyTransposed : ∀ alpha x beta y z, g.applyTransposed alpha x beta y = some z → z.size = y.size

/-- The operators have one size, and answer the same for vectors of that size. -/
structure Alike (g g' : Operator F) : Prop where
  rows : g.rows = g'.rows
  cols : g.cols = g'.cols
  apply : ∀ alpha x beta y, x.size = g.cols → y.size = g.rows →
    g.apply alpha x beta y = g'.apply alpha x beta y
  applyTransposed : ∀ alpha x beta y, x.size = g.rows → y.size = g.cols →
    g.applyTransposed alpha x beta y = g'.applyTransposed alpha x beta y
  inPlace : g.InPlace

theorem InPlace.alike {g : Operator F} (h : g.InPlace) : g.Alike g :=
  ⟨rfl, rfl, fun _ _ _ _ _ _ => rfl, fun _ _ _ _ _ _ => rfl, h⟩

end Operator

theorem Matrix.size_of_mulAdd? [Scalar F] {m : Matrix F} {alpha beta : F} {x y z : Array F}
    (h : m.mulAdd? alpha x beta y = some z) : z.size = y.size := by
  unfold mulAdd? at h
  split at h
  · cases h
    exact Vec.size_scale beta y
  · split at h
    · cases h
      exact Array.size_mapIdx
    · cases h

theorem Matrix.size_of_mulAddTransposed? [Scalar F] {m : Matrix F} {alpha beta : F}
    {x y z : Array F} (h : m.mulAddTransposed? alpha x beta y = some z) : z.size = y.size := by
  unfold mulAddTransposed? at h
  split at h
  · cases h
    exact Vec.size_scale beta y
  · split at h
    · cases h
      exact Array.size_mapIdx
    · cases h

theorem Operator.inPlace_ofMatrix [Scalar F] (m : Matrix F) : (ofMatrix m).InPlace :=
  ⟨fun _ _ _ _ _ h => Matrix.size_of_mulAdd? h,
    fun _ _ _ _ _ h => Matrix.size_of_mulAddTransposed? h⟩

theorem Operator.inPlace_scaledIdentity [Scalar F] (n : Nat) (factor : F) :
    (scaledIdentity n factor).InPlace := by
  have h : ∀ (alpha : F) (x : Array F) (beta : F) (y z : Array F),
      (scaledIdentity n factor).apply alpha x beta y = some z → z.size = y.size :=
    fun alpha x beta y z hz => (Vec.size_of_addScaled? hz).trans (Vec.size_scale beta y)
  exact ⟨h, h⟩

/-! ## Checks -/

namespace Problem

def coupledBy (p : Problem σ F) (gs : List (Operator F)) : Problem σ F := { p with couplings := gs }

theorem couplingDefect?_of_alike {gs gs' : List (Operator F)}
    (h : List.Forall₂ Operator.Alike gs gs') (lenH l : Nat) (ps : List (Prox σ F)) :
    couplingDefect? lenH l ps gs = couplingDefect? lenH l ps gs' := by
  induction h generalizing l ps with
  | nil => rfl
  | cons hg _ ih =>
    cases ps with
    | nil => rfl
    | cons q ps => rw [couplingDefect?, couplingDefect?, hg.rows, hg.cols, ih]

theorem shapeDefect?_coupledBy {p : Problem σ F} {gs : List (Operator F)}
    (h : List.Forall₂ Operator.Alike p.couplings gs) :
    (p.coupledBy gs).shapeDefect? = p.shapeDefect? := by
  unfold shapeDefect? shapeDefectOf? coupledBy
  rw [h.length_eq, couplingDefect?_of_alike h]

end Problem

/-! ## Projections -/

namespace Projection

/-- Part by part the operators are alike, and have the size of the block and `m` rows. -/
inductive PartsAlike (m : Nat) : List (Operator F × Nat) → List (Operator F × Nat) → Prop
  | nil : PartsAlike m [] []
  | cons {g g' : Operator F} {parts parts' : List (Operator F × Nat)} : g.Alike g' → g.rows = m →
    PartsAlike m parts parts' → PartsAlike m ((g, g.cols) :: parts) ((g', g.cols) :: parts')

theorem PartsAlike.isEmpty {m : Nat} {parts parts' : List (Operator F × Nat)}
    (h : PartsAlike m parts parts') : parts.isEmpty = parts'.isEmpty := by
  cases h <;> rfl

/-- The projections differ in operators that are alike, for blocks of `n` entries in all. -/
structure Alike (n : Nat) (p p' : Projection F) : Prop where
  parts : PartsAlike p.rhs.size p.parts p'.parts
  rhs : p.rhs = p'.rhs
  pinv : p.pinv = p'.pinv
  total : p.active = true → total (p.parts.map Prod.snd) ≤ n

variable {n : Nat} {p p' : Projection F}

theorem Alike.active (h : p.Alike n p') : p.active = p'.active := by
  unfold Projection.active
  rw [h.rhs, h.parts.isEmpty]

variable [Scalar F] {m : Nat} {parts parts' : List (Operator F × Nat)}

theorem addGram?_congr (h : PartsAlike m parts parts') {e y : Array F} (he : e.size = m)
    (hy : y.size = m) : addGram? e parts y = addGram? e parts' y ∧
      ∀ z, addGram? e parts y = some z → z.size = m := by
  induction h generalizing y with
  | nil => exact ⟨rfl, by rintro z ⟨⟩; exact hy⟩
  | @cons g g' parts parts' hg hrows _ ih =>
    subst hrows
    simp only [addGram?, Option.bind_eq_bind]
    rw [← hg.applyTransposed 1 e 0 _ he (Vec.size_zeros _)]
    cases hw : g.applyTransposed 1 e 0 (Vec.zeros g.cols) with
    | none => exact ⟨rfl, by simp⟩
    | some w =>
      have hsw : w.size = g.cols := (hg.inPlace.applyTransposed _ _ _ _ _ hw).trans (by simp)
      simp only [Option.bind_some]
      rw [← hg.apply 1 w 1 y hsw hy]
      cases hz : g.apply 1 w 1 y with
      | none => exact ⟨rfl, by simp⟩
      | some z => exact ih ((hg.inPlace.apply _ _ _ _ _ hz).trans hy)

theorem gramColumns?_congr (h : PartsAlike m parts parts') {left c : Nat} {last : Array F}
    (hl : last.size = m) (cols : Array (Array F)) :
    gramColumns? parts m left c last cols = gramColumns? parts' m left c last cols := by
  induction left generalizing c last cols with
  | zero => rfl
  | succ left ih =>
    obtain ⟨hcol, hsize⟩ := addGram?_congr h (e := unit m c) (y := Vec.scale 0 last)
      (by simp [unit]) (by simp [hl])
    simp only [gramColumns?, Option.bind_eq_bind]
    rw [← hcol]
    exact Option.bind_congr fun col hc => ih (hsize col hc) _

theorem gram?_congr (h : PartsAlike m parts parts') : gram? parts m = gram? parts' m := by
  unfold gram?
  rw [gramColumns?_congr h (Vec.size_zeros m)]

theorem addCoupled?_congr (h : PartsAlike m parts parts') {x y : Array F} {k : Nat}
    (hx : k + Splitting.total (parts.map Prod.snd) ≤ x.size) (hy : y.size = m) :
    addCoupled? x parts k y = addCoupled? x parts' k y ∧
      ∀ z, addCoupled? x parts k y = some z → z.size = m := by
  induction h generalizing k y with
  | nil => exact ⟨rfl, by rintro z ⟨⟩; exact hy⟩
  | @cons g g' parts parts' hg hrows _ ih =>
    subst hrows
    simp only [List.map_cons, total_cons] at hx
    simp only [addCoupled?, Option.bind_eq_bind]
    rw [← hg.apply 1 (x.extract k (k + g.cols)) 1 y (by simp; omega) hy]
    cases hz : g.apply 1 (x.extract k (k + g.cols)) 1 y with
    | none => exact ⟨rfl, by simp⟩
    | some z => exact ih (by omega) ((hg.inPlace.apply _ _ _ _ _ hz).trans hy)

theorem subTransposed?_congr (h : PartsAlike m parts parts') {w y : Array F} {k : Nat}
    (hw : w.size = m) (hy : k + Splitting.total (parts.map Prod.snd) ≤ y.size) (out : Array F) :
    subTransposed? w y parts k out = subTransposed? w y parts' k out := by
  induction h generalizing k out with
  | nil => rfl
  | @cons g g' parts parts' hg hrows _ ih =>
    subst hrows
    simp only [List.map_cons, total_cons] at hy
    simp only [subTransposed?, Option.bind_eq_bind]
    rw [← hg.applyTransposed (-1) w 1 (y.extract k (k + g.cols)) hw (by simp; omega)]
    exact Option.bind_congr fun block _ => ih (by omega) _

theorem Alike.fresh (h : p.Alike n p') : p.fresh = p'.fresh := by
  unfold Projection.fresh
  rw [h.rhs]

theorem Alike.gap? (h : p.Alike n p') (ha : p.active = true) {x : Array F} (hx : x.size = n) :
    p.gap? x = p'.gap? x ∧ ∀ z, p.gap? x = some z → z.size = p.rhs.size := by
  have hsum := addCoupled?_congr h.parts (x := x) (k := 0) (y := Vec.scale (-1) p.rhs)
    (by have := h.total ha; omega) (by simp)
  unfold Projection.gap?
  rw [← h.rhs]
  exact hsum

theorem Alike.correct? (h : p.Alike n p') (ha : p.active = true) {gap multiplier y : Array F}
    (hg : gap.size = p.rhs.size) (hm : multiplier.size = p.rhs.size) (hy : y.size = n) :
    p.correct? gap multiplier y = p'.correct? gap multiplier y ∧
      ∀ z s, p.correct? gap multiplier y = some (z, s) → s.Sized p.rhs.size := by
  have hsize : ∀ w, p.pinv.mulAdd? 1 gap 0 multiplier = some w → w.size = p.rhs.size :=
    fun w hw => (Matrix.size_of_mulAdd? hw).trans hm
  unfold Projection.correct?
  rw [← h.pinv]
  simp only [Option.bind_eq_bind]
  constructor
  · refine Option.bind_congr fun w hw => ?_
    rw [subTransposed?_congr h.parts (hsize w hw) (by have := h.total ha; omega)]
  · intro z s hz
    obtain ⟨w, hw, hz⟩ := Option.bind_eq_some_iff.mp hz
    obtain ⟨y', -, hz⟩ := Option.bind_eq_some_iff.mp hz
    cases hz
    exact ⟨hg, hsize w hw⟩

variable {s : Scratch F}

theorem Alike.project? (h : p.Alike n p') (hs : s.Sized p.rhs.size) {v : Array F}
    (hv : v.size = n) : p.project? s v = p'.project? s v ∧
      ∀ z t, p.project? s v = some (z, t) → t.Sized p.rhs.size := by
  unfold Projection.project?
  rw [← h.active]
  by_cases ha : p.active = true
  · obtain ⟨hgap, hsize⟩ := h.gap? ha hv
    simp only [if_pos ha, Option.bind_eq_bind, ← hgap]
    refine ⟨Option.bind_congr fun gap hg => (h.correct? ha (hsize gap hg) hs.2 hv).1, ?_⟩
    intro z t hz
    obtain ⟨gap, hg, hz⟩ := Option.bind_eq_some_iff.mp hz
    exact (h.correct? ha (hsize gap hg) hs.2 hv).2 z t hz
  · simp only [if_neg ha]
    exact ⟨trivial, by rintro z t ⟨⟩; exact hs⟩

theorem Alike.residual? (h : p.Alike n p') (hs : s.Sized p.rhs.size) {x : Array F}
    (hx : x.size = n) : p.residual? s x = p'.residual? s x ∧
      ∀ r t, p.residual? s x = some (r, t) → t.Sized p.rhs.size := by
  unfold Projection.residual?
  rw [← h.active]
  by_cases ha : p.active = true
  · obtain ⟨hgap, hsize⟩ := h.gap? ha hx
    simp only [if_pos ha, Option.bind_eq_bind, ← hgap]
    refine ⟨trivial, fun r t hr => ?_⟩
    obtain ⟨gap, hg, hr⟩ := Option.bind_eq_some_iff.mp hr
    cases hr
    exact ⟨hsize gap hg, hs.2⟩
  · simp only [if_neg ha]
    exact ⟨trivial, by rintro r t ⟨⟩; exact hs⟩

theorem Alike.rangeResidual? (h : p.Alike n p') (hs : s.Sized p.rhs.size) {g : Array F}
    (hg : g.size = n) : p.rangeResidual? s g = p'.rangeResidual? s g ∧
      ∀ r t, p.rangeResidual? s g = some (r, t) → t.Sized p.rhs.size := by
  unfold Projection.rangeResidual?
  rw [← h.active]
  by_cases ha : p.active = true
  · obtain ⟨hgap, hsize⟩ := addCoupled?_congr h.parts (x := g) (k := 0) (y := Vec.scale 0 s.gap)
      (by have := h.total ha; omega) (by simp [hs.1])
    simp only [if_pos ha, Option.bind_eq_bind, ← hgap]
    constructor
    · refine Option.bind_congr fun gap hgap => ?_
      rw [(h.correct? ha (hsize gap hgap) hs.2 hg).1]
    · intro r t hr
      obtain ⟨gap, hgap, hr⟩ := Option.bind_eq_some_iff.mp hr
      obtain ⟨⟨z, t'⟩, hz, hr⟩ := Option.bind_eq_some_iff.mp hr
      cases hr
      exact (h.correct? ha (hsize gap hgap) hs.2 hg).2 z _ hz
  · simp only [if_neg ha]
    exact ⟨trivial, by rintro r t ⟨⟩; exact hs⟩

end Projection

/-! ## Iterations -/

namespace Solver

variable [Scalar F] {n : Nat} {proj proj' : Projection F}

theorem measure?_congr (h : proj.Alike n proj') (rho : F) {s : Projection.Scratch F}
    (hs : s.Sized proj.rhs.size) {v x : Array F} (hv : v.size = n) (hx : x.size = n) :
    measure? proj rho s v x = measure? proj' rho s v x ∧
      ∀ m, measure? proj rho s v x = some m → m.scratch.Sized proj.rhs.size := by
  obtain ⟨r, hr, hsr⟩ := Vec.sub?_total (x := v) (y := Vec.scale Scalar.two x) (by simp [hv, hx])
  have hproject := h.project? hs (v := r) (by rw [hsr, Vec.size_scale, hx])
  have hresidual := fun (t : Projection.Scratch F) (ht : t.Sized proj.rhs.size) =>
    h.residual? ht hx
  have hrange := fun (t : Projection.Scratch F) (ht : t.Sized proj.rhs.size) l
      (hl : Vec.sub? v x = some l) => h.rangeResidual? ht (g := Vec.scale (Scalar.recip rho) l)
    (by rw [Vec.size_scale, Vec.size_of_addScaled? hl, hv])
  simp only [measure?, Option.bind_eq_bind, hr, Option.bind_some]
  constructor
  · rw [← hproject.1]
    refine Option.bind_congr fun image hy => Option.bind_congr fun g _ =>
      Option.bind_congr fun f _ => ?_
    obtain ⟨y, s₁⟩ := image
    have hs₁ := hproject.2 y s₁ hy
    rw [← (hresidual s₁ hs₁).1]
    refine Option.bind_congr fun residual ha => Option.bind_congr fun l hl => ?_
    obtain ⟨a, s₂⟩ := residual
    rw [← (hrange s₂ ((hresidual s₁ hs₁).2 a s₂ ha) l hl).1]
  · intro m hm
    simp only [Option.bind_eq_some_iff] at hm
    obtain ⟨⟨y, s₁⟩, hy, g, -, f, -, ⟨a, s₂⟩, ha, l, hl, ⟨b, s₃⟩, hb, hm⟩ := hm
    cases hm
    have hs₂ := (hresidual s₁ (hproject.2 y s₁ hy)).2 a s₂ ha
    exact (hrange s₂ hs₂ l hl).2 b s₃ hb

section Run

variable {par : Params F} {proxes : List (Prox σ F)} {p : Progress F}
  (hn : total (proxes.map Prox.dim) = n) (h : proj.Alike n proj')
include hn h

theorem look_congr (hp : p.Sized n proj.rhs.size) (w : World σ F) :
    look par proxes proj p w = look par proxes proj' p w := by
  simp only [look_apply, Run.bind_apply]
  cases hx : proxPoints par.rho p.iter p.v proxes 0 0 #[] (opened par p.iter w) with
  | error e v => rfl
  | ok x v =>
    dsimp only
    have hsx : x.size = n := by rw [size_of_proxPoints hx, hn]
    rw [(measure?_congr h par.rho hp.scratch hp.v hsx).1]

variable [Spectral F]

theorem turn_congr (hp : p.Sized n proj.rhs.size) (w : World σ F) :
    turn par proxes proj p w = turn par proxes proj' p w := by
  unfold turn
  rw [Run.bind_apply, Run.bind_apply, look_congr hn h hp]

theorem sized_of_turn (hp : p.Sized n proj.rhs.size) {q : Progress F} {w v : World σ F}
    (ht : turn par proxes proj p w = .ok (.next q) v) : q.Sized n proj.rhs.size := by
  obtain ⟨s, u, x, a, r, hl, hx, rfl, -⟩ := pass_eq_ok.mp (turn_eq_next.mp ht).2
  obtain ⟨hprox, hmeasure⟩ := look_eq_ok.mp hl
  have hsx : s.x.size = n := by rw [size_of_proxPoints hprox, hn]
  have hscratch := (measure?_congr h par.rho hp.scratch hp.v hsx).2 _ hmeasure
  have hsizes := sizes_of_measure? hmeasure
  rw [hp.v] at hsizes
  obtain ⟨x', a', r', hx', hsv, ha⟩ := nextPoint?_total par hsizes hp.acceleration
  rw [hx] at hx'
  cases hx'
  exact ⟨hsv, hscratch, ha⟩

theorem iterate_congr (fuel : Nat) (hp : p.Sized n proj.rhs.size) (w : World σ F) :
    iterate par proxes proj fuel p w = iterate par proxes proj' fuel p w := by
  induction fuel generalizing p w with
  | zero => rfl
  | succ fuel ih =>
    rw [iterate_succ, iterate_succ, ← turn_congr hn h hp]
    cases ht : turn par proxes proj p w with
    | error e v => rfl
    | ok t v =>
      cases t with
      | done a => rfl
      | next q => exact ih (sized_of_turn hn h hp ht) v

end Run

end Solver

/-! ## Solves -/

theorem total_map_snd_zip_le (gs : List (Operator F)) (dims : List Nat) :
    total ((gs.zip dims).map Prod.snd) ≤ total dims := by
  induction gs generalizing dims with
  | nil => simp
  | cons g gs ih =>
    cases dims with
    | nil => simp
    | cons d dims =>
      simp only [List.zip_cons_cons, List.map_cons, total_cons]
      exact Nat.add_le_add_left (ih dims) d

namespace Projection

theorem partsAlike_zip {gs gs' : List (Operator F)} (h : List.Forall₂ Operator.Alike gs gs')
    {dims : List Nat} {m : Nat} (hfit : ∀ g n, (g, n) ∈ gs.zip dims → g.cols = n ∧ g.rows = m) :
    PartsAlike m (gs.zip dims) (gs'.zip dims) := by
  induction h generalizing dims with
  | nil => exact .nil
  | @cons g g' gs gs' hg _ ih =>
    cases dims with
    | nil => exact .nil
    | cons d dims =>
      obtain ⟨rfl, hrows⟩ := hfit g d List.mem_cons_self
      exact .cons hg hrows (ih fun f n hf => hfit f n (List.mem_cons_of_mem _ hf))

theorem ofCouplings?_congr [Scalar F] [Spectral F] {gs gs' : List (Operator F)}
    (h : List.Forall₂ Operator.Alike gs gs') {dims : List Nat} {rhs : Array F}
    (hfit : ∀ g n, (g, n) ∈ gs.zip dims → g.cols = n ∧ g.rows = rhs.size) (epsZero : F) :
    Option.Rel (Alike (Splitting.total dims)) (ofCouplings? gs dims rhs epsZero)
      (ofCouplings? gs' dims rhs epsZero) := by
  have hparts := partsAlike_zip h hfit
  have htotal := total_map_snd_zip_le gs dims
  unfold ofCouplings?
  dsimp only
  rw [← hparts.isEmpty, ← gram?_congr hparts]
  split
  · exact .some ⟨hparts, rfl, rfl, fun _ => htotal⟩
  · cases gram? (gs.zip dims) rhs.size with
    | none => exact .none
    | some gram => exact .some ⟨hparts, rfl, rfl, fun _ => htotal⟩

end Projection

namespace Solver

variable [Scalar F] [Spectral F] {p : Problem σ F} {gs : List (Operator F)}

/-- A solve does the same with operators in the place of others that are alike. -/
theorem solve_coupledBy (h : List.Forall₂ Operator.Alike p.couplings gs) (budget : Nat)
    (par : Params F) (init : Option (List (Array F))) (w : World σ F) :
    solve budget par init (p.coupledBy gs) w = solve budget par init p w := by
  have hdefect : defect? par init (p.coupledBy gs) = defect? par init p := by
    unfold defect?
    rw [Problem.shapeDefect?_coupledBy h]
    rfl
  unfold solve
  rw [Run.bind_apply, Run.bind_apply]
  cases hd : defect? par init p with
  | some d => rw [prepare_of_defect hd, prepare_of_defect (hdefect.trans hd)]
  | none =>
    obtain ⟨-, -, hfit⟩ := Problem.shapeDefect?_eq_none.mp (shapeDefect?_of_defect? hd)
    have hsize : ∀ g n, (g, n) ∈ p.couplings.zip p.dims → g.cols = n ∧ g.rows = p.rhs.size := by
      intro g n hg
      obtain ⟨-, q, hq, rfl⟩ := Problem.exists_of_mem_zip_dims hg
      exact hfit q g hq
    have hproj := Projection.ofCouplings?_congr h hsize par.epsZero
    rw [prepare_of_accepted hd, prepare_of_accepted (hdefect.trans hd)]
    change Option.Rel _ _ (Projection.ofCouplings? (p.coupledBy gs).couplings
      (p.coupledBy gs).dims (p.coupledBy gs).rhs par.epsZero) at hproj
    generalize ho : Projection.ofCouplings? p.couplings p.dims p.rhs par.epsZero = o at hproj ⊢
    generalize Projection.ofCouplings? (p.coupledBy gs).couplings (p.coupledBy gs).dims
      (p.coupledBy gs).rhs par.epsZero = o' at hproj ⊢
    cases hproj with
    | none => rfl
    | @some proj proj' hproj =>
      have hrhs := (Projection.parts_of_ofCouplings? ho).2
      have hsized := begin_sized hd hrhs
      rw [← hrhs] at hsized
      have hbegin : begin par p.dims proj' init = begin par p.dims proj init := by
        unfold begin
        rw [hproj.fresh]
      by_cases hr : HasRoom par p.dims
      · have hr' : HasRoom par (p.coupledBy gs).dims := hr
        simp only [if_pos hr, if_pos hr']
        show iterate par p.proxes proj' _ (begin par p.dims proj' init) _ = _
        rw [hbegin]
        exact (iterate_congr rfl hproj _ hsized _).symm
      · have hr' : ¬ HasRoom par (p.coupledBy gs).dims := hr
        simp only [if_neg hr, if_neg hr']

end Solver

end Splitting
