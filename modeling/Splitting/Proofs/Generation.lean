import Splitting.Proofs.Retention

/-!
# Generated programs

A block is drawn around a hidden point, and the right-hand side gathers what the hidden points add
up to. Whatever is drawn, the blocks have the shapes that were asked for; and with such blocks a
program can be built, with a backend for each.
-/

namespace Splitting

/-! ## Draws -/

namespace Random.Source

variable {γ F : Type} {draw : γ → F × γ}

theorem size_collect (n : Nat) (done : Array F) (g : γ) :
    (collect draw n done g).1.size = done.size + n := by
  induction n generalizing done g with
  | zero => rfl
  | succ n ih =>
    rw [collect]
    dsimp only
    rw [ih, Array.size_push]
    omega

theorem size_many (n : Nat) (g : γ) : (many draw n g).1.size = n :=
  (size_collect n #[] g).trans (Nat.zero_add n)

theorem forall_collect {P : F → Prop} (hdraw : ∀ g, P (draw g).1) {n : Nat} {done : Array F}
    (hdone : ∀ e ∈ done, P e) (g : γ) : ∀ e ∈ (collect draw n done g).1, P e := by
  induction n generalizing done g with
  | zero => exact hdone
  | succ n ih =>
    refine ih (fun e he => ?_) _
    rcases Array.mem_push.mp he with he | rfl
    · exact hdone e he
    · exact hdraw g

theorem forall_many {P : F → Prop} (hdraw : ∀ g, P (draw g).1) (n : Nat) (g : γ) :
    ∀ e ∈ (many draw n g).1, P e :=
  forall_collect hdraw (fun _ he => absurd he (Array.not_mem_empty _)) g

end Random.Source

theorem Matrix.mulAdd?_eq_some {F : Type} [Scalar F] {a : Matrix F} {rows cols : Nat}
    (ha : a.shape = .general rows cols) {x y : Array F} (hx : x.size = cols) (hy : y.size = rows)
    (alpha beta : F) : ∃ z, a.mulAdd? alpha x beta y = some z ∧ z.size = rows := by
  have hrows : a.rows = rows := congrArg Shape.rows ha
  have hcols : a.cols = cols := congrArg Shape.cols ha
  obtain ⟨z, hz, hsize⟩ := a.mulAdd?_total alpha beta (hx.trans hcols.symm) (hy.trans hrows.symm)
  exact ⟨z, hz, hsize.trans hrows⟩

namespace CoupledQp

variable {F γ β ε φ : Type} [Scalar F]

/-! ## Drawn blocks -/

/-- The shapes of a block of `q` variables and `p` inequalities that is coupled by `s` equations. -/
structure HasShape (s q p : Nat) (b : QpBlock F) : Prop where
  square : b.q.shape = .packed q
  c_size : b.c.size = q
  f_shape : b.f.shape = .general p q
  d_size : b.d.size = p
  g_shape : b.g.shape = .general s q

section Fits

variable {F : Type} {prob : CoupledQp F} {xs : List (Array F)}

/-- The shapes of the blocks agree with each other and with the point, which has a part for each. -/
def Fits (prob : CoupledQp F) (xs : List (Array F)) : Prop :=
  List.Forall₂ (fun b x => HasShape prob.rhs.size x.size b.d.size b) prob.blocks xs

theorem Fits.pairs? (h : prob.Fits xs) : prob.pairs? xs = some (prob.blocks.zip xs) :=
  if_pos h.length_eq.symm

theorem Fits.hasShape (h : prob.Fits xs) {b : QpBlock F} {x : Array F}
    (hb : (b, x) ∈ prob.blocks.zip xs) : HasShape prob.rhs.size x.size b.d.size b :=
  List.forall₂_zip h hb

theorem Fits.getD_mem (h : prob.Fits xs) (l : Fin prob.blocks.length) :
    (prob.blocks[l], xs.getD l #[]) ∈ prob.blocks.zip xs := by
  have hl : l < xs.length := h.length_eq ▸ l.isLt
  rw [List.getD_eq_getElem _ _ hl]
  exact List.mem_iff_getElem.mpr ⟨l, by simp [hl], by simp⟩

theorem Fits.c_size (h : prob.Fits xs) (l : Fin prob.blocks.length) :
    prob.blocks[l].c.size = (xs.getD l #[]).size := (h.hasShape (h.getD_mem l)).c_size

theorem Fits.of_hasShape {s q p : Nat} (hshape : ∀ b ∈ prob.blocks, HasShape s q p b)
    (hrhs : prob.rhs.size = s) (hlen : xs.length = prob.blocks.length)
    (hsizes : ∀ y ∈ prob.blocks.zip xs, y.2.size = y.1.c.size) : prob.Fits xs := by
  refine List.forall₂_iff_zip.mpr ⟨hlen.symm, fun {b x} hb => ?_⟩
  have h := hshape b (List.of_mem_zip hb).1
  have hx : x.size = q := (hsizes _ hb).trans h.c_size
  rw [hrhs, hx, h.d_size]
  exact h

end Fits

/-- A block drawn around the point `x`, which adds its share to a right-hand side. -/
structure Drawn (src : Random.Source γ F) (q p : Nat) (rhs : Array F) (b : QpBlock F)
    (x rhs' : Array F) : Prop where
  shape : HasShape rhs.size q p b
  square : ∃ root : Matrix F, root.shape = .general q q ∧
    b.q = scaledSquare (Scalar.recip (Scalar.ofNat (max q 1))) root
  hidden : ∃ g, (Random.Source.many src.normal q g).1 = x
  bounds : ∃ g, b.f.mulAdd? 1 x 1 (Random.Source.many src.uniform p g).1 = some b.d
  share : b.g.mulAdd? 1 x 1 rhs = some rhs'

/-- Blocks drawn one after the other, each adding to the right-hand side that it finds. -/
inductive DrawnAll (src : Random.Source γ F) (q p : Nat) :
    Array F → List (QpBlock F) → List (Array F) → Array F → Prop where
  | nil (rhs : Array F) : DrawnAll src q p rhs [] [] rhs
  | cons {rhs rhs' rhs'' : Array F} {b : QpBlock F} {x : Array F} {bs : List (QpBlock F)}
      {xs : List (Array F)} (head : Drawn src q p rhs b x rhs')
      (tail : DrawnAll src q p rhs' bs xs rhs'') :
      DrawnAll src q p rhs (b :: bs) (x :: xs) rhs''

section Drawn

variable {src : Random.Source γ F} {q p : Nat} {rhs rhs' x : Array F} {b : QpBlock F}
  {bs : List (QpBlock F)} {xs : List (Array F)}

theorem shape_drawMatrix (src : Random.Source γ F) (rows cols : Nat) (g : γ) :
    (drawMatrix src rows cols g).1.shape = .general rows cols := rfl

theorem drawBlock?_spec (src : Random.Source γ F) (q p : Nat) (rhs : Array F) (g : γ) :
    ∃ b x rhs' g', drawBlock? src q p rhs g = some (b, rhs', g') ∧
      Drawn src q p rhs b x rhs' := by
  -- the draws in their order, each from the state that the one before has left
  let root := drawMatrix src q q g
  let c := Random.Source.many src.normal q root.2
  let f := drawMatrix src p q c.2
  let x := Random.Source.many src.normal q f.2
  let slack := Random.Source.many src.uniform p x.2
  let m := drawMatrix src rhs.size q slack.2
  obtain ⟨d, hd, hdsize⟩ := Matrix.mulAdd?_eq_some (shape_drawMatrix src p q c.2)
    (Random.Source.size_many q f.2 : x.1.size = q)
    (Random.Source.size_many p x.2 : slack.1.size = p) 1 1
  obtain ⟨rhs', hrhs, -⟩ := Matrix.mulAdd?_eq_some (shape_drawMatrix src rhs.size q slack.2)
    (Random.Source.size_many q f.2 : x.1.size = q) (rfl : rhs.size = rhs.size) 1 1
  refine ⟨⟨scaledSquare (Scalar.recip (Scalar.ofNat (max q 1))) root.1, c.1, f.1, d, m.1⟩, x.1,
    rhs', m.2, ?_, ?_⟩
  · show (f.1.mulAdd? 1 x.1 1 slack.1 >>= fun d => m.1.mulAdd? 1 x.1 1 rhs >>= fun rhs =>
      pure (_, rhs, m.2)) = _
    rw [hd, Option.bind_eq_bind, Option.bind_some, hrhs]
    rfl
  · exact {
      shape := ⟨rfl, Random.Source.size_many q root.2, rfl, hdsize, rfl⟩
      square := ⟨root.1, rfl, rfl⟩
      hidden := ⟨f.2, rfl⟩
      bounds := ⟨x.2, hd⟩
      share := hrhs }

theorem drawBlocks?_spec (src : Random.Source γ F) (q p n : Nat) (done : List (QpBlock F))
    (rhs : Array F) (g : γ) :
    ∃ bs xs rhs' g', drawBlocks? src q p n done rhs g = some (done.reverse ++ bs, rhs', g') ∧
      bs.length = n ∧ DrawnAll src q p rhs bs xs rhs' := by
  -- each block adds to the right-hand side of those before, so this one varies too
  induction n generalizing done rhs g with
  | zero => exact ⟨[], [], rhs, g, by simp [drawBlocks?], rfl, .nil rhs⟩
  | succ n ih =>
    obtain ⟨b, x, rhs₁, g₁, hb, hdrawn⟩ := drawBlock?_spec src q p rhs g
    obtain ⟨bs, xs, rhs', g', hbs, hlen, hall⟩ := ih (b :: done) rhs₁ g₁
    exact ⟨b :: bs, x :: xs, rhs', g', by simp [drawBlocks?, hb, hbs], by simp [hlen],
      .cons hdrawn hall⟩

theorem Drawn.size_hidden (h : Drawn src q p rhs b x rhs') : x.size = q := by
  obtain ⟨g, rfl⟩ := h.hidden
  exact Random.Source.size_many q g

theorem Drawn.size_rhs (h : Drawn src q p rhs b x rhs') : rhs'.size = rhs.size := by
  obtain ⟨z, hz, hsize⟩ :=
    Matrix.mulAdd?_eq_some h.shape.g_shape h.size_hidden (rfl : rhs.size = _) 1 1
  obtain rfl := Option.some.inj (hz.symm.trans h.share)
  exact hsize

theorem DrawnAll.size_rhs (h : DrawnAll src q p rhs bs xs rhs') : rhs'.size = rhs.size := by
  induction h with
  | nil rhs => rfl
  | cons head tail ih => exact ih.trans head.size_rhs

theorem DrawnAll.forall₂ (h : DrawnAll src q p rhs bs xs rhs') :
    List.Forall₂ (fun b x => ∃ r r', r.size = rhs.size ∧ Drawn src q p r b x r') bs xs := by
  induction h with
  | nil rhs => exact .nil
  | cons head tail ih =>
    rw [head.size_rhs] at ih
    exact .cons ⟨_, _, rfl, head⟩ ih

theorem DrawnAll.forall_blocks {P : QpBlock F → Prop} (h : DrawnAll src q p rhs bs xs rhs')
    (hP : ∀ b x r r', r.size = rhs.size → Drawn src q p r b x r' → P b) : ∀ b ∈ bs, P b :=
  ((List.forall₂_and_left _ _).mp (h.forall₂.imp fun b x ⟨r, r', hr, hdrawn⟩ =>
    ⟨hP b x r r' hr hdrawn, (⟨r, r', hdrawn⟩ : ∃ r r', Drawn src q p r b x r')⟩)).1

theorem DrawnAll.hasShape (h : DrawnAll src q p rhs bs xs rhs') :
    ∀ b ∈ bs, HasShape rhs.size q p b :=
  h.forall_blocks fun _ _ _ _ hr hdrawn => hr ▸ hdrawn.shape

end Drawn

theorem generate_eq {src : Random.Source γ F} {n s q p : Nat} {bs : List (QpBlock F)}
    {rhs : Array F} {w : World γ F} {g : γ}
    (h : drawBlocks? src q p n [] (Vec.zeros s) w.state = some (bs, rhs, g)) :
    (generate src n s q p : Run γ F ε (CoupledQp F)) w =
      if HasRoom n s q p then .ok ⟨bs, rhs⟩ ((w.withState g).note (.generatedQp n s q p))
      else .error .misuse w := by
  unfold generate
  rw [Run.bind_apply]
  by_cases hroom : HasRoom n s q p
  · simp only [Run.require, if_pos hroom]
    show (Run.demand (drawBlocks? src q p n [] (Vec.zeros s) w.state) >>= _) w = _
    rw [h]
    rfl
  · simp only [Run.require, if_neg hroom]

/-! ## Backends -/

section Backends

variable {q p : Nat} {rhs : Array F} {b : QpBlock F} {bs : List (QpBlock F)}
  {make : φ → (Qp.Backend β F × β) × φ}

theorem HasShape.exists_quadratic {s : Nat} (h : HasShape s q p b) :
    ∃ f, quadratic? b = some f ∧ f.dim = q := by
  have hrows : b.f.rows = p := congrArg Shape.rows h.f_shape
  have hcols : b.f.cols = q := congrArg Shape.cols h.f_shape
  have hc : b.f.cols = b.c.size := hcols.trans h.c_size.symm
  exact ⟨_, if_pos ⟨hc, hc, hrows.trans h.d_size.symm, hc⟩, h.c_size⟩

/-- What a maker makes in its next call after `l` others. -/
def made (make : φ → (Qp.Backend β F × β) × φ) (state : φ) (l : Nat) : Qp.Backend β F × β :=
  (make ((fun s => (make s).2)^[l] state)).1

theorem equip?_eq {fs : List (Quadratic F)} (hfs : bs.mapM quadratic? = some fs) (state : φ) :
    equip? make bs state = some (fs.mapIdx fun l f => (f, made make state l),
      (fun s => (make s).2)^[bs.length] state) := by
  induction bs generalizing fs state with
  | nil =>
    cases hfs
    rfl
  | cons b bs ih =>
    rw [List.mapM_cons] at hfs
    obtain ⟨f, hf, hfs⟩ := Option.bind_eq_some_iff.mp hfs
    obtain ⟨gs, hgs, hfs⟩ := Option.bind_eq_some_iff.mp hfs
    cases hfs
    simp only [equip?, hf, ih hgs, Option.bind_eq_bind, Option.bind_some, List.mapIdx_cons]
    rfl

theorem equip?_constant (m : Qp.Backend β F × β) (bs : List (QpBlock F)) (state : φ) :
    equip? (fun s => (m, s)) bs state =
      (bs.mapM quadratic?).map fun fs => (fs.map fun f => (f, m), state) := by
  induction bs with
  | nil => rfl
  | cons b bs ih =>
    rw [List.mapM_cons, equip?]
    simp only [ih]
    cases quadratic? b <;> cases bs.mapM quadratic? <;> rfl

theorem equipped_eq_ok {prob : CoupledQp F} {u w : World φ F}
    {r : Problem (Array (Quadratic.Scratch F × β)) F × Array (Quadratic.Scratch F × β)} :
    prob.equipped make u = .ok r w ↔ ∃ fs state,
      equip? make prob.blocks u.state = some (fs, state) ∧ r.1.shapeDefect? = none ∧
        r = (⟨fs.mapIdx fun l x => (x.1.prox x.2.1).slot l,
          prob.blocks.map fun b => .ofMatrix b.g, prob.rhs⟩,
          (fs.map fun x => (x.1.scratch, x.2.2)).toArray) ∧ w = u.withState state := by
  unfold equipped Problem.checked
  simp only [Run.bind_eq_ok, Run.get_eq_ok, Run.modify_eq_ok, Run.demand_eq_ok, Run.check_eq_ok,
    Run.pure_eq_ok]
  constructor
  · rintro ⟨_, _, ⟨rfl, rfl⟩, ⟨fs, state⟩, _, ⟨hfs, rfl⟩, -, _, rfl, _, _, ⟨-, _, ⟨hdefect, rfl⟩,
      rfl, rfl⟩, rfl, rfl⟩
    exact ⟨fs, state, hfs, hdefect, rfl, rfl⟩
  · rintro ⟨fs, state, hfs, hdefect, rfl, rfl⟩
    exact ⟨u, u, ⟨rfl, rfl⟩, (fs, state), u, ⟨hfs, rfl⟩, (), _, rfl, _, _,
      ⟨(), _, ⟨hdefect, rfl⟩, rfl, rfl⟩, rfl, rfl⟩

theorem equipped_constant_eq_ok {prob : CoupledQp F} {m : Qp.Backend β F × β} {u w : World φ F}
    {r : Problem (Array (Quadratic.Scratch F × β)) F × Array (Quadratic.Scratch F × β)} :
    prob.equipped (fun s => (m, s)) u = .ok r w ↔
      prob.problem m.1 u = .ok r.1 w ∧ r.2 = prob.states m.2 := by
  have hproxes (fs : List (Quadratic F)) :
      (fs.map fun f => (f, m)).mapIdx (fun l x => (x.1.prox x.2.1).slot l) =
        fs.mapIdx fun l f => (f.prox m.1).slot l :=
    List.ext_getElem (by simp) fun i _ _ => by simp
  rw [equipped_eq_ok, problem_eq_ok]
  simp only [equip?_constant, Option.map_eq_some_iff]
  constructor
  · rintro ⟨_, _, ⟨fs, hfs, hpair⟩, hdefect, rfl, rfl⟩
    cases hpair
    refine ⟨⟨hdefect, rfl, fs, hfs, by rw [hproxes]⟩, ?_⟩
    rw [states, states_eq hfs, List.map_map]
    rfl
  · rintro ⟨⟨hdefect, rfl, fs, hfs, hparts⟩, hstates⟩
    refine ⟨_, _, ⟨fs, hfs, rfl⟩, hdefect, Prod.ext (by rw [hproxes, hparts]) ?_, rfl⟩
    rw [hstates, states, states_eq hfs, List.map_map]
    rfl

theorem shapeDefect?_of_hasShape {fs : List (Quadratic F)} (hne : bs ≠ [])
    (hshape : ∀ b ∈ bs, HasShape rhs.size q p b) (hfs : bs.mapM quadratic? = some fs)
    (backend : Nat → Qp.Backend β F) :
    (⟨fs.mapIdx fun l f => (f.prox (backend l)).slot l, bs.map fun b => .ofMatrix b.g, rhs⟩ :
      Problem (Array (Quadratic.Scratch F × β)) F).shapeDefect? = none := by
  obtain ⟨hlen, hdim⟩ : fs.length = bs.length ∧ ∀ f ∈ fs, f.dim = q := by
    obtain ⟨gs, hgs, hlen, hdim⟩ := mapM_total fun b hb => (hshape b hb).exists_quadratic
    obtain rfl := Option.some.inj (hfs.symm.trans hgs)
    exact ⟨hlen, hdim⟩
  refine Problem.shapeDefect?_eq_none.mpr ⟨?_, Or.inl (by simp [hlen]), fun o g hmem => ?_⟩
  · intro hnil
    rw [List.mapIdx_eq_nil_iff] at hnil
    rw [hnil] at hlen
    exact hne (List.length_eq_zero_iff.mp hlen.symm)
  · obtain ⟨ho, hg⟩ := List.of_mem_zip hmem
    obtain ⟨l, hl, rfl⟩ := List.mem_mapIdx.mp ho
    obtain ⟨b, hb, rfl⟩ := List.mem_map.mp hg
    have hgshape := (hshape b hb).g_shape
    exact ⟨(congrArg Shape.cols hgshape).trans (hdim _ (List.getElem_mem hl)).symm,
      congrArg Shape.rows hgshape⟩

theorem equipped_eq {prob : CoupledQp F} {fs : List (Quadratic F)} (hne : prob.blocks ≠ [])
    (hshape : ∀ b ∈ prob.blocks, HasShape prob.rhs.size q p b)
    (hfs : prob.blocks.mapM quadratic? = some fs) (make : φ → (Qp.Backend β F × β) × φ)
    (u : World φ F) :
    prob.equipped make u = .ok
      (⟨fs.mapIdx fun l f => (f.prox (made make u.state l).1).slot l,
        prob.blocks.map fun b => .ofMatrix b.g, prob.rhs⟩,
      (fs.mapIdx fun l f => (f.scratch, (made make u.state l).2)).toArray)
      (u.withState ((fun s => (make s).2)^[prob.blocks.length] u.state)) := by
  have hdefect := shapeDefect?_of_hasShape hne hshape hfs fun l => (made make u.state l).1
  refine equipped_eq_ok.mpr ⟨_, _, equip?_eq hfs u.state, hdefect, ?_, rfl⟩
  congr 1
  · rw [List.mapIdx_mapIdx]
    rfl
  · exact congrArg List.toArray (List.ext_getElem (by simp) fun i _ _ => by simp)

end Backends

end CoupledQp

end Splitting
