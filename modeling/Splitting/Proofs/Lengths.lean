import Splitting.Proofs.Blocks
import Splitting.Proofs.Course

/-!
# Lengths

Kernels answer whenever their vectors fit. From there up to a whole iteration: operators that take
the vectors of their size never make a run panic.
-/

namespace Splitting

variable {σ F : Type}

/-! ## What operators owe -/

/-- The operator takes all vectors of its size, and answers with one of the other size. -/
structure Operator.Sound (g : Operator F) : Prop where
  apply : ∀ alpha x beta y, x.size = g.cols → y.size = g.rows →
    ∃ z, g.apply alpha x beta y = some z ∧ z.size = g.rows
  applyTransposed : ∀ alpha x beta y, x.size = g.rows → y.size = g.cols →
    ∃ z, g.applyTransposed alpha x beta y = some z ∧ z.size = g.cols

/-- With step size `t` the operator does not panic on a point of its dimension, and answers with
such a point. -/
structure Prox.Sound (q : Prox σ F) (t : F) : Prop where
  ne_misuse : ∀ v w w', v.size = q.dim → q.eval t v w ≠ .error .misuse w'
  size : ∀ v w x w', v.size = q.dim → q.eval t v w = .ok x w' → x.size = q.dim

namespace Projection

/-- Operators with the dimensions of their blocks, all with `m` rows. -/
def PartsFit (parts : List (Operator F × Nat)) (m : Nat) : Prop :=
  ∀ g n, (g, n) ∈ parts → g.Sound ∧ g.cols = n ∧ g.rows = m

theorem PartsFit.tail {part : Operator F × Nat} {parts : List (Operator F × Nat)} {m : Nat}
    (h : PartsFit (part :: parts) m) : PartsFit parts m :=
  fun g n hg => h g n (List.mem_cons_of_mem part hg)

end Projection

namespace Anderson

def Sample.Sized (a : Sample F) (n : Nat) : Prop := a.image.size = n ∧ a.residual.size = n

structure State.Sized (s : State F) (n : Nat) : Prop where
  last : ∀ a, s.last = some a → a.Sized n
  memory : ∀ d ∈ s.memory, d.Sized n
  pending : ∀ z, s.pending = some z → z.size = n

theorem initial_sized (n : Nat) : (State.initial : State F).Sized n :=
  ⟨by simp [State.initial], by simp [State.initial], by simp [State.initial]⟩

theorem forall_remember {P : Sample F → Prop} {size : Nat} {d : Sample F}
    {memory : List (Sample F)} (hd : P d) (hm : ∀ e ∈ memory, P e) :
    ∀ e ∈ remember size d memory, P e := by
  intro e he
  unfold remember at he
  rcases List.mem_append.mp he with he | he
  · split at he
    · exact hm e (List.mem_of_mem_drop he)
    · exact hm e he
  · rw [List.mem_singleton.mp he]
    exact hd

end Anderson

variable [Scalar F]

/-! ## Kernels -/

namespace Vec

theorem addScaled?_total (a : F) {x y : Array F} (h : x.size = y.size) :
    ∃ z, addScaled? a x y = some z ∧ z.size = y.size := by
  obtain ⟨z, hz⟩ := Option.isSome_iff_exists.mp ((addScaled?_isSome_iff a x y).mpr h)
  exact ⟨z, hz, size_of_addScaled? hz⟩

theorem sub?_total {x y : Array F} (h : x.size = y.size) :
    ∃ z, sub? y x = some z ∧ z.size = y.size := addScaled?_total (-1) h

theorem sizes_of_sub? {x y z : Array F} (h : sub? y x = some z) :
    x.size = y.size ∧ z.size = y.size :=
  ⟨(addScaled?_isSome_iff (-1) x y).mp (Option.isSome_of_eq_some h), size_of_addScaled? h⟩

theorem dot?_total {x y : Array F} (h : x.size = y.size) : ∃ a, dot? x y = some a := by
  unfold dot?
  rw [if_pos h]
  exact ⟨_, rfl⟩

end Vec

theorem mapM_total {α β : Type} {f : α → Option β} {P : β → Prop} {l : List α}
    (h : ∀ a ∈ l, ∃ b, f a = some b ∧ P b) :
    ∃ bs, l.mapM f = some bs ∧ bs.length = l.length ∧ ∀ b ∈ bs, P b := by
  induction l with
  | nil => exact ⟨[], rfl, rfl, by simp⟩
  | cons a l ih =>
    obtain ⟨b, hb, hPb⟩ := h a (by simp)
    obtain ⟨bs, hbs, hlen, hall⟩ := ih fun a ha => h a (by simp [ha])
    refine ⟨b :: bs, by simp [hb, hbs], by simp [hlen], ?_⟩
    intro c hc
    rcases List.mem_cons.mp hc with rfl | hc
    · exact hPb
    · exact hall c hc

theorem Matrix.mulAdd?_total (m : Matrix F) (alpha beta : F) {x y : Array F}
    (hx : x.size = m.cols) (hy : y.size = m.rows) :
    ∃ z, m.mulAdd? alpha x beta y = some z ∧ z.size = m.rows := by
  unfold mulAdd?
  split
  · exact ⟨_, rfl, by simp [hy]⟩
  · rw [if_pos ⟨hx, hy⟩]
    exact ⟨_, rfl, by simp [hy]⟩

theorem Matrix.mulAddTransposed?_total (m : Matrix F) (alpha beta : F) {x y : Array F}
    (hx : x.size = m.rows) (hy : y.size = m.cols) :
    ∃ z, m.mulAddTransposed? alpha x beta y = some z ∧ z.size = m.cols := by
  unfold mulAddTransposed?
  split
  · exact ⟨_, rfl, by simp [hy]⟩
  · rw [if_pos ⟨hx, hy⟩]
    exact ⟨_, rfl, by simp [hy]⟩

/-! ## Operators -/

theorem Operator.sound_scaledIdentity (n : Nat) (factor : F) :
    (scaledIdentity n factor).Sound := by
  have h : ∀ (alpha : F) (x : Array F) (beta : F) (y : Array F), x.size = n → y.size = n →
      ∃ z, (scaledIdentity n factor).apply alpha x beta y = some z ∧ z.size = n := by
    intro alpha x beta y hx hy
    have hxy : x.size = (Vec.scale beta y).size := by rw [Vec.size_scale, hx, hy]
    obtain ⟨z, hz, hs⟩ := Vec.addScaled?_total (alpha * factor) hxy
    exact ⟨z, hz, by rw [hs, Vec.size_scale, hy]⟩
  exact ⟨h, h⟩

theorem Operator.sound_ofMatrix (m : Matrix F) : (ofMatrix m).Sound :=
  ⟨fun alpha _ beta _ hx hy => m.mulAdd?_total alpha beta hx hy,
    fun alpha _ beta _ hx hy => m.mulAddTransposed?_total alpha beta hx hy⟩

/-! ## The projection -/

namespace Projection

theorem addGram?_total {parts : List (Operator F × Nat)} {m : Nat} (h : PartsFit parts m)
    {e y : Array F} (he : e.size = m) (hy : y.size = m) :
    ∃ z, addGram? e parts y = some z ∧ z.size = m := by
  induction parts generalizing y with
  | nil => exact ⟨y, rfl, hy⟩
  | cons part parts ih =>
    obtain ⟨g, n⟩ := part
    obtain ⟨hg, rfl, rfl⟩ := h g n (by simp)
    obtain ⟨a, ha, hsa⟩ := hg.applyTransposed 1 e 0 (Vec.zeros g.cols) he (by simp)
    obtain ⟨b, hb, hsb⟩ := hg.apply 1 a 1 y hsa hy
    obtain ⟨z, hz, hs⟩ := ih h.tail hsb
    exact ⟨z, by simp [addGram?, ha, hb, hz], hs⟩

theorem gramColumns?_total {parts : List (Operator F × Nat)} {m : Nat} (h : PartsFit parts m)
    (left c : Nat) {l : Array F} (hl : l.size = m) {cols : Array (Array F)}
    (hc : ∀ a ∈ cols, a.size = m) :
    ∃ z, gramColumns? parts m left c l cols = some z ∧ z.size = cols.size + left ∧
      ∀ a ∈ z, a.size = m := by
  induction left generalizing c l cols with
  | zero => exact ⟨cols, rfl, rfl, hc⟩
  | succ left ih =>
    obtain ⟨col, hcol, hs⟩ := addGram?_total h (e := unit m c) (y := Vec.scale 0 l)
      (by simp [unit]) (by simp [hl])
    have hpush : ∀ a ∈ cols.push col, a.size = m := by
      intro a ha
      rcases Array.mem_push.mp ha with ha | rfl
      · exact hc a ha
      · exact hs
    obtain ⟨z, hz, hsize, hall⟩ := ih (c + 1) hs hpush
    refine ⟨z, by simp [gramColumns?, hcol, hz], ?_, hall⟩
    rw [hsize, Array.size_push]
    omega

theorem gram?_total {parts : List (Operator F × Nat)} {m : Nat} (h : PartsFit parts m) :
    ∃ gram, gram? parts m = some gram ∧ gram.shape = .packed m := by
  obtain ⟨cols, hc, -⟩ := gramColumns?_total h m 0 (Vec.size_zeros m)
    fun a ha => absurd ha (Array.not_mem_empty a)
  refine ⟨Matrix.ofFn (.packed m) fun r c => (cols.getD c #[]).getD r 0, ?_, rfl⟩
  rw [gram?, hc]
  rfl

theorem addCoupled?_total {parts : List (Operator F × Nat)} {m : Nat} (h : PartsFit parts m)
    {x y : Array F} {k : Nat} (hx : k + total (parts.map Prod.snd) ≤ x.size)
    (hy : y.size = m) : ∃ z, addCoupled? x parts k y = some z ∧ z.size = m := by
  induction parts generalizing k y with
  | nil => exact ⟨y, rfl, hy⟩
  | cons part parts ih =>
    obtain ⟨g, n⟩ := part
    obtain ⟨hg, rfl, rfl⟩ := h g n (by simp)
    simp only [List.map_cons, total_cons] at hx
    obtain ⟨a, ha, hsa⟩ := hg.apply 1 (x.extract k (k + g.cols)) 1 y
      (by simp; omega) hy
    obtain ⟨z, hz, hs⟩ := ih h.tail (k := k + g.cols) (by omega) hsa
    exact ⟨z, by simp [addCoupled?, ha, hz], hs⟩

theorem subTransposed?_total {parts : List (Operator F × Nat)} {m : Nat} (h : PartsFit parts m)
    {w y : Array F} {k : Nat} (hw : w.size = m)
    (hy : k + total (parts.map Prod.snd) ≤ y.size) (out : Array F) :
    ∃ z, subTransposed? w y parts k out = some z ∧
      z.size = out.size + total (parts.map Prod.snd) := by
  induction parts generalizing k out with
  | nil => exact ⟨out, rfl, by simp⟩
  | cons part parts ih =>
    obtain ⟨g, n⟩ := part
    obtain ⟨hg, rfl, rfl⟩ := h g n (by simp)
    simp only [List.map_cons, total_cons] at hy ⊢
    obtain ⟨a, ha, hsa⟩ := hg.applyTransposed (-1) w 1 (y.extract k (k + g.cols))
      hw (by simp; omega)
    obtain ⟨z, hz, hs⟩ := ih h.tail (k := k + g.cols) (by omega) (out ++ a)
    exact ⟨z, by simp [subTransposed?, ha, hz], by rw [hs, Array.size_append, hsa]; omega⟩

/-- A projection for blocks of `n` entries in all. -/
structure Fits (p : Projection F) (n : Nat) : Prop where
  parts : PartsFit p.parts p.rhs.size
  total : p.active = true → total (p.parts.map Prod.snd) = n
  shape : p.pinv.shape = .packed p.rhs.size

def Scratch.Sized (s : Scratch F) (m : Nat) : Prop := s.gap.size = m ∧ s.multiplier.size = m

theorem fresh_sized (p : Projection F) : p.fresh.Sized p.rhs.size := by
  simp [fresh, Scratch.Sized]

theorem correct?_total {p : Projection F} {n : Nat} (h : p.Fits n) (ha : p.active = true)
    {gap multiplier y : Array F} (hg : gap.size = p.rhs.size)
    (hm : multiplier.size = p.rhs.size) (hy : y.size = n) :
    ∃ z s, p.correct? gap multiplier y = some (z, s) ∧ z.size = n ∧ s.Sized p.rhs.size := by
  have hrows : p.pinv.rows = p.rhs.size := congrArg Shape.rows h.shape
  have hcols : p.pinv.cols = p.rhs.size := congrArg Shape.cols h.shape
  obtain ⟨a, ha', hsa⟩ := p.pinv.mulAdd?_total 1 0 (x := gap) (y := multiplier)
    (by rw [hg, hcols]) (by rw [hm, hrows])
  obtain ⟨z, hz, hs⟩ := subTransposed?_total h.parts (w := a) (y := y) (k := 0)
    (by rw [hsa, hrows]) (by rw [h.total ha]; omega) #[]
  refine ⟨z, ⟨gap, a⟩, by simp [correct?, ha', hz], ?_, hg, by rw [hsa, hrows]⟩
  rw [hs, h.total ha]
  simp

theorem project?_total {p : Projection F} {n : Nat} (h : p.Fits n) {s : Scratch F}
    (hs : s.Sized p.rhs.size) {v : Array F} (hv : v.size = n) :
    ∃ z s', p.project? s v = some (z, s') ∧ z.size = n ∧ s'.Sized p.rhs.size := by
  unfold project?
  split
  · rename_i ha
    obtain ⟨gap, hg, hsg⟩ := addCoupled?_total h.parts (x := v) (k := 0)
      (y := Vec.scale (-1) p.rhs) (by rw [h.total ha]; omega) (by simp)
    obtain ⟨z, s', hc, hz, hs'⟩ := correct?_total h ha hsg hs.2 hv
    exact ⟨z, s', by simp [gap?, hg, hc], hz, hs'⟩
  · exact ⟨v, s, rfl, hv, hs⟩

theorem residual?_total {p : Projection F} {n : Nat} (h : p.Fits n) {s : Scratch F}
    (hs : s.Sized p.rhs.size) {x : Array F} (hx : x.size = n) :
    ∃ r s', p.residual? s x = some (r, s') ∧ s'.Sized p.rhs.size := by
  unfold residual?
  split
  · rename_i ha
    obtain ⟨gap, hg, hsg⟩ := addCoupled?_total h.parts (x := x) (k := 0)
      (y := Vec.scale (-1) p.rhs) (by rw [h.total ha]; omega) (by simp)
    exact ⟨Vec.norm gap, { s with gap }, by simp [gap?, hg], hsg, hs.2⟩
  · exact ⟨0, s, rfl, hs⟩

theorem rangeResidual?_total {p : Projection F} {n : Nat} (h : p.Fits n) {s : Scratch F}
    (hs : s.Sized p.rhs.size) {g : Array F} (hg : g.size = n) :
    ∃ r s', p.rangeResidual? s g = some (r, s') ∧ s'.Sized p.rhs.size := by
  unfold rangeResidual?
  split
  · rename_i ha
    obtain ⟨gap, hgap, hsg⟩ := addCoupled?_total h.parts (x := g) (k := 0)
      (y := Vec.scale 0 s.gap) (by rw [h.total ha]; omega) (by simp [hs.1])
    obtain ⟨z, s', hc, -, hs'⟩ := correct?_total h ha hsg hs.2 hg
    exact ⟨Vec.norm z, s', by simp [hgap, hc], hs'⟩
  · exact ⟨Vec.norm g, s, rfl, hs⟩

end Projection

theorem Solver.measure?_total {p : Projection F} {n : Nat} (h : p.Fits n) (rho : F)
    {s : Projection.Scratch F} (hs : s.Sized p.rhs.size) {v x : Array F} (hv : v.size = n)
    (hx : x.size = n) :
    ∃ m, measure? p rho s v x = some m ∧ m.scratch.Sized p.rhs.size := by
  obtain ⟨r, hr, hsr⟩ := Vec.sub?_total (x := v) (y := Vec.scale Scalar.two x) (by simp [hv, hx])
  obtain ⟨y, s₁, hy, hsy, hs₁⟩ := Projection.project?_total h hs (v := r) (by simp [hsr, hx])
  obtain ⟨g, hg, hsg⟩ := Vec.sub?_total (x := y) (y := x) (by rw [hsy, hx])
  obtain ⟨f, hf, -⟩ := Vec.sub?_total (x := g) (y := v) (by rw [hsg, hx, hv])
  obtain ⟨a, s₂, ha, hs₂⟩ := Projection.residual?_total h hs₁ hx
  obtain ⟨l, hl, hsl⟩ := Vec.sub?_total (x := x) (y := v) (by rw [hx, hv])
  obtain ⟨b, s₃, hb, hs₃⟩ := Projection.rangeResidual?_total h hs₂
    (g := Vec.scale (Scalar.recip rho) l) (by simp [hsl, hv])
  exact ⟨⟨f, g, a, b, s₃⟩, by simp [measure?, hr, hy, hg, hf, ha, hl, hb], hs₃⟩

theorem Solver.sizes_of_measure? {p : Projection F} {rho : F} {s : Projection.Scratch F}
    {v x : Array F} {m : Measure F} (h : measure? p rho s v x = some m) :
    m.image.size = v.size ∧ m.residual.size = v.size := by
  simp only [measure?, Option.bind_eq_bind, Option.bind_eq_some_iff] at h
  obtain ⟨r, -, ⟨y, s₁⟩, -, g, hg, f, hf, ⟨a, s₂⟩, -, l, -, ⟨b, s₃⟩, -, hm⟩ := h
  cases hm
  exact ⟨(Vec.sizes_of_sub? hf).2, (Vec.sizes_of_sub? hf).1⟩

theorem Solver.residuals_of_measure? {p : Projection F} {rho : F} {s : Projection.Scratch F}
    {v x : Array F} {m : Measure F} (h : measure? p rho s v x = some m) :
    ∃ s₁ s₂ slope s₃, p.residual? s₁ x = some (m.primal, s₂) ∧ Vec.sub? v x = some slope ∧
      p.rangeResidual? s₂ (Vec.scale (Scalar.recip rho) slope) = some (m.dual, s₃) := by
  simp only [measure?, Option.bind_eq_bind, Option.bind_eq_some_iff] at h
  obtain ⟨r, -, ⟨y, s₁⟩, -, g, -, f, -, ⟨a, s₂⟩, ha, l, hl, ⟨b, s₃⟩, hb, hm⟩ := h
  cases hm
  exact ⟨s₁, s₂, l, s₃, ha, hl, hb⟩

/-! ## The acceleration -/

namespace Anderson

theorem judge_sized {s : State F} {n : Nat} (h : s.Sized n) (norm : F) :
    (judge norm s).2.Sized n ∧ ∀ z, (judge norm s).1 = some z → z.size = n := by
  unfold judge
  dsimp only
  split
  · exact ⟨⟨h.last, h.memory, h.pending⟩, by simp⟩
  · rename_i safe hs
    split
    · exact ⟨⟨h.last, h.memory, by simp⟩, by simp⟩
    · refine ⟨⟨by simp, by simp, by simp⟩, ?_⟩
      rintro z ⟨⟩
      exact h.pending safe hs

theorem Sample.sub?_total {a b : Sample F} {n : Nat} (ha : a.Sized n) (hb : b.Sized n) :
    ∃ d, a.sub? b = some d ∧ d.Sized n := by
  obtain ⟨r, hr, hsr⟩ := Vec.sub?_total (x := b.residual) (y := a.residual) (by rw [ha.2, hb.2])
  obtain ⟨f, hf, hsf⟩ := Vec.sub?_total (x := b.image) (y := a.image) (by rw [ha.1, hb.1])
  exact ⟨⟨f, r⟩, by simp [sub?, hr, hf], by rw [hsf, ha.1], by rw [hsr, ha.2]⟩

theorem State.grown?_total {s : State F} {n : Nat} (hs : s.Sized n) (size : Nat) {a : Sample F}
    (ha : a.Sized n) : ∃ memory, s.grown? size a = some memory ∧ ∀ d ∈ memory, d.Sized n := by
  unfold grown?
  split
  · exact ⟨s.memory, rfl, hs.memory⟩
  · rename_i b hb
    obtain ⟨d, hd, hsd⟩ := Sample.sub?_total ha (hs.last b hb)
    exact ⟨remember size d s.memory, by simp [hd], forall_remember hsd hs.memory⟩

theorem products?_total {x : Array F} {n : Nat} {memory : List (Sample F)} (hx : x.size = n)
    (hm : ∀ d ∈ memory, d.Sized n) :
    ∃ ps, products? x memory = some ps ∧ ps.size = memory.length := by
  obtain ⟨ps, hps, hlen, -⟩ := mapM_total (f := fun d => Vec.dot? d.residual x)
    (P := fun _ => True) (l := memory) fun d hd => by
      obtain ⟨a, ha⟩ := Vec.dot?_total (x := d.residual) (y := x) (by rw [(hm d hd).2, hx])
      exact ⟨a, ha, trivial⟩
  exact ⟨ps.toArray, by simp [products?, hps], by simp [hlen]⟩

theorem normalMatrix?_total (reg : F) {n : Nat} {memory : List (Sample F)}
    (hm : ∀ d ∈ memory, d.Sized n) :
    ∃ a, normalMatrix? reg memory = some a ∧ a.shape = .packed memory.length := by
  obtain ⟨cols, hc, -, -⟩ := mapM_total (f := fun d => products? d.residual memory)
    (P := fun _ => True) (l := memory) fun d hd => by
      obtain ⟨ps, hps, -⟩ := products?_total (hm d hd).2 hm
      exact ⟨ps, hps, trivial⟩
  refine ⟨Matrix.ofFn (.packed memory.length) fun r c =>
    if r = c then (cols.toArray.getD c #[]).getD r 0 + reg
    else (cols.toArray.getD c #[]).getD r 0, ?_, rfl⟩
  rw [normalMatrix?, hc]
  rfl

theorem subCombined?_total (cs : List F) {ds : List (Sample F)} {n : Nat}
    (hd : ∀ d ∈ ds, d.Sized n) {y : Array F} (hy : y.size = n) :
    ∃ z, subCombined? cs ds y = some z ∧ z.size = n := by
  induction cs generalizing ds y with
  | nil => exact ⟨y, by simp [subCombined?], hy⟩
  | cons c cs ih =>
    cases ds with
    | nil => exact ⟨y, by simp [subCombined?], hy⟩
    | cons d ds =>
      obtain ⟨a, ha, hsa⟩ := Vec.addScaled?_total (-c) (x := d.image) (y := y)
        (by rw [(hd d (by simp)).1, hy])
      have hds : ∀ e ∈ ds, e.Sized n := fun e he => hd e (List.mem_cons_of_mem d he)
      obtain ⟨z, hz, hsz⟩ := ih hds (y := a) (by rw [hsa, hy])
      exact ⟨z, by simp [subCombined?, ha, hz], hsz⟩

variable [Spectral F]

theorem coefficients?_total (lambda epsZero : F) {n : Nat} {memory : List (Sample F)}
    (hm : ∀ d ∈ memory, d.Sized n) {g : Array F} (hg : g.size = n) :
    ∃ gamma, coefficients? lambda epsZero memory g = some gamma ∧ gamma.size = memory.length := by
  obtain ⟨a, ha, hshape⟩ := normalMatrix?_total (regularization lambda memory) hm
  obtain ⟨ps, hps, hlen⟩ := products?_total hg hm
  have hside : ∀ f, (Spectral.mapEig a epsZero f).rows = memory.length ∧
      (Spectral.mapEig a epsZero f).cols = memory.length := fun f => by
    simp [Matrix.rows, Matrix.cols, hshape, Shape.rows, Shape.cols]
  obtain ⟨z, hz, hsize⟩ := Matrix.mulAdd?_total (Spectral.mapEig a epsZero fun e =>
      cutoffRecip (epsZero * Scalar.maxNum a.trace 1) e) 1 0 (x := ps)
    (y := Vec.zeros memory.length) (by rw [hlen, (hside _).2]) (by rw [Vec.size_zeros, (hside _).1])
  exact ⟨z, by simp [coefficients?, ha, hps, hz], by rw [hsize, (hside _).1]⟩

theorem advance?_total {s : State F} {n : Nat} (hs : s.Sized n) (size : Nat) (lambda epsZero : F)
    {a : Sample F} (ha : a.Sized n) :
    ∃ v s', advance? size lambda epsZero a s = some (v, s') ∧ v.size = n ∧ s'.Sized n := by
  obtain ⟨memory, hg, hm⟩ := s.grown?_total hs size ha
  by_cases he : memory = []
  · refine ⟨a.image, { s with last := some a, memory }, by simp [advance?, hg, he], ha.1, ?_⟩
    exact ⟨by rintro b ⟨⟩; exact ha, hm, hs.pending⟩
  · obtain ⟨gamma, hgamma, -⟩ := coefficients?_total lambda epsZero hm ha.2
    obtain ⟨v, hv, hsv⟩ := subCombined?_total gamma.toList hm ha.1
    refine ⟨v, { s with last := some a, memory, pending := some a.image },
      by simp [advance?, hg, he, hgamma, hv], hsv, ?_⟩
    exact ⟨by rintro b ⟨⟩; exact ha, hm, by rintro z ⟨⟩; exact ha.1⟩

end Anderson

end Splitting
