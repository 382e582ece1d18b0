import Splitting.Proofs.Double.Finite
import Splitting.Proofs.Safety
import Splitting.Prox.AbsSum
import Splitting.Spectrum.Rotation

/-!
# Overflow

Every entry of the blocks enters the dual residual, so a finite residual has finite blocks behind
it. What an answer can hide an overflow behind is its tolerance: that is relative to the residuals
of the first iteration, and infinite if one of those is.
-/

namespace Splitting

open Double

variable {σ : Type}

/-! ## Kernels -/

/-- No entry is infinite, and none is not a number. -/
def AllFinite (x : Array Float) : Prop := ∀ e ∈ x, e.isFinite = true

instance (x : Array Float) : Decidable (AllFinite x) :=
  inferInstanceAs (Decidable (∀ e ∈ x, e.isFinite = true))

theorem allFinite_iff {x : Array Float} :
    AllFinite x ↔ ∀ i (h : i < x.size), (x[i]).isFinite = true := by
  unfold AllFinite
  constructor
  · exact fun h i hi => h _ (Array.getElem_mem hi)
  · intro h e he
    obtain ⟨i, hi, rfl⟩ := Array.mem_iff_getElem.mp he
    exact h i hi

theorem allFinite_append {x y : Array Float} : AllFinite (x ++ y) ↔ AllFinite x ∧ AllFinite y := by
  simp only [AllFinite, Array.mem_append]
  constructor
  · exact fun h => ⟨fun e he => h e (Or.inl he), fun e he => h e (Or.inr he)⟩
  · rintro ⟨hx, hy⟩ e (he | he)
    · exact hx e he
    · exact hy e he

theorem allFinite_stack {xs : List (Array Float)} :
    AllFinite (Solver.stack xs) ↔ ∀ x ∈ xs, AllFinite x := by
  induction xs with
  | nil => simp [AllFinite]
  | cons x xs ih => rw [Solver.stack_cons, allFinite_append, ih, List.forall_mem_cons]

namespace Vec

theorem isFinite_of_sumSquares {l : List Float} {s : Float}
    (h : (l.foldl (fun s e => s + e * e) s).isFinite = true) :
    s.isFinite = true ∧ ∀ e ∈ l, e.isFinite = true := by
  induction l generalizing s with
  | nil => exact ⟨h, fun e he => nomatch he⟩
  | cons e l ih =>
    obtain ⟨hsum, hl⟩ := ih h
    obtain ⟨hs, hsquare⟩ := isFinite_add hsum
    refine ⟨hs, fun d hd => ?_⟩
    rcases List.mem_cons.mp hd with rfl | hd
    · exact (isFinite_mul hsquare).1
    · exact hl d hd

theorem allFinite_of_norm {x : Array Float} (h : (norm x).isFinite = true) : AllFinite x := by
  intro e he
  have hsum := isFinite_sqrt h
  rw [← Array.foldl_toList] at hsum
  exact (isFinite_of_sumSquares hsum).2 e (Array.mem_def.mp he)

theorem allFinite_of_scale {a : Float} {x : Array Float} (h : AllFinite (scale a x)) :
    AllFinite x :=
  fun _ he => (isFinite_mul (h _ (Array.mem_map_of_mem he))).2

theorem allFinite_of_addScaled? {a : Float} {x y z : Array Float} (h : addScaled? a x y = some z)
    (hz : AllFinite z) : AllFinite x ∧ AllFinite y := by
  unfold addScaled? at h
  split at h
  · rename_i hsize
    cases h
    rw [allFinite_iff] at hz
    have hterm : ∀ i (hx : i < x.size) (hy : i < y.size), (y[i] + a * x[i]).isFinite = true :=
      fun i hx hy => by
        have := hz i (by simp; omega)
        rwa [Array.getElem_zipWith] at this
    refine ⟨allFinite_iff.mpr fun i hi => ?_, allFinite_iff.mpr fun i hi => ?_⟩
    · exact (isFinite_mul (isFinite_add (hterm i hi (by omega))).2).2
    · exact (isFinite_add (hterm i (by omega) hi)).1
  · cases h

end Vec

/-! ## Operators -/

/-- What the transpose subtracts from a vector leaves none of its overflows out. -/
def Operator.Accumulates (g : Operator Float) : Prop :=
  ∀ w y z, g.applyTransposed (-1) w 1 y = some z → AllFinite z → AllFinite y

theorem Operator.accumulates_scaledIdentity (n : Nat) (factor : Float) :
    (scaledIdentity n factor).Accumulates := fun _ _ _ h hz =>
  Vec.allFinite_of_scale (Vec.allFinite_of_addScaled? h hz).2

theorem Operator.accumulates_ofMatrix (m : Matrix Float) : (ofMatrix m).Accumulates := by
  intro w y z h hz
  change m.mulAddTransposed? (-1) w 1 y = some z at h
  unfold Matrix.mulAddTransposed? at h
  split at h
  · cases h
    exact Vec.allFinite_of_scale hz
  split at h
  · cases h
    rw [allFinite_iff] at hz ⊢
    intro i hi
    have := hz i (by simpa using hi)
    rw [Array.getElem_mapIdx] at this
    exact (isFinite_mul (isFinite_add this).2).2
  · cases h

/-! ## Residuals -/

namespace Projection

theorem allFinite_of_subTransposed? {parts : List (Operator Float × Nat)}
    (hadd : ∀ part ∈ parts, part.1.Accumulates) {w y done z : Array Float} {start : Nat}
    (h : subTransposed? w y parts start done = some z) (hz : AllFinite z) :
    AllFinite done ∧ AllFinite (y.extract start (start + total (parts.map Prod.snd))) := by
  -- the blocks that are done stay in front of the others
  induction parts generalizing start done with
  | nil =>
    cases h
    rw [List.map_nil, total_nil, Nat.add_zero, Array.extract_empty_of_stop_le_start (Nat.le_refl _)]
    exact ⟨hz, fun e he => absurd he (Array.not_mem_empty e)⟩
  | cons part parts ih =>
    obtain ⟨g, n⟩ := part
    simp only [subTransposed?, Option.bind_eq_bind, Option.bind_eq_some_iff] at h
    obtain ⟨block, hblock, h⟩ := h
    obtain ⟨hdone, hrest⟩ := ih (fun part hp => hadd part (List.mem_cons_of_mem _ hp)) h
    obtain ⟨hdone, hb⟩ := allFinite_append.mp hdone
    refine ⟨hdone, ?_⟩
    have hfirst := hadd (g, n) List.mem_cons_self _ _ _ hblock hb
    have hall := allFinite_append.mpr ⟨hfirst, hrest⟩
    rw [Array.extract_append_extract] at hall
    rwa [Nat.min_eq_left (by omega), Nat.max_eq_right (by omega), Nat.add_assoc] at hall

theorem allFinite_of_rangeResidual? {p : Projection Float}
    (hadd : ∀ part ∈ p.parts, part.1.Accumulates) {s s' : Scratch Float} {g : Array Float}
    {r : Float} (hsize : p.active = true → total (p.parts.map Prod.snd) = g.size)
    (h : p.rangeResidual? s g = some (r, s')) (hr : r.isFinite = true) : AllFinite g := by
  unfold rangeResidual? at h
  split at h
  · rename_i ha
    simp only [correct?, Option.bind_eq_bind, Option.bind_eq_some_iff] at h
    obtain ⟨gap, -, ⟨rest, t⟩, ⟨w, -, y, hsub, hrest⟩, h⟩ := h
    cases h
    cases hrest
    have := (allFinite_of_subTransposed? hadd hsub (Vec.allFinite_of_norm hr)).2
    rwa [hsize ha, Nat.zero_add, Array.extract_size] at this
  · cases h
    exact Vec.allFinite_of_norm hr

theorem isFinite_of_residual?_le {p : Projection Float} {s s' : Scratch Float} {x : Array Float}
    {r t : Float} (h : p.residual? s x = some (r, s')) (hle : r ≤ t) (ht : t.isInf = false) :
    r.isFinite = true := by
  unfold residual? at h
  split at h
  · simp only [Option.bind_eq_bind, Option.bind_eq_some_iff] at h
    obtain ⟨gap, -, h⟩ := h
    cases h
    exact isFinite_of_sqrt_le hle ht
  · cases h
    rfl

theorem isFinite_of_rangeResidual?_le {p : Projection Float} {s s' : Scratch Float}
    {g : Array Float} {r t : Float} (h : p.rangeResidual? s g = some (r, s')) (hle : r ≤ t)
    (ht : t.isInf = false) : r.isFinite = true := by
  unfold rangeResidual? at h
  split at h
  · simp only [Option.bind_eq_bind, Option.bind_eq_some_iff] at h
    obtain ⟨gap, -, rest, -, h⟩ := h
    cases h
    exact isFinite_of_sqrt_le hle ht
  · cases h
    exact isFinite_of_sqrt_le hle ht

end Projection

namespace Solver

theorem finite_of_measure? {p : Projection Float} {rho t₁ t₂ : Float}
    {s : Projection.Scratch Float} {v x : Array Float} {m : Measure Float}
    (hadd : ∀ part ∈ p.parts, part.1.Accumulates)
    (hsize : p.active = true → total (p.parts.map Prod.snd) = x.size)
    (h : measure? p rho s v x = some m) (h₁ : m.primal ≤ t₁) (ht₁ : t₁.isInf = false)
    (h₂ : m.dual ≤ t₂) (ht₂ : t₂.isInf = false) :
    m.primal.isFinite = true ∧ m.dual.isFinite = true ∧ AllFinite x := by
  obtain ⟨s₁, s₂, slope, s₃, hprimal, hslope, hdual⟩ := residuals_of_measure? h
  have hfinite := Projection.isFinite_of_rangeResidual?_le hdual h₂ ht₂
  obtain ⟨hlen, hlen'⟩ := Vec.sizes_of_sub? hslope
  have hscaled := Projection.allFinite_of_rangeResidual? hadd
    (fun ha => by rw [hsize ha, Vec.size_scale, hlen', hlen]) hdual hfinite
  refine ⟨Projection.isFinite_of_residual?_le hprimal h₁ ht₁, hfinite, ?_⟩
  exact (Vec.allFinite_of_addScaled? hslope (Vec.allFinite_of_scale hscaled)).1

end Solver

/-- Every entry of the blocks is finite, and so are the residuals of the last iteration. -/
structure Solution.IsFinite (a : Solution Float) : Prop where
  blocks : ∀ x ∈ a.blocks, AllFinite x
  primal : ∃ r, a.primal.back? = some r ∧ r.isFinite = true
  dual : ∃ r, a.dual.back? = some r ∧ r.isFinite = true

/-- The tolerances that an answer was held against, from the residuals of its first iteration. -/
structure Solution.Tolerances (par : Params Float) (a : Solution Float) (t₁ t₂ : Float) : Prop where
  primal : ∃ r, a.primal[0]? = some r ∧ t₁ = par.epsAbs + par.epsRel * r
  dual : ∃ r, a.dual[0]? = some r ∧ t₂ = par.epsAbs + par.epsRel * r

namespace Solver

variable [Spectral Float] {budget : Nat} {par : Params Float} {init : Option (List (Array Float))}
  {p : Problem σ Float} {w v : World σ Float} {a : Solution Float}

theorem isFinite_of_tolerances (hadd : ∀ g ∈ p.couplings, g.Accumulates)
    (h : solve budget par init p w = .ok (some a) v) :
    ∃ t₁ t₂, a.Tolerances par t₁ t₂ ∧ (t₁.isInf = false → t₂.isInf = false → a.IsFinite) := by
  obtain ⟨proj, m, hlast⟩ := exists_lastMeasure h
  obtain ⟨s, z, hm⟩ := hlast.measured
  obtain ⟨r₁, hfirst₁, hle₁⟩ := hlast.primal_le
  obtain ⟨r₂, hfirst₂, hle₂⟩ := hlast.dual_le
  obtain ⟨hparts, hrhs⟩ := Projection.parts_of_ofCouplings? hlast.projection
  refine ⟨_, _, ⟨⟨r₁, hfirst₁, rfl⟩, ⟨r₂, hfirst₂, rfl⟩⟩, fun ht₁ ht₂ => ?_⟩
  have hsize : proj.active = true → total (proj.parts.map Prod.snd) = (stack a.blocks).size := by
    intro ha
    have hne : p.rhs.size ≠ 0 := by
      simp only [Projection.active, Bool.and_eq_true, decide_eq_true_eq, hrhs] at ha
      omega
    rw [hparts, Problem.dims_of_parts hlast.shapes hne, size_stack, hlast.sizes]
  have hadd : ∀ part ∈ proj.parts, part.1.Accumulates := fun part hpart =>
    hadd _ (List.of_mem_zip (hparts ▸ hpart)).1
  obtain ⟨hprimal, hdual, hfinite⟩ := finite_of_measure? hadd hsize hm hle₁ ht₁ hle₂ ht₂
  exact ⟨allFinite_stack.mp hfinite, ⟨_, hlast.primal, hprimal⟩, ⟨_, hlast.dual, hdual⟩⟩

/-- An answer is finite unless one of its tolerances is infinite, and without a relative tolerance
none is. -/
theorem solution_finite_or_tolerance_infinite (hadd : ∀ g ∈ p.couplings, g.Accumulates)
    (h : solve budget par init p w = .ok (some a) v) :
    (∃ t₁ t₂, a.Tolerances par t₁ t₂ ∧ (a.IsFinite ∨ t₁.isInf = true ∨ t₂.isInf = true)) ∧
      ((par.epsRel == 0) = true → par.epsAbs.isInf = false → a.IsFinite) := by
  obtain ⟨t₁, t₂, htol, hfinite⟩ := isFinite_of_tolerances hadd h
  refine ⟨⟨t₁, t₂, htol, ?_⟩, fun hrel habs => ?_⟩
  · by_cases h₁ : t₁.isInf = true
    · exact Or.inr (Or.inl h₁)
    by_cases h₂ : t₂.isInf = true
    · exact Or.inr (Or.inr h₂)
    exact Or.inl (hfinite (Bool.eq_false_iff.mpr h₁) (Bool.eq_false_iff.mpr h₂))
  · obtain ⟨⟨r₁, -, rfl⟩, ⟨r₂, -, rfl⟩⟩ := htol
    exact hfinite (isInf_add_zero_mul r₁ hrel habs) (isInf_add_zero_mul r₂ hrel habs)

end Solver

/-! ## Runs -/

namespace AbsSum

def fixed (h : Float) : Problem Unit Float where
  proxes := [AbsSum.prox 1 1]
  couplings := [.scaledIdentity 1 1]
  rhs := #[h]

def once (epsAbs epsRel : Float) : Params Float :=
  { Params.standard with maxIter := some 1, epsAbs := epsAbs, epsRel := epsRel }

theorem fixed_one_finite : ∃ a v,
    Solver.solve 0 (once 2 0) none (fixed 1) (World.start () none) = .ok (some a) v ∧
      a.IsFinite := by
  have hrun : (Run.value? (Solver.solve 0 (once 2 0) none (fixed 1)
      (World.start () none))).join.isSome = true := by decide +kernel
  obtain ⟨a, ha⟩ := Option.isSome_iff_exists.mp hrun
  obtain ⟨v, hs⟩ := Run.value?_eq_some.mp (Option.join_eq_some_iff.mp ha)
  have hadd : ∀ g ∈ (fixed 1).couplings, g.Accumulates := by
    intro g hg
    rw [List.mem_singleton.mp hg]
    exact Operator.accumulates_scaledIdentity 1 1
  exact ⟨a, v, hs, (Solver.solution_finite_or_tolerance_infinite hadd hs).2 (by decide +kernel)
    (by decide +kernel)⟩

/-- The square of the right-hand side overflows. The residual is infinite then, and within the
infinite tolerance that comes from it. -/
theorem fixed_far_converges : ∃ a v r,
    (fixed 1e200).shapeDefect? = none ∧ (once 1e-6 1e-8).broken? = none ∧
      AllFinite #[(once 1e-6 1e-8).rho, 1e-6, 1e-8, (once 1e-6 1e-8).epsZero] ∧
      Solver.solve 0 (once 1e-6 1e-8) none (fixed 1e200) (World.start () none) = .ok (some a) v ∧
      a.primal.back? = some r ∧ r.isInf = true ∧ ¬ a.IsFinite := by
  have hrun : (Run.value? (Solver.solve 0 (once 1e-6 1e-8) none (fixed 1e200)
      (World.start () none))).join.any (fun a => a.primal.back?.any Float.isInf) = true := by
    decide +kernel
  obtain ⟨a, ha, hback⟩ := (Option.any_eq_true ..).mp hrun
  obtain ⟨r, hr, hinf⟩ := (Option.any_eq_true ..).mp hback
  obtain ⟨v, hs⟩ := Run.value?_eq_some.mp (Option.join_eq_some_iff.mp ha)
  refine ⟨a, v, r, by decide, by decide +kernel, by decide +kernel, hs, hr, hinf, fun hfinite => ?_⟩
  obtain ⟨r', hr', hfin⟩ := hfinite.primal
  rw [hr] at hr'
  cases hr'
  rw [(kind_of_isFinite hfin).2] at hinf
  cases hinf

end AbsSum

end Splitting
