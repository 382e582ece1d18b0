import Splitting.CoupledQp
import Splitting.Proofs.Safety
import Splitting.Spectrum.Rotation

/-!
# The coupling residual of an answer

A solve measures the coupling on the stacked point, slice after slice; a coupled program measures it
on the blocks of a point. Both add the same products in the same order, so on an answer they find
the same residual.
-/

namespace Splitting

variable {σ γ β F : Type} [Scalar F]

/-! ## The gap of stacked blocks -/

namespace Projection

open Solver in
theorem addCoupled?_append_stack {parts : List (Operator F × Nat)} {xs : List (Array F)}
    (h : xs.map Array.size = parts.map Prod.snd) (z y : Array F) :
    addCoupled? (z ++ stack xs) parts z.size y =
      (parts.zip xs).foldlM (fun y p => p.1.1.apply 1 p.2 1 y) y := by
  -- a block whose product is added goes over to the part before the slice
  induction parts generalizing xs z y with
  | nil => rfl
  | cons part parts ih =>
    obtain ⟨g, n⟩ := part
    cases xs with
    | nil => cases h
    | cons x xs =>
      simp only [List.map_cons, List.cons.injEq] at h
      obtain ⟨rfl, h⟩ := h
      rw [addCoupled?, stack_cons, extract_append_middle, ← Array.append_assoc, ← Array.size_append]
      simp only [ih h (z ++ x), List.zip_cons_cons, List.foldlM_cons]

open Solver in
theorem gap?_stack {p : Projection F} {xs : List (Array F)}
    (h : xs.map Array.size = p.parts.map Prod.snd) :
    p.gap? (stack xs) =
      (p.parts.zip xs).foldlM (fun y p => p.1.1.apply 1 p.2 1 y) (Vec.scale (-1) p.rhs) := by
  simpa [gap?] using addCoupled?_append_stack h #[] (Vec.scale (-1) p.rhs)

theorem gap?_of_residual? (hnil : Vec.norm (#[] : Array F) = 0) {p : Projection F}
    (hf : PartsFit p.parts p.rhs.size) (hne : p.parts ≠ []) {x : Array F}
    (hx : total (p.parts.map Prod.snd) ≤ x.size) {s s' : Scratch F} {r : F}
    (h : p.residual? s x = some (r, s')) : (p.gap? x).map Vec.norm = some r := by
  unfold residual? at h
  split at h
  · simp only [Option.bind_eq_bind, Option.bind_eq_some_iff] at h
    obtain ⟨gap, hg, h⟩ := h
    cases h
    rw [hg]
    rfl
  · rename_i ha
    have hm : p.rhs.size = 0 := by simpa [active, hne] using ha
    obtain ⟨gap, hg, hs⟩ := addCoupled?_total hf (x := x) (k := 0)
      (y := Vec.scale (-1) p.rhs) (by omega) (by simp)
    obtain rfl : gap = #[] := Array.eq_empty_of_size_eq_zero (hs.trans hm)
    cases h
    rw [gap?, hg, Option.map_some, hnil]

end Projection

namespace CoupledQp

theorem problem_eq_ok {prob : CoupledQp F} {b : Qp.Backend β F}
    {p : Problem (Array (Quadratic.Scratch F × β)) F} {w w' : World γ F} :
    prob.problem b w = .ok p w' ↔
      p.shapeDefect? = none ∧ w = w' ∧ ∃ fs, prob.blocks.mapM quadratic? = some fs ∧
        p = ⟨fs.mapIdx fun l f => (f.prox b).slot l, prob.blocks.map fun b => .ofMatrix b.g,
          prob.rhs⟩ := by
  unfold problem Problem.checked
  simp only [Run.bind_eq_ok, Run.demand_eq_ok, Run.check_eq_ok, Run.pure_eq_ok]
  constructor
  · rintro ⟨fs, _, ⟨hfs, rfl⟩, -, _, ⟨hd, rfl⟩, rfl, rfl⟩
    exact ⟨hd, rfl, fs, hfs, rfl⟩
  · rintro ⟨hd, rfl, fs, hfs, rfl⟩
    exact ⟨fs, w, ⟨hfs, rfl⟩, (), w, ⟨hd, rfl⟩, rfl, rfl⟩

theorem coupled_of_problem {prob : CoupledQp F} {b : Qp.Backend β F}
    {p : Problem (Array (Quadratic.Scratch F × β)) F} {w w' : World γ F}
    (h : prob.problem b w = .ok p w') :
    p.couplings = prob.blocks.map (fun b => Operator.ofMatrix b.g) ∧ p.rhs = prob.rhs ∧
      p.dims.length = prob.blocks.length ∧ prob.blocks ≠ [] ∧ ∀ g ∈ p.couplings, g.Sound := by
  obtain ⟨hd, -, fs, hfs, rfl⟩ := problem_eq_ok.mp h
  obtain ⟨hne, hlen, -⟩ := Problem.shapeDefect?_eq_none.mp hd
  have hblocks : prob.blocks ≠ [] := by
    intro hnil
    obtain rfl : fs = [] := by simpa [hnil] using hfs
    exact hne rfl
  refine ⟨rfl, rfl, ?_, hblocks, fun g hg => ?_⟩
  · rcases hlen with hlen | ⟨hnil, -⟩
    · simpa [Problem.dims] using hlen.symm
    · exact absurd (List.map_eq_nil_iff.mp hnil) hblocks
  · obtain ⟨b, -, rfl⟩ := List.mem_map.mp hg
    exact Operator.sound_ofMatrix b.g

theorem foldlM_parts (bs : List (QpBlock F)) (dims : List Nat) (xs : List (Array F))
    (hlen : dims.length = bs.length) (y : Array F) :
    (((bs.map fun b => Operator.ofMatrix b.g).zip dims).zip xs).foldlM
        (fun y p => p.1.1.apply 1 p.2 1 y) y =
      (bs.zip xs).foldlM (fun y p => p.1.g.mulAdd? 1 p.2 1 y) y := by
  induction bs generalizing dims xs y with
  | nil => rfl
  | cons b bs ih =>
    cases dims with
    | nil => cases hlen
    | cons n dims =>
      cases xs with
      | nil => rfl
      | cons x xs =>
        have hlen : dims.length = bs.length := by simpa using hlen
        simp only [List.map_cons, List.zip_cons_cons, List.foldlM_cons, ih dims xs hlen]
        rfl

theorem eqResidual?_eq_gap {prob : CoupledQp F} {proj : Projection F} {dims : List Nat}
    (hparts : proj.parts = (prob.blocks.map fun b => Operator.ofMatrix b.g).zip dims)
    (hrhs : proj.rhs = prob.rhs) (hlen : dims.length = prob.blocks.length) {xs : List (Array F)}
    (hxs : xs.map Array.size = dims) :
    prob.eqResidual? xs = (proj.gap? (Solver.stack xs)).map Vec.norm := by
  have hcount : xs.length = prob.blocks.length := by rw [← hlen, ← hxs, List.length_map]
  have hsnd : proj.parts.map Prod.snd = dims := by
    rw [hparts]
    exact List.map_snd_zip (by simp [hlen])
  rw [Projection.gap?_stack (hxs.trans hsnd.symm), hparts, hrhs,
    foldlM_parts prob.blocks dims xs hlen, eqResidual?, pairs?, if_pos hcount]
  exact (map_eq_pure_bind (m := Option) ..).symm

variable [Spectral F]

/-- An answer of a solve misses the coupling by its last primal residual, bit for bit. -/
theorem solution_coupling_residual (hnil : Vec.norm (#[] : Array F) = 0) {prob : CoupledQp F}
    {b : Qp.Backend β F} {p : Problem (Array (Quadratic.Scratch F × β)) F} {w w' : World γ F}
    (hp : prob.problem b w = .ok p w') {budget : Nat} {par : Params F}
    {init : Option (List (Array F))} {u v : World (Array (Quadratic.Scratch F × β)) F}
    {a : Solution F} (h : Solver.solve budget par init p u = .ok (some a) v) :
    ∃ r r₀, prob.eqResidual? a.blocks = some r ∧ a.primal.back? = some r ∧
      a.primal[0]? = some r₀ ∧ r ≤ par.epsAbs + par.epsRel * r₀ := by
  obtain ⟨hcoup, hrhs, hlen, hblocks, hsound⟩ := coupled_of_problem hp
  obtain ⟨proj, m, hlast⟩ := Solver.exists_lastMeasure h
  obtain ⟨s, x, hm⟩ := hlast.measured
  obtain ⟨t, t', -, -, hres, -, -⟩ := Solver.residuals_of_measure? hm
  obtain ⟨r₀, hfirst, hle⟩ := hlast.primal_le
  obtain ⟨hparts, hprhs, hfits⟩ :=
    Projection.fits_of_ofCouplings? hsound hlast.shapes hlast.projection
  rw [hcoup, ← hlast.sizes] at hparts
  rw [← hlast.sizes, List.length_map] at hlen
  have hsnd : proj.parts.map Prod.snd = a.blocks.map Array.size := by
    rw [hparts]
    exact List.map_snd_zip (by simp [hlen])
  have hne : proj.parts ≠ [] := by
    intro hnil
    rw [hnil, List.map_nil] at hsnd
    have hnone : a.blocks = [] := List.map_eq_nil_iff.mp hsnd.symm
    exact hblocks (List.length_eq_zero_iff.mp (by rw [← hlen, hnone, List.length_nil]))
  have hx : total (proj.parts.map Prod.snd) ≤ (Solver.stack a.blocks).size :=
    Nat.le_of_eq (by rw [Solver.size_stack, hsnd])
  refine ⟨m.primal, r₀, ?_, hlast.primal, hfirst, hle⟩
  rw [eqResidual?_eq_gap hparts (hprhs.trans hrhs) (by simp [hlen]) rfl]
  exact Projection.gap?_of_residual? hnil hfits.parts hne hx hres

/-! ## A run -/

/-- Solves the programs without bounds whose cost is diagonal. -/
def diagonalBackend : Qp.Backend Unit Float where
  solve prog room := fun s =>
    .ok ((Array.range room).map fun i => -prog.q.entry i 0 / prog.p.entry i i) s

/-- One variable with cost `x²`, which the coupling sets to one. -/
def parabola : CoupledQp Float where
  blocks := [⟨.column #[1], #[0], .zeros (.general 0 1), #[], .column #[1]⟩]
  rhs := #[1]

/-- Half of the first residual will do. -/
def halving : Params Float := { Params.standard with anderson := true, epsRel := 0.5 }

set_option maxRecDepth 100000 in
theorem parabola_coupling_residual :
    ∃ p w a v r r₀,
      parabola.problem diagonalBackend (World.start () none : World Unit Float) = .ok p w ∧
        Solver.solve 0 halving none p (World.start (parabola.states ()) none) = .ok (some a) v ∧
        a.iterations = 3 ∧ parabola.eqResidual? a.blocks = some r ∧ a.primal.back? = some r ∧
        a.primal[0]? = some r₀ ∧ r ≤ halving.epsAbs + halving.epsRel * r₀ := by
  have hrun : (Run.value? (parabola.problem diagonalBackend
      (World.start () none : World Unit Float)) >>= fun p =>
        (Run.value? (Solver.solve 0 halving none p
          (World.start (parabola.states ()) none))).join.map Solution.iterations) = some 3 := by
    decide +kernel
  obtain ⟨p, hp, hrun⟩ := Option.bind_eq_some_iff.mp hrun
  obtain ⟨a, ha, hiter⟩ := Option.map_eq_some_iff.mp hrun
  obtain ⟨w, hp⟩ := Run.value?_eq_some.mp hp
  obtain ⟨v, hs⟩ := Run.value?_eq_some.mp (Option.join_eq_some_iff.mp ha)
  obtain ⟨r, r₀, hr, hlast, hfirst, hle⟩ := solution_coupling_residual (by decide +kernel) hp hs
  exact ⟨p, w, a, v, r, r₀, hp, hs, hiter, hr, hlast, hfirst, hle⟩

end CoupledQp

end Splitting
