import Splitting.Proofs.Double.Magnitude
import Splitting.Proofs.Overflow

/-!
# Reciprocals of eigenvalues

Both pseudo-inverses take reciprocals of what is above a cut-off. A tolerance that is not negative
keeps the cut-offs from being negative, so that no zero is ever inverted; a negative tolerance,
which no rule forbids, lets zero through.
-/

namespace Splitting

open Double

/-! ## Cut-offs -/

section Cutoff

variable {F : Type} [Scalar F]

/-- Eigenvalues of the normal matrix at or below this count as zero. -/
def Anderson.cutoff (epsZero : F) (normal : Matrix F) : F :=
  epsZero * Scalar.maxNum normal.trace 1

/-- Only positive eigenvalues are above a cut-off. -/
structure SparesZero (epsZero : F) : Prop where
  projection : ∀ (gram : Matrix F) e, Projection.cutoff epsZero gram < e → 0 < e
  acceleration : ∀ (normal : Matrix F) e, Anderson.cutoff epsZero normal < e → 0 < e

end Cutoff

/-! ## Eigenvalues that are not positive -/

/-- Maps what is not positive to zero, before any function sees it. -/
@[reducible] def Spectral.positiveOnly {F : Type} [Scalar F] (S : Spectral F) : Spectral F where
  workSize := S.workSize
  mapEigIn a eps f work := S.mapEigIn a eps (fun e => if 0 < e then f e else 0) work
  shape_mapEigIn a eps _ work := S.shape_mapEigIn a eps _ work
  mapEigIn_congr a eps _ work work' := S.mapEigIn_congr a eps _ work work'

section PositiveOnly

variable {σ F : Type} [Scalar F] (S : Spectral F)

theorem mapEig_positiveOnly {tol : F} (h : ∀ e, tol < e → 0 < e) (a : Matrix F) (eps : F) :
    @Spectral.mapEig F _ S.positiveOnly a eps (fun e => cutoffRecip tol e) =
      Spectral.mapEig a eps fun e => cutoffRecip tol e := by
  refine congrArg (Spectral.mapEig a eps) (funext fun e => ?_)
  by_cases hpos : 0 < e
  · rw [if_pos hpos]
  · rw [if_neg hpos, cutoffRecip, if_neg fun htol => hpos (h e htol)]

variable {par : Params F} (h : SparesZero par.epsZero)
include h

theorem ofCouplings?_positiveOnly (couplings : List (Operator F)) (dims : List Nat)
    (rhs : Array F) : @Projection.ofCouplings? F _ S.positiveOnly couplings dims rhs par.epsZero =
      Projection.ofCouplings? couplings dims rhs par.epsZero := by
  simp only [Projection.ofCouplings?, Projection.pseudoInverse,
    mapEig_positiveOnly S (h.projection _)]

theorem coefficients?_positiveOnly (memory : List (Anderson.Sample F)) (g : Array F) :
    @Anderson.coefficients? F _ S.positiveOnly par.lambda par.epsZero memory g =
      Anderson.coefficients? par.lambda par.epsZero memory g := by
  have hmap (normal : Matrix F) := mapEig_positiveOnly S (h.acceleration normal) normal par.epsZero
  simp only [Anderson.cutoff] at hmap
  simp only [Anderson.coefficients?, hmap]

theorem nextPoint?_positiveOnly : @Solver.nextPoint? F _ S.positiveOnly par =
    Solver.nextPoint? par := by
  funext m s
  cases s with
  | none => rfl
  | some s =>
    simp only [Solver.nextPoint?, Anderson.advance?, coefficients?_positiveOnly S h]

theorem turn_positiveOnly : @Solver.turn σ F _ S.positiveOnly par = Solver.turn par := by
  funext proxes proj p
  simp only [Solver.turn, Solver.goOn, nextPoint?_positiveOnly S h]

theorem iterate_positiveOnly (proxes : List (Prox σ F)) (proj : Projection F) (fuel : Nat) :
    @Solver.iterate σ F _ S.positiveOnly par proxes proj fuel =
      Solver.iterate par proxes proj fuel := by
  induction fuel with
  | zero => rfl
  | succ fuel ih =>
    funext p w
    simp only [Solver.iterate, turn_positiveOnly S h, ih]

theorem solve_positiveOnly (budget : Nat) (init : Option (List (Array F))) (p : Problem σ F) :
    @Solver.solve σ F _ S.positiveOnly budget par init p = Solver.solve budget par init p := by
  simp only [Solver.solve, Solver.prepare, ofCouplings?_positiveOnly S h,
    iterate_positiveOnly S h]

end PositiveOnly

/-! ## Doubles -/

theorem sparesZero_of_not_neg {epsZero : Float} (h : ¬ epsZero < 0) : SparesZero epsZero := by
  have hscaled (a : Matrix Float) : ¬ epsZero * maxNumber a.trace 1 < 0 :=
    not_neg_mul h (not_neg_maxNumber_one _)
  refine ⟨fun gram e hlt => pos_of_lt ?_ hlt, fun normal e hlt => pos_of_lt (hscaled normal) hlt⟩
  exact not_neg_mul (hscaled gram) (not_neg_ofNat _)

/-- With a tolerance that is not negative, not even a number, what is not a positive eigenvalue is
mapped to zero in both pseudo-inverses, so every solve is the one that never sees it. -/
theorem reciprocals_of_positive {σ : Type} [S : Spectral Float] {par : Params Float}
    (hzero : ¬ par.epsZero < 0) :
    (∀ e : Float, ¬ 0 < e →
      (∀ gram, cutoffRecip (Projection.cutoff par.epsZero gram) e = 0) ∧
      ∀ normal, cutoffRecip (Anderson.cutoff par.epsZero normal) e = 0) ∧
    (∀ couplings dims rhs,
      @Projection.ofCouplings? Float _ S.positiveOnly couplings dims rhs par.epsZero =
        Projection.ofCouplings? couplings dims rhs par.epsZero) ∧
    (∀ memory g, @Anderson.coefficients? Float _ S.positiveOnly par.lambda par.epsZero memory g =
      Anderson.coefficients? par.lambda par.epsZero memory g) ∧
    ∀ budget init (p : Problem σ Float),
      @Solver.solve σ Float _ S.positiveOnly budget par init p =
        Solver.solve budget par init p := by
  have hspares := sparesZero_of_not_neg hzero
  refine ⟨fun e he => ⟨fun gram => ?_, fun normal => ?_⟩, ofCouplings?_positiveOnly S hspares,
    coefficients?_positiveOnly S hspares, solve_positiveOnly S hspares⟩
  · exact if_neg fun h => he (hspares.projection gram e h)
  · exact if_neg fun h => he (hspares.acceleration normal e h)

namespace AbsSum

/-- One variable, and a coupling that it does not enter. -/
def idle : Problem Unit Float where
  proxes := [AbsSum.prox 1 1]
  couplings := [.scaledIdentity 1 0]
  rhs := #[0]

def onceWith (epsZero : Float) : Params Float :=
  { Params.standard with maxIter := some 1, epsZero := epsZero }

theorem idle_reciprocals : ¬ (onceWith 1e-12).epsZero < 0 ∧ ∃ gram a v,
    Projection.gram? (idle.couplings.zip idle.dims) 1 = some gram ∧ ¬ 0 < gram.entry 0 0 ∧
      cutoffRecip (Projection.cutoff 1e-12 gram) (gram.entry 0 0) = 0 ∧
      @Solver.solve Unit Float _ (.positiveOnly inferInstance) 0 (onceWith 1e-12) none idle
        (World.start () none) = .ok (some a) v := by
  have hzero : ¬ (onceWith 1e-12).epsZero < 0 := by decide +kernel
  obtain ⟨hmapped, -, -, hsolve⟩ := reciprocals_of_positive (σ := Unit) hzero
  have hgram : (Projection.gram? (idle.couplings.zip idle.dims) 1).any (fun gram =>
      ¬ 0 < gram.entry 0 0) = true := by decide +kernel
  have hrun : (Run.value? (Solver.solve 0 (onceWith 1e-12) none idle
      (World.start () none))).join.isSome = true := by decide +kernel
  obtain ⟨gram, hsome, hpos⟩ := (Option.any_eq_true ..).mp hgram
  obtain ⟨a, ha⟩ := Option.isSome_iff_exists.mp hrun
  obtain ⟨v, hs⟩ := Run.value?_eq_some.mp (Option.join_eq_some_iff.mp ha)
  have hpos := of_decide_eq_true hpos
  exact ⟨hzero, gram, a, v, hsome, hpos, (hmapped _ hpos).1 gram,
    (congrFun (hsolve 0 none idle) _).trans hs⟩

/-- A negative tolerance passes all checks. The eigenvalue of the idle coupling is zero and above
the cut-off, and its reciprocal spoils the run. -/
theorem idle_inverts_zero :
    (onceWith (-1)).broken? = none ∧ idle.shapeDefect? = none ∧
      (∃ gram, Projection.gram? (idle.couplings.zip idle.dims) 1 = some gram ∧
        gram.entry 0 0 = 0 ∧
        (cutoffRecip (Projection.cutoff (-1) gram) (gram.entry 0 0)).isInf = true) ∧
      (∃ v, Solver.solve 0 (onceWith (-1)) none idle (World.start () none) =
        .error (.error .excessIter) v) ∧
      ∃ a v, @Solver.solve Unit Float _ (.positiveOnly inferInstance) 0 (onceWith (-1)) none idle
        (World.start () none) = .ok (some a) v := by
  have hgram : (Projection.gram? (idle.couplings.zip idle.dims) 1).any (fun gram =>
      decide (gram.entry 0 0 = 0) &&
        (cutoffRecip (Projection.cutoff (-1) gram) (gram.entry 0 0)).isInf) = true := by
    decide +kernel
  have hspoilt : Run.halt? (Solver.solve 0 (onceWith (-1)) none idle (World.start () none)) =
      some (.error .excessIter) := by decide +kernel
  have hspared : (Run.value? (@Solver.solve Unit Float _ (.positiveOnly inferInstance) 0
      (onceWith (-1)) none idle (World.start () none))).join.isSome = true := by decide +kernel
  obtain ⟨gram, hsome, heigen⟩ := (Option.any_eq_true ..).mp hgram
  obtain ⟨hentry, hinf⟩ := Bool.and_eq_true_iff.mp heigen
  obtain ⟨a, ha⟩ := Option.isSome_iff_exists.mp hspared
  obtain ⟨v, hs⟩ := Run.value?_eq_some.mp (Option.join_eq_some_iff.mp ha)
  exact ⟨by decide +kernel, by decide +kernel, ⟨gram, hsome, of_decide_eq_true hentry, hinf⟩,
    Run.halt?_eq_some.mp hspoilt, a, v, hs⟩

end AbsSum

end Splitting
