import Splitting.Prox.Quadratic
import Splitting.Random.Source
import Splitting.Solver.Basic

/-!
# Coupled quadratic programs

Minimises the sum of `xₗᵀ Qₗ xₗ + cₗᵀ xₗ` over blocks with `Fₗ xₗ ≤ dₗ`, coupled by
`G₁ x₁ + … + Gₙ xₙ = h`. How well a point does is measured block by block.
-/

namespace Splitting

structure QpBlock (F : Type) where
  q : Matrix F
  c : Array F
  f : Matrix F
  d : Array F
  g : Matrix F

structure CoupledQp (F : Type) where
  blocks : List (QpBlock F)
  rhs : Array F

namespace CoupledQp

variable {F γ β ε φ : Type} [Scalar F]

/-! ## Generated instances -/

/-- A matrix of normal values, drawn column by column. -/
@[specialize] def drawMatrix (src : Random.Source γ F) (rows cols : Nat) (g : γ) : Matrix F × γ :=
  let (entries, g) := Random.Source.fill (fun _ _ g => src.normal g)
    (Shape.general rows cols).cells #[] g
  (Matrix.ofStored (.general rows cols) entries, g)

/-- `M Mᵀ` times `factor`. -/
@[specialize] def scaledSquare (factor : F) (m : Matrix F) : Matrix F :=
  .ofFn (.packed m.rows) fun r c =>
    Vec.sumBelow m.cols (fun k => m.entry r k * m.entry c k) * factor

/-- A block for which a hidden point is feasible, and the right-hand side with its share added. -/
@[specialize] def drawBlock? (src : Random.Source γ F) (q p : Nat) (rhs : Array F) (g : γ) :
    Option (QpBlock F × Array F × γ) := do
  let (root, g) := drawMatrix src q q g
  let (c, g) := Random.Source.many src.normal q g
  let (f, g) := drawMatrix src p q g
  let (hidden, g) := Random.Source.many src.normal q g
  let (slack, g) := Random.Source.many src.uniform p g
  let d ← f.mulAdd? 1 hidden 1 slack
  let (m, g) := drawMatrix src rhs.size q g
  let rhs ← m.mulAdd? 1 hidden 1 rhs
  return (⟨scaledSquare (Scalar.recip (Scalar.ofNat (max q 1))) root, c, f, d, m⟩, rhs, g)

@[specialize] def drawBlocks? (src : Random.Source γ F) (q p : Nat) :
    Nat → List (QpBlock F) → Array F → γ → Option (List (QpBlock F) × Array F × γ)
  | 0, done, rhs, g => some (done.reverse, rhs, g)
  | n + 1, done, rhs, g => do
    let (b, rhs, g) ← drawBlock? src q p rhs g
    drawBlocks? src q p n (b :: done) rhs g

/-- A list of blocks is shorter than this; to ask for more is a misuse. -/
def countLimit : Nat := 48038396025285291

/-- The machine has room for `n` blocks of `q` variables and `p` inequalities, and `s` equations. -/
def HasRoom (n s q p : Nat) : Prop :=
  n < countLimit ∧ s < Vec.sizeLimit ∧ (n = 0 ∨ ∀ k ∈ [q * q, p * q, p, s * q], k < Vec.sizeLimit)

instance (n s q p : Nat) : Decidable (HasRoom n s q p) := inferInstanceAs (Decidable (_ ∧ _ ∧ _))

/-- Draws blocks of `q` variables and `p` inequalities, coupled by `s` equations. -/
@[specialize] def generate (src : Random.Source γ F) (n s q p : Nat) :
    Run γ F ε (CoupledQp F) := do
  Run.require (HasRoom n s q p)
  let (blocks, rhs, g) ← Run.demand (drawBlocks? src q p n [] (Vec.zeros s) (← get).state)
  modify (World.withState g)
  Run.note (.generatedQp n s q p)
  return ⟨blocks, rhs⟩

/-! ## The problem -/

@[specialize] def quadratic? (b : QpBlock F) : Option (Quadratic F) :=
  Quadratic.assemble? (.ofFn (.packed b.f.cols) b.q.entry) b.c
    (.ofStored (.general b.f.rows b.f.cols) b.f.entries) b.d

/-- The states of the blocks' operators at the start. -/
def states (p : CoupledQp F) (β₀ : β) : Array (Quadratic.Scratch F × β) :=
  (p.blocks.filterMap fun b => (quadratic? b).map fun f => (f.scratch, β₀)).toArray

/-- The blocks with a backend for their programs, and their coupling. -/
@[specialize] def problem (p : CoupledQp F) (b : Qp.Backend β F) :
    Run γ F SolverError (Problem (Array (Quadratic.Scratch F × β)) F) := do
  let fs ← Run.demand (p.blocks.mapM quadratic?)
  let parts : Problem (Array (Quadratic.Scratch F × β)) F :=
    { proxes := fs.mapIdx fun l f => (f.prox b).slot l
      couplings := p.blocks.map fun b => .ofMatrix b.g
      rhs := p.rhs }
  parts.checked

/-- The operator of each block, with a backend of its own and the state that the backend starts
from. The backends are made one after the other. -/
@[specialize] def equip? (make : φ → (Qp.Backend β F × β) × φ) :
    List (QpBlock F) → φ → Option (List (Quadratic F × Qp.Backend β F × β) × φ)
  | [], s => some ([], s)
  | b :: bs, s => do
    let (made, s) := make s
    let f ← quadratic? b
    let (rest, s) ← equip? make bs s
    return ((f, made) :: rest, s)

/-- The blocks with a backend for each, and their coupling; and the states of the blocks' operators
at the start. -/
@[specialize] def equipped (p : CoupledQp F) (make : φ → (Qp.Backend β F × β) × φ) :
    Run φ F SolverError
      (Problem (Array (Quadratic.Scratch F × β)) F × Array (Quadratic.Scratch F × β)) := do
  let (fs, s) ← Run.demand (equip? make p.blocks (← get).state)
  modify (World.withState s)
  let parts : Problem (Array (Quadratic.Scratch F × β)) F :=
    { proxes := fs.mapIdx fun l x => (x.1.prox x.2.1).slot l
      couplings := p.blocks.map fun b => .ofMatrix b.g
      rhs := p.rhs }
  return (← parts.checked, (fs.map fun x => (x.1.scratch, x.2.2)).toArray)

/-! ## Measures of a point -/

/-- The blocks, each with its part of a point, if there is a part for each block. -/
def pairs? (p : CoupledQp F) (xs : List (Array F)) : Option (List (QpBlock F × Array F)) :=
  if xs.length = p.blocks.length then some (p.blocks.zip xs) else none

/-- Adds `x₁ (y₁ + c₁) + …` to `s`. -/
@[specialize] def addProducts : List F → List F → List F → F → F
  | x :: xs, y :: ys, c :: cs, s => addProducts xs ys cs (s + x * (y + c))
  | _, _, _, s => s

/-- The sum of `xₗᵀ Qₗ xₗ + cₗᵀ xₗ`. -/
@[specialize] def objective? (p : CoupledQp F) (xs : List (Array F)) : Option F := do
  (← p.pairs? xs).foldlM (fun s (b, x) => do
    let y ← b.q.mulAdd? 1 x 0 (Vec.zeros x.size)
    return addProducts x.toList y.toList b.c.toList s) 0

/-- Adds the squares of the positive entries. -/
@[specialize] def addExcess (s : F) (r : Array F) : F :=
  r.foldl (fun s e => let e := Scalar.maxNum e 0; s + e * e) s

/-- The norm of the part of `Fₗ xₗ - dₗ` that is above zero. -/
@[specialize] def ineqViolation? (p : CoupledQp F) (xs : List (Array F)) : Option F := do
  let s ← (← p.pairs? xs).foldlM (fun s (b, x) => do
    let r ← b.f.mulAdd? 1 x (-1) b.d
    return addExcess s r) 0
  return Scalar.sqrt s

/-- The norm of `G₁ x₁ + … + Gₙ xₙ - h`. -/
@[specialize] def eqResidual? (p : CoupledQp F) (xs : List (Array F)) : Option F := do
  let r ← (← p.pairs? xs).foldlM (fun r (b, x) => b.g.mulAdd? 1 x 1 r) (Vec.scale (-1) p.rhs)
  return Vec.norm r

@[specialize] def violation? (p : CoupledQp F) (xs : List (Array F)) : Option F := do
  let vi ← p.ineqViolation? xs
  let ve ← p.eqResidual? xs
  return Scalar.sqrt (vi * vi + ve * ve)

end CoupledQp

end Splitting
