import Splitting.Spectrum.Basic

/-!
# Anderson acceleration

Speeds up the fixed-point iteration `v ↦ F v` with the residual `g = v - F v`. A step combines the
remembered images so that the combined residual is small. The accelerated point stays in doubt
until the residual there is known; a point that fails is given up for the plain step, and the
memory is cleared.
-/

namespace Splitting.Anderson

/-- An image `F v` and the residual `v - F v`, or a difference of two such pairs. -/
structure Sample (F : Type) where
  image : Array F
  residual : Array F

structure State (F : Type) where
  /-- The sample of the last step since the memory was cleared. -/
  last : Option (Sample F)
  /-- Differences of successive samples, oldest first. -/
  memory : List (Sample F)
  firstNorm : Option F
  accepted : Nat
  /-- The plain step to return to if the last accelerated point is rejected. -/
  pending : Option (Array F)

/-- The memory is set aside at the start; to ask for one of this size is a misuse. -/
def memoryLimit : Nat := 384307168202282326

def State.initial {F : Type} : State F := ⟨none, [], none, 0, none⟩

variable {F : Type} [Scalar F]

/-! ## Judging a point -/

/-- The largest residual at which accelerated point number `accepted` is kept. -/
@[specialize] def bound (firstNorm : F) (accepted : Nat) : F :=
  ((1e6 : F) * firstNorm) *
    Scalar.pow (Scalar.ofNat accepted / (10.0 : F) + 1) (-(1 + (1e-6 : F)))

/-- Judges the point of the last step by the norm of its residual. A rejected point is answered
with the plain step to restart from. -/
@[specialize] def judge (norm : F) (s : State F) : Option (Array F) × State F :=
  let first := s.firstNorm.getD norm
  match s.pending with
  | none => (none, { s with firstNorm := some first })
  | some safe =>
    if norm ≤ bound first s.accepted then
      (none, { s with firstNorm := some first, accepted := s.accepted + 1, pending := none })
    else (some safe, ⟨none, [], some first, s.accepted, none⟩)

/-! ## The next point -/

@[specialize] def Sample.sub? (a b : Sample F) : Option (Sample F) := do
  let residual ← Vec.sub? a.residual b.residual
  let image ← Vec.sub? a.image b.image
  return ⟨image, residual⟩

/-- Adds a difference, letting go of the oldest one if the memory is full. -/
def remember (size : Nat) (d : Sample F) (memory : List (Sample F)) : List (Sample F) :=
  (if memory.length = size then memory.drop 1 else memory) ++ [d]

/-- The memory with the difference between this sample and the last one, if there is one. -/
@[specialize] def State.grown? (size : Nat) (s : State F) (a : Sample F) :
    Option (List (Sample F)) :=
  match s.last with
  | none => some s.memory
  | some b => do
    let d ← a.sub? b
    return remember size d s.memory

/-- The weight of the regularization: `lambda` times the squared norms of all differences. -/
@[specialize] def regularization (lambda : F) (memory : List (Sample F)) : F :=
  memory.foldl (fun s d =>
    let ng := Vec.norm d.residual
    let nf := Vec.norm d.image
    s + ng * ng + nf * nf) 0 * lambda

/-- The products of `x` with the residual differences. -/
@[specialize] def products? (x : Array F) (memory : List (Sample F)) : Option (Array F) := do
  let ps ← memory.mapM fun d => Vec.dot? d.residual x
  return ps.toArray

/-- The products of the residual differences with each other, `reg` added on the diagonal. -/
@[specialize] def normalMatrix? (reg : F) (memory : List (Sample F)) : Option (Matrix F) := do
  let cols ← memory.mapM fun d => products? d.residual memory
  let cols := cols.toArray
  return Matrix.ofFn (.packed memory.length) fun r c =>
    let e := (cols.getD c #[]).getD r 0
    if r = c then e + reg else e

/-- `y - c₁ x₁ - … - cₖ xₖ` for the images of the memory. -/
@[specialize] def subCombined? : List F → List (Sample F) → Array F → Option (Array F)
  | c :: cs, d :: ds, y => do
    let y ← Vec.addScaled? (-c) d.image y
    subCombined? cs ds y
  | _, _, y => some y

variable [Spectral F]

/-- The coefficients of the regularized least-squares combination of the residual differences. -/
@[specialize] def coefficients? (lambda epsZero : F) (memory : List (Sample F)) (g : Array F) :
    Option (Array F) := do
  let normal ← normalMatrix? (regularization lambda memory) memory
  let rhs ← products? g memory
  let tol := epsZero * Scalar.maxNum normal.trace 1
  let inverse := Spectral.mapEig normal epsZero fun e => cutoffRecip tol e
  inverse.mulAdd? 1 rhs 0 (Vec.zeros memory.length)

/-- The point after the one with this sample. Without a memory it is the plain step. -/
@[specialize] def advance? (size : Nat) (lambda epsZero : F) (a : Sample F) (s : State F) :
    Option (Array F × State F) := do
  let memory ← s.grown? size a
  let s := { s with last := some a, memory }
  if memory.isEmpty then return (a.image, s)
  else
    let gamma ← coefficients? lambda epsZero memory a.residual
    let v ← subCombined? gamma.toList memory a.image
    return (v, { s with pending := some a.image })

end Splitting.Anderson
