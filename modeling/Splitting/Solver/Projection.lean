import Splitting.Operator
import Splitting.Spectrum.Basic

/-!
# Projection onto the coupling constraint

The points with `G₁ z₁ + … + Gₙ zₙ = h`, for the blocks stacked into one vector. The projection
goes through the pseudo-inverse of `G₁ G₁ᵀ + … + Gₙ Gₙᵀ`.

Two work vectors are kept from call to call. A new value is started from zero times the old one, so
that an overflow stays visible.
-/

namespace Splitting

structure Projection (F : Type) where
  /-- The operators, each with the dimension of its block. -/
  parts : List (Operator F × Nat)
  rhs : Array F
  pinv : Matrix F

namespace Projection

structure Scratch (F : Type) where
  gap : Array F
  multiplier : Array F

variable {F : Type} [Scalar F]

@[inline] def unit (m c : Nat) : Array F := (Vec.zeros m).setIfInBounds c 1

/-- Adds `G₁ G₁ᵀ e + … + Gₙ Gₙᵀ e` to `y`. -/
@[specialize] def addGram? (e : Array F) : List (Operator F × Nat) → Array F → Option (Array F)
  | [], y => some y
  | (g, n) :: parts, y => do
    let w ← g.applyTransposed 1 e 0 (Vec.zeros n)
    let y ← g.apply 1 w 1 y
    addGram? e parts y

/-- The columns of the Gram matrix from column `c` on, after `cols`; `last` is the column before. -/
@[specialize] def gramColumns? (parts : List (Operator F × Nat)) (m : Nat) :
    Nat → Nat → Array F → Array (Array F) → Option (Array (Array F))
  | 0, _, _, cols => some cols
  | left + 1, c, last, cols => do
    let col ← addGram? (unit m c) parts (Vec.scale 0 last)
    gramColumns? parts m left (c + 1) col (cols.push col)

/-- The Gram matrix `G₁ G₁ᵀ + … + Gₙ Gₙᵀ`. -/
@[specialize] def gram? (parts : List (Operator F × Nat)) (m : Nat) : Option (Matrix F) := do
  let cols ← gramColumns? parts m m 0 (Vec.zeros m) #[]
  return Matrix.ofFn (.packed m) fun r c => (cols.getD c #[]).getD r 0

/-- Eigenvalues of the Gram matrix at or below this count as zero. -/
@[specialize] def cutoff (epsZero : F) (gram : Matrix F) : F :=
  (epsZero * Scalar.maxNum gram.trace 1) * Scalar.ofNat gram.rows

variable [Spectral F]

@[specialize] def pseudoInverse (epsZero : F) (gram : Matrix F) : Matrix F :=
  let tol := cutoff epsZero gram
  Spectral.mapEig gram epsZero fun e => cutoffRecip tol e

@[specialize] def ofCouplings? (couplings : List (Operator F)) (dims : List Nat) (rhs : Array F)
    (epsZero : F) : Option (Projection F) :=
  let parts := couplings.zip dims
  let m := rhs.size
  if parts.isEmpty ∨ m = 0 then some ⟨parts, rhs, Matrix.zeros (.packed m)⟩
  else do
    let gram ← gram? parts m
    return ⟨parts, rhs, pseudoInverse epsZero gram⟩

omit [Spectral F]

@[inline] def fresh (p : Projection F) : Scratch F :=
  ⟨Vec.zeros p.rhs.size, Vec.zeros p.rhs.size⟩

/-- Whether there is anything to project onto. -/
@[inline] def active (p : Projection F) : Bool := 0 < p.rhs.size && !p.parts.isEmpty

/-- Adds `G₁ x₁ + … + Gₙ xₙ` to `y`, the blocks of `x` starting at `start`. -/
@[specialize] def addCoupled? (x : Array F) :
    List (Operator F × Nat) → Nat → Array F → Option (Array F)
  | [], _, y => some y
  | (g, n) :: parts, start, y => do
    let y ← g.apply 1 (x.extract start (start + n)) 1 y
    addCoupled? x parts (start + n) y

/-- Subtracts `Gₗᵀ w` from each block of `y`, the blocks starting at `start`. -/
@[specialize] def subTransposed? (w y : Array F) :
    List (Operator F × Nat) → Nat → Array F → Option (Array F)
  | [], _, done => some done
  | (g, n) :: parts, start, done => do
    let block ← g.applyTransposed (-1) w 1 (y.extract start (start + n))
    subTransposed? w y parts (start + n) (done ++ block)

/-- `G₁ x₁ + … + Gₙ xₙ - h`. -/
@[specialize] def gap? (p : Projection F) (x : Array F) : Option (Array F) :=
  addCoupled? x p.parts 0 (Vec.scale (-1) p.rhs)

/-- Takes from `y` what the pseudo-inverse makes of the gap. -/
@[specialize] def correct? (p : Projection F) (gap multiplier y : Array F) :
    Option (Array F × Scratch F) := do
  let w ← p.pinv.mulAdd? 1 gap 0 multiplier
  let y ← subTransposed? w y p.parts 0 #[]
  return (y, ⟨gap, w⟩)

/-- The point of the constraint set nearest to `v`. -/
@[specialize] def project? (p : Projection F) (s : Scratch F) (v : Array F) :
    Option (Array F × Scratch F) :=
  if p.active then do
    let gap ← p.gap? v
    p.correct? gap s.multiplier v
  else some (v, s)

@[specialize] def residual? (p : Projection F) (s : Scratch F) (x : Array F) :
    Option (F × Scratch F) :=
  if p.active then do
    let gap ← p.gap? x
    return (Vec.norm gap, { s with gap })
  else some (0, s)

/-- The norm of the part of `g` that no `(G₁ᵀ w, …, Gₙᵀ w)` reaches. -/
@[specialize] def rangeResidual? (p : Projection F) (s : Scratch F) (g : Array F) :
    Option (F × Scratch F) :=
  if p.active then do
    let gap ← addCoupled? g p.parts 0 (Vec.scale 0 s.gap)
    let (rest, s) ← p.correct? gap s.multiplier g
    return (Vec.norm rest, s)
  else some (Vec.norm g, s)

end Projection

end Splitting
