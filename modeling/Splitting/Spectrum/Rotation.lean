import Splitting.Spectrum.Basic

/-!
# Eigenvalues by plane rotations

Each rotation clears one entry off the diagonal; sweeps over all of them repeat until every entry
is small against its diagonal neighbours. The rotations are collected into a basis.
-/

namespace Splitting.Spectrum

structure Rotation (F : Type) where
  cos : F
  sin : F

/-- A symmetric matrix on its way to diagonal form, and the basis reached so far. -/
structure Eigen (F : Type) where
  /-- The upper triangle, packed by columns. -/
  form : Array F
  basis : Array F
  settled : Bool

variable {F : Type} [Scalar F]

/-- The rotation that clears `d` between the diagonal entries `a` and `b`. -/
@[inline] def Rotation.clearing (a b d : F) : Rotation F :=
  let zeta := (b - a) / (Scalar.two * d)
  let root := Scalar.sqrt (1 + zeta * zeta)
  let t := if 0 < zeta then 1 / (zeta + root) else -1 / (-zeta + root)
  let c := 1 / Scalar.sqrt (1 + t * t)
  ⟨c, c * t⟩

/-- Rotates the pairs of entries that `p` and `q` point to. -/
@[inline] def Rotation.apply (g : Rotation F) (n : Nat) (p q : Nat → Nat) (x : Array F) : Array F :=
  n.fold (fun k _ x =>
    let u := x.getD (p k) 0
    let w := x.getD (q k) 0
    (x.setIfInBounds (p k) (g.cos * u - g.sin * w)).setIfInBounds (q k)
      (g.sin * u + g.cos * w)) x

@[inline] def cell (r c : Nat) : Nat := if r ≤ c then triangle c + r else triangle r + c

/-- Clears the entry of row `i` and column `j`, unless it is small already. -/
@[inline] def clear (n : Nat) (tol : F) (i j : Nat) (e : Eigen F) : Eigen F :=
  let ⟨form, basis, settled⟩ := e
  let a := form.getD (cell i i) 0
  let b := form.getD (cell j j) 0
  let d := form.getD (cell i j) 0
  let dd := d * d
  if (tol * a) * b < dd ∧ tol < dd then
    let g := Rotation.clearing a b d
    let c := g.cos
    let s := g.sin
    let form := g.apply n (cell · i) (cell · j) form
    let basis := g.apply n (i * n + ·) (j * n + ·) basis
    let cross := ((Scalar.two * c) * s) * d
    let form := form.setIfInBounds (cell i i) (((c * c) * a + (s * s) * b) - cross)
    let form := form.setIfInBounds (cell j j) (((s * s) * a + (c * c) * b) + cross)
    let form := form.setIfInBounds (cell i j) 0
    ⟨form, basis, false⟩
  else ⟨form, basis, settled⟩

/-- Clears every entry above the diagonal once, row by row. -/
@[specialize] def sweep (n : Nat) (tol : F) (e : Eigen F) : Eigen F :=
  n.fold (fun i _ e => (n - (i + 1)).fold (fun k _ e => clear n tol i (i + 1 + k) e) e) e

/-- Sweeps until one changes nothing, at most `fuel` times. -/
@[specialize] def diagonalize (n : Nat) (tol : F) : Nat → Eigen F → Eigen F
  | 0, e => e
  | fuel + 1, ⟨form, basis, _⟩ =>
    let e := sweep n tol ⟨form, basis, true⟩
    if e.settled then e else diagonalize n tol fuel e

/-- More sweeps than any matrix of doubles has been seen to need. -/
def sweepLimit : Nat := 100000

@[specialize] def unitBasis (n : Nat) : Array F :=
  n.fold (fun i _ z => z.setIfInBounds (i * n + i) 1) (Vec.zeros (n * n))

@[specialize] def eigen (a : Matrix F) (eps : F) : Eigen F :=
  diagonalize a.rows (eps * eps) sweepLimit ⟨a.entries, unitBasis a.rows, true⟩

/-- The sum of `f` of each eigenvalue times the projector onto its basis vector. -/
@[specialize] def combine (a : Matrix F) (f : F → F) (e : Eigen F) : Matrix F :=
  let n := a.rows
  let values := (Array.range n).map fun i => f (e.form.getD (cell i i) 0)
  Matrix.ofFn a.shape fun r c =>
    n.fold (fun i _ sum =>
      ((values.getD i 0 * e.basis.getD (i * n + r) 0) * e.basis.getD (i * n + c) 0) + sum) 0

/-- Starts from the unit basis, so that nothing is read from the room; the basis found is left
there. -/
instance : Spectral Float where
  workSize n := n * n
  mapEigIn a eps f _ :=
    let e := eigen a eps
    (combine a f e, e.basis)
  shape_mapEigIn _ _ _ _ := rfl
  mapEigIn_congr _ _ _ _ _ := rfl

end Splitting.Spectrum
