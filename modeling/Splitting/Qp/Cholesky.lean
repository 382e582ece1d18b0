import Splitting.Qp.Unboxed

/-!
# Cholesky factors

Dense linear systems with a symmetric positive definite matrix, stored row after row. The matrix is
`L D Lᵀ` with ones on the diagonal of `L`.
-/

namespace Splitting.Qp

open Unboxed (get set)

/-- `D` on the diagonal, below it `L`. -/
structure Cholesky where
  side : Nat
  entries : FloatArray

namespace Cholesky

/-- `a` minus the products of the first `k` entries of two rows that begin at `i` and `j`. -/
@[inline] def minusDot (l : FloatArray) (i j k : Nat) (a : Float) : Float :=
  k.fold (fun h _ s => s - get l (i + h) * get l (j + h)) a

/-- A pivot up to this size is lost to rounding. -/
def leastPivot : Float := 1e-13

/-- Stands in for a lost pivot. -/
def newPivot : Float := 2e-7

/-- Fills row `r` from the rows above it: first with `L D`, then with `L`. -/
def row (n r : Nat) (l : FloatArray) : FloatArray :=
  let i := r * n
  let l := r.fold (fun c _ l => set l (i + c) (minusDot l i (c * n) c (get l (i + c)))) l
  let pivot := r.fold (fun c _ s =>
    let e := get l (i + c)
    s - e * (e * (1.0 / get l (c * n + c)))) (get l (i + r))
  let l := r.fold (fun c _ l => set l (i + c) (get l (i + c) * (1.0 / get l (c * n + c)))) l
  set l (i + r) (if pivot ≤ leastPivot then newPivot else pivot)

/-- The factor of a symmetric matrix, of which the lower triangle counts. -/
def factor (n : Nat) (a : FloatArray) : Cholesky := ⟨n, n.fold (fun r _ l => row n r l) a⟩

def forward (m : Cholesky) (b : FloatArray) : FloatArray :=
  m.side.fold (fun r _ y =>
    let i := r * m.side
    set y r (r.fold (fun c _ s => s - get m.entries (i + c) * get y c) (get y r))) b

def backward (m : Cholesky) (y : FloatArray) : FloatArray :=
  m.side.fold (fun k _ x =>
    let c := m.side - 1 - k
    set x c (get x c - Unboxed.sum k fun j =>
      let r := c + 1 + j
      get m.entries (r * m.side + c) * get x r))
    (Unboxed.ofFn m.side fun r => get y r * (1.0 / get m.entries (r * m.side + r)))

def solve (m : Cholesky) (b : FloatArray) : FloatArray := m.backward (m.forward b)

end Cholesky

end Splitting.Qp
