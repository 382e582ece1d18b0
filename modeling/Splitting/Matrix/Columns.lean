import Splitting.Matrix.Basic

/-!
# Compressed columns

A matrix as a list of its nonzero entries, column by column, with the place where each column
begins.
-/

namespace Splitting

structure CompressedColumns (F : Type) where
  rows : Nat
  cols : Nat
  /-- Where each column begins in the other two arrays, and where the last one ends. -/
  starts : Array Nat
  rowIndices : Array Nat
  values : Array F

namespace CompressedColumns

variable {F : Type} [Scalar F]

/-- The rows of column `c` that are looked at. -/
def height (m : Matrix F) (upper : Bool) (c : Nat) : Nat :=
  if upper then min (c + 1) m.rows else m.rows

def column (m : Matrix F) (upper : Bool) (c : Nat) : List (Nat × F) :=
  (List.range (height m upper c)).filterMap fun r =>
    let e := m.entry r c
    if e != 0 then some (r, e) else none

def push (m : CompressedColumns F) (col : List (Nat × F)) : CompressedColumns F where
  rows := m.rows
  cols := m.cols
  starts := m.starts.push (m.rowIndices.size + col.length)
  rowIndices := m.rowIndices ++ (col.map Prod.fst).toArray
  values := m.values ++ (col.map Prod.snd).toArray

/-- The encoding of a matrix, or of its upper triangle. Exact zeros are left out. -/
def ofMatrix (m : Matrix F) (upper : Bool) : CompressedColumns F :=
  ((List.range m.cols).map (column m upper)).foldl push ⟨m.rows, m.cols, #[0], #[], #[]⟩

def storedColumn (m : CompressedColumns F) (c : Nat) : List (Nat × F) :=
  (List.range (m.starts.getD (c + 1) 0 - m.starts.getD c 0)).map fun k =>
    let i := m.starts.getD c 0 + k
    (m.rowIndices.getD i 0, m.values.getD i 0)

/-- The entry of row `r` and column `c`: the stored value, or zero if none is stored. -/
def entry (m : CompressedColumns F) (r c : Nat) : F :=
  ((m.storedColumn c).find? fun p => p.1 == r).elim 0 Prod.snd

end CompressedColumns

end Splitting
