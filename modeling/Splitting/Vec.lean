import Splitting.Scalar

/-!
# Vectors

Kernels on `Array F`. Sums start at zero and run upward, so every kernel fixes the order of its
roundings. A kernel that pairs two vectors answers `none` unless their lengths agree.
-/

namespace Splitting

def total : List Nat → Nat
  | [] => 0
  | n :: ns => n + total ns

@[simp] theorem total_nil : total [] = 0 := rfl

@[simp] theorem total_cons (n : Nat) (ns : List Nat) : total (n :: ns) = n + total ns := rfl

@[simp] theorem total_append (ms ns : List Nat) : total (ms ++ ns) = total ms + total ns := by
  induction ms with
  | nil => simp
  | cons m ms ih => simp [ih, Nat.add_assoc]

namespace Vec

variable {F : Type} [Scalar F]

/-- A vector has fewer places than this; to ask for more is a misuse. -/
def sizeLimit : Nat := Nat.pow 2 60

@[inline] def zeros (n : Nat) : Array F := Array.replicate n 0

/-- The sum of `f i` for `i` below `n`, each term added on the right. -/
@[inline] def sumBelow (n : Nat) (f : Nat → F) : F :=
  n.fold (fun i _ s => s + f i) 0

/-- Adds to `s` the products of the entries of `x` from place `k` on with `n` entries of `a`, the
first of them at `place` and the others where `next` leads from there. -/
@[specialize] def addAlong (a x : Array F) (next : Nat → Nat → Nat) : Nat → Nat → Nat → F → F
  | 0, _, _, s => s
  | n + 1, place, k, s =>
    addAlong a x next n (next place k) (k + 1) (s + a.getD place 0 * x.getD k 0)

@[specialize] def norm (x : Array F) : F :=
  Scalar.sqrt (x.foldl (fun s e => s + e * e) 0)

@[specialize] def scale (a : F) (x : Array F) : Array F := x.map fun e => a * e

@[specialize] def shift (s : F) (y : Array F) : Array F := y.map fun e => e + s

@[specialize] def addScaled? (a : F) (x y : Array F) : Option (Array F) :=
  if x.size = y.size then some (Array.zipWith (fun e d => e + a * d) y x) else none

@[specialize] def sub? (y x : Array F) : Option (Array F) := addScaled? (-1) x y

@[specialize] def dot? (x y : Array F) : Option F :=
  if x.size = y.size then
    some (x.size.fold (fun i _ s => s + x.getD i 0 * y.getD i 0) 0)
  else none

/-! ## Sums -/

theorem fold_add {α : Type} (f : Nat → α → α) (a b : Nat) (s : α) :
    (a + b).fold (fun i _ s => f i s) s =
      b.fold (fun i _ s => f (a + i) s) (a.fold (fun i _ s => f i s) s) := by
  induction b with
  | zero => simp
  | succ b ih =>
    rw [Nat.fold_succ, ← ih]
    exact Nat.fold_succ ..

theorem fold_congr {α : Type} {f g : Nat → α → α} (n : Nat) (h : ∀ i < n, ∀ s, f i s = g i s)
    (s : α) : n.fold (fun i _ s => f i s) s = n.fold (fun i _ s => g i s) s := by
  induction n with
  | zero => rfl
  | succ n ih =>
    rw [Nat.fold_succ, Nat.fold_succ, ih fun i hi => h i (Nat.lt_succ_of_lt hi)]
    exact h n (Nat.lt_succ_self n) _

theorem addAlong_eq_fold (a x : Array F) (next : Nat → Nat → Nat) (place : Nat → Nat)
    (hnext : ∀ k, next (place k) k = place (k + 1)) (n k : Nat) (s : F) :
    addAlong a x next n (place k) k s =
      n.fold (fun i _ s => s + a.getD (place (k + i)) 0 * x.getD (k + i) 0) s := by
  induction n generalizing k s with
  | zero => rfl
  | succ n ih =>
    rw [addAlong, hnext, ih, Nat.add_comm n 1,
      fold_add (fun i s => s + a.getD (place (k + i)) 0 * x.getD (k + i) 0)]
    simp [Nat.add_assoc]

/-! ## Lengths -/

@[simp] theorem size_zeros (n : Nat) : (zeros n : Array F).size = n := by simp [zeros]

@[simp] theorem size_scale (a : F) (x : Array F) : (scale a x).size = x.size := by simp [scale]

@[simp] theorem size_shift (s : F) (y : Array F) : (shift s y).size = y.size := by simp [shift]

theorem addScaled?_isSome_iff (a : F) (x y : Array F) :
    (addScaled? a x y).isSome ↔ x.size = y.size := by
  unfold addScaled?; split <;> simp [*]

theorem size_of_addScaled? {a : F} {x y z : Array F} (h : addScaled? a x y = some z) :
    z.size = y.size := by
  unfold addScaled? at h
  split at h
  · cases h; simp [*]
  · cases h

end Vec

end Splitting
