/-!
# Unboxed kernels

Vectors and matrices of unboxed doubles for the interior-point method; a matrix is stored row after
row. A place that does not exist reads as zero, and writing to it changes nothing.
-/

namespace Splitting.Qp.Unboxed

@[inline] def get (a : FloatArray) (i : Nat) : Float := if h : i < a.size then a.get i h else 0.0

@[inline] def set (a : FloatArray) (i : Nat) (x : Float) : FloatArray :=
  if h : i < a.size then a.set i x h else a

@[inline] def ofFn (n : Nat) (f : Nat → Float) : FloatArray :=
  n.fold (fun i _ a => a.push (f i)) (FloatArray.emptyWithCapacity n)

@[inline] def ofEntries (rows cols : Nat) (f : Nat → Nat → Float) : FloatArray :=
  rows.fold (fun r _ a => cols.fold (fun c _ a => a.push (f r c)) a)
    (FloatArray.emptyWithCapacity (rows * cols))

@[inline] def sum (n : Nat) (f : Nat → Float) : Float := n.fold (fun i _ s => s + f i) 0.0

@[inline] def map (f : Float → Float) (x : FloatArray) : FloatArray :=
  ofFn x.size fun i => f (get x i)

@[inline] def zipWith (f : Float → Float → Float) (x y : FloatArray) : FloatArray :=
  ofFn x.size fun i => f (get x i) (get y i)

def neg (x : FloatArray) : FloatArray := map (-·) x

def mulEach (x y : FloatArray) : FloatArray := zipWith (· * ·) x y

def divEach (x y : FloatArray) : FloatArray := zipWith (· / ·) x y

def zeros (n : Nat) : FloatArray := ofFn n fun _ => 0.0

def ones (n : Nat) : FloatArray := ofFn n fun _ => 1.0

def dot (x y : FloatArray) : Float := sum x.size fun i => get x i * get y i

/-- The largest magnitude, or an entry that is not a number. -/
def maxAbs (x : FloatArray) : Float :=
  x.size.fold (fun i _ m => let e := (get x i).abs; if e.isNaN || m < e then e else m) 0.0

def allFinite (x : FloatArray) : Bool := x.size.all fun i _ => (get x i).isFinite

def axpy (a : Float) (x y : FloatArray) : FloatArray := zipWith (fun e d => e + a * d) y x

def mul (rows cols : Nat) (a x : FloatArray) : FloatArray :=
  ofFn rows fun r => let k := r * cols; sum cols fun c => get a (k + c) * get x c

/-- `y` plus a matrix with `cols` columns times `x`, added up from left to right. -/
def addMul (rows cols : Nat) (a x y : FloatArray) : FloatArray :=
  ofFn rows fun r =>
    let k := r * cols
    cols.fold (fun c _ s => s + get a (k + c) * get x c) (get y r)

def mulTransposed (rows cols : Nat) (a w : FloatArray) : FloatArray :=
  ofFn cols fun c => sum rows fun r => get a (r * cols + c) * get w r

/-- `y` plus the transpose of a matrix with `cols` columns times `w`, added up from the first row
down. -/
def addMulTransposed (rows cols : Nat) (a w y : FloatArray) : FloatArray :=
  ofFn cols fun c => rows.fold (fun r _ s => s + get a (r * cols + c) * get w r) (get y c)

/-! ## Lengths -/

theorem size_push (a : FloatArray) (x : Float) : (a.push x).size = a.size + 1 := by
  cases a; simp [FloatArray.push, FloatArray.size]

@[simp] theorem size_set (a : FloatArray) (i : Nat) (x : Float) : (set a i x).size = a.size := by
  unfold set
  split
  · cases a
    exact Array.size_set _
  · rfl

@[simp] theorem size_ofFn (n : Nat) (f : Nat → Float) : (ofFn n f).size = n := by
  unfold ofFn
  induction n with
  | zero => rfl
  | succ n ih => rw [Nat.fold_succ, size_push]; exact congrArg (· + 1) ih

end Splitting.Qp.Unboxed
