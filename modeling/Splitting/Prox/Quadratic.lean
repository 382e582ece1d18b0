import Splitting.Matrix.Square
import Splitting.Prox
import Splitting.Qp.Program

/-!
# The quadratic block

The proximal operator of `xᵀ Q x + cᵀ x` over `F x ≤ d`. Each evaluation is a quadratic program,
left to a backend.
-/

namespace Splitting

structure Quadratic (F : Type) where
  /-- The upper triangle of `Q`. -/
  q : Matrix F
  c : Matrix F
  f : Matrix F
  d : Matrix F

namespace Quadratic

/-- What an evaluation leaves behind: the cost it last handed over. -/
structure Scratch (F : Type) where
  p : Matrix F
  q : Matrix F

variable {F : Type}

def Fits (q : Matrix F) (c : Array F) (f : Matrix F) (d : Array F) : Prop :=
  q.rows = c.size ∧ q.cols = c.size ∧ f.rows = d.size ∧ f.cols = c.size

instance (q : Matrix F) (c : Array F) (f : Matrix F) (d : Array F) : Decidable (Fits q c f d) :=
  inferInstanceAs (Decidable (_ ∧ _ ∧ _ ∧ _))

variable [Scalar F]

@[specialize] def assemble (q : Matrix F) (c : Array F) (f : Matrix F) (d : Array F) :
    Quadratic F where
  q := Matrix.ofFn (.packed c.size) q.entry
  c := .column c
  f := f
  d := .column d

@[specialize] def assemble? (q : Matrix F) (c : Array F) (f : Matrix F) (d : Array F) :
    Option (Quadratic F) :=
  if Fits q c f d then some (assemble q c f d) else none

@[specialize] def ofParts (q : Matrix F) (c : Array F) (f : Matrix F) (d : Array F) :
    Except ShapeError (Quadratic F) :=
  let n := q.rows
  let p := f.rows
  if q.rows ≠ q.cols then .error (.notSquare (q.rows * q.cols))
  else if c.size ≠ n then .error (.lenMismatch n c.size)
  else if f.cols ≠ n then .error (.lenMismatch (p * n) (p * f.cols))
  else if d.size ≠ p then .error (.lenMismatch p d.size)
  else .ok (assemble q c f d)

/-- The same, except that it is a misuse if the lengths of the error cannot be counted. -/
@[specialize] def ofParts? (q : Matrix F) (c : Array F) (f : Matrix F) (d : Array F) :
    Option (Except ShapeError (Quadratic F)) :=
  match ofParts q c f d with
  | .ok g => some (.ok g)
  | .error e => if e.Counted then some (.error e) else none

@[inline] def dim (f : Quadratic F) : Nat := f.c.rows

def scratch (f : Quadratic F) : Scratch F :=
  ⟨Matrix.zeros (.packed f.dim), Matrix.zeros (.general f.dim 1)⟩

@[inline] def curvature (f : Quadratic F) (t : F) (r c : Nat) : F :=
  Scalar.two * f.q.entry r c + if r = c then Scalar.recip t else 0

@[inline] def slope (f : Quadratic F) (t : F) (v : Array F) (r _c : Nat) : F :=
  f.c.entry r 0 - v.getD r 0 * Scalar.recip t

/-- The program that a proximal point of the block solves. -/
@[specialize] def program (f : Quadratic F) (s : Scratch F) (t : F) (v : Array F) :
    Qp.Program F where
  p := s.p.refill (f.curvature t)
  q := s.q.refill (f.slope t v)
  g := f.f
  h := f.d

@[specialize] def prox {β : Type} (f : Quadratic F) (b : Qp.Backend β F) :
    Prox (Scratch F × β) F where
  dim := f.dim
  eval t v := fun w =>
    let (s, β) := w.state
    let prog := f.program s t v
    let s := ⟨prog.p, prog.q⟩
    match b.solve prog f.dim β with
    | .ok x β => .ok x (w.withState (s, β))
    | .error h β => .error h (w.withState (s, β))

end Quadratic

end Splitting
