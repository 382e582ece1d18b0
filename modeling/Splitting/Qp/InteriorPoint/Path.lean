import Splitting.Qp.InteriorPoint.Step

/-!
# Following the path

Scales a program, finds a point to start from, and takes steps until the outcome shows.
-/

namespace Splitting.Qp.InteriorPoint

open Unboxed

/-- Adds to all entries so that the least of them is well above zero. -/
def lifted (a : FloatArray) : FloatArray :=
  let least := a.size.fold (fun i _ m => min m (get a i)) (1.0 / 0.0)
  let positive := sum a.size fun i => max 0.0 (get a i)
  let target := max 1.0 (0.1 * positive / a.size.toFloat)
  if least ≤ 0.0 then map (· + target) (map (· - least) a)
  else if least < target then map (· + (target - least)) a
  else a

/-- The start: the least squares solution, its slacks and multipliers lifted. -/
def start? (d : Data) : Option Point := do
  let newton := Newton.make d (ones d.cons)
  if d.isLinear then
    let (x, s) ← newton.solve? (zeros d.vars) d.h
    let (_, z) ← newton.solve? (neg d.q) (zeros d.cons)
    return ⟨x, lifted z, lifted (neg s), 1.0, 1.0⟩
  else
    let (x, z) ← newton.solve? (neg d.q) d.h
    return ⟨x, lifted z, lifted (neg z), 1.0, 1.0⟩

/-- Takes at most `fuel` steps. `taken` counts the steps so far; `before` is the point that the
last of them left. -/
def follow (t : Task) (tol : Tolerances) (before : Point × Progress) (fuel taken : Nat)
    (v : Point) : Outcome :=
  let r := residuals t.data v
  let g := progress t v r
  match outcome? t v g tol with
  | some o => o
  | none =>
    if 1 < taken && g.isWorse before.2 tol then finish t before.1 (g.withErrors before.2)
    else match fuel with
      | 0 => finish t v g
      | fuel + 1 =>
        match advance? t.data v r (taken == 0) with
        | none => finish t v g
        | some w => follow t tol (v, g) fuel (taken + 1) w

/-- Solves a program in at most `limit` steps, to the accuracy `tol`. -/
def solve (d : Data) (limit : Nat) (tol : Float) : Outcome :=
  if d.isFinite then
    let (data, scaling) := Scaling.balance d
    let t : Task := ⟨data, scaling, maxAbs d.q, maxAbs d.h⟩
    match start? data with
    | none => .failed
    | some v => follow t (.full tol) (v, progress t v (residuals data v)) limit 0 v
  else .failed

end Splitting.Qp.InteriorPoint
