import Splitting.Matrix.Basic
import Splitting.Prox

/-!
# Quadratic programs

Minimise `xᵀ P x / 2 + qᵀ x` subject to `G x ≤ h`. A backend is a way to solve them.
-/

namespace Splitting.Qp

structure Program (F : Type) where
  /-- Symmetric; the upper triangle counts. -/
  p : Matrix F
  q : Matrix F
  g : Matrix F
  h : Matrix F

/-- Solves programs into a vector with the given number of places. -/
structure Backend (β F : Type) where
  solve : Program F → Nat → EStateM (Halt ProxError) β (Array F)

/-- The same backend, adding every program to a list beside its state. -/
def Backend.recorded {β F : Type} (b : Backend β F) : Backend (β × Array (Program F)) F where
  solve prog room := fun (s, programs) =>
    match b.solve prog room s with
    | .ok x s => .ok x (s, programs.push prog)
    | .error h s => .error h (s, programs.push prog)

end Splitting.Qp
