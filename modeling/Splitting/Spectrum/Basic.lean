import Splitting.Matrix.Basic

/-!
# Functions of a symmetric matrix

A function of the eigenvalues of a symmetric matrix gives a symmetric matrix with the same
eigenvectors. How the eigenvalues are found is left to the instance.
-/

namespace Splitting

class Spectral (F : Type) where
  /-- How much room the work on a matrix of `n` rows takes. -/
  workSize : Nat → Nat
  /-- The packed matrix `a` with `f` applied to its eigenvalues, found up to `eps`, and what the
  room for work holds then. -/
  mapEigIn : (a : Matrix F) → (eps : F) → (f : F → F) → (work : Array F) → Matrix F × Array F
  shape_mapEigIn : ∀ a eps f work, (mapEigIn a eps f work).1.shape = a.shape
  /-- What the room held before makes no difference. -/
  mapEigIn_congr : ∀ a eps f work work', (mapEigIn a eps f work).1 = (mapEigIn a eps f work').1

namespace Spectral

variable {F : Type} [Scalar F] [Spectral F]

def room (F : Type) [Scalar F] [Spectral F] (n : Nat) : Array F := Vec.zeros (workSize F n)

/-- The packed matrix `a` with `f` applied to its eigenvalues, in room of its own. -/
@[specialize] def mapEig (a : Matrix F) (eps : F) (f : F → F) : Matrix F :=
  (mapEigIn a eps f (room F a.rows)).1

theorem mapEigIn_fst (a : Matrix F) (eps : F) (f : F → F) (work : Array F) :
    (mapEigIn a eps f work).1 = mapEig a eps f :=
  mapEigIn_congr a eps f work _

@[simp] theorem shape_mapEig (a : Matrix F) (eps : F) (f : F → F) :
    (mapEig a eps f).shape = a.shape :=
  shape_mapEigIn a eps f _

end Spectral

/-- The reciprocal of what is above `tol`, and zero for the rest. -/
@[inline] def cutoffRecip {F : Type} [Scalar F] (tol e : F) : F :=
  if tol < e then Scalar.recip e else 0

@[specialize] def Matrix.trace {F : Type} [Scalar F] (m : Matrix F) : F :=
  Vec.sumBelow m.rows fun i => m.entry i i

end Splitting
