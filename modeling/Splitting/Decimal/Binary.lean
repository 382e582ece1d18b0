/-!
# Doubles as fractions

A double is read off its bits as a sign, a mantissa and a power of two. Everything that is rounded
or written from a double starts from this exact value.
-/

namespace Splitting.Decimal

/-- What the bits of a double stand for. -/
inductive Reading where
  | nan
  | infinite (negative : Bool)
  | finite (negative : Bool) (mantissa : Nat) (exponent : Int)
deriving DecidableEq

def Reading.ofFloat (x : Float) : Reading :=
  let bits := x.toBits.toNat
  let negative := bits / Nat.pow 2 63 == 1
  let exponent : Nat := bits / Nat.pow 2 52 % Nat.pow 2 11
  let fraction := bits % Nat.pow 2 52
  if exponent = 2047 then
    if fraction = 0 then .infinite negative else .nan
  else if exponent = 0 then .finite negative fraction (-1074)
  else .finite negative (Nat.pow 2 52 + fraction) ((exponent : Int) - 1075)

/-- A quotient of natural numbers; the denominator is positive. -/
structure Fraction where
  num : Nat
  den : Nat

namespace Fraction

def ofPower (m b : Nat) (e : Int) : Fraction := ⟨m * b.pow e.toNat, b.pow (-e).toNat⟩

def mulPower (q : Fraction) (b : Nat) (e : Int) : Fraction :=
  ⟨q.num * b.pow e.toNat, q.den * b.pow (-e).toNat⟩

/-- The nearest natural number; a half goes up. -/
def round (q : Fraction) : Nat := (2 * q.num + q.den) / (2 * q.den)

/-- The nearest natural number; a half goes to the even neighbour. -/
def roundEven (q : Fraction) : Nat :=
  let n := q.num / q.den
  let twice := 2 * (q.num % q.den)
  if twice < q.den then n
  else if q.den < twice then n + 1
  else n + n % 2

end Fraction

/-- The nearest integer to a double, a half going away from zero. -/
def nearestInt? (x : Float) : Option Int :=
  match Reading.ofFloat x with
  | .finite negative m e =>
    let n : Int := (Fraction.ofPower m 2 e).round
    some (if negative then -n else n)
  | _ => none

end Splitting.Decimal
