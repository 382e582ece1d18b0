import Splitting.Decimal.Binary

/-!
# Scientific notation

A double in scientific notation with a fixed number of places, correctly rounded from its exact
value; a half goes to the even neighbour.
-/

namespace Splitting.Decimal

/-- The number of decimal digits; zero has none. -/
def digitCount (n : Nat) : Nat := if n = 0 then 0 else n.repr.length

/-- The `k` with `10 ^ k ≤ q < 10 ^ (k + 1)`, for a positive fraction. -/
def Fraction.leading (q : Fraction) : Int :=
  if q.den ≤ q.num then (digitCount (q.num / q.den) : Int) - 1
  else -(digitCount ((q.den + q.num - 1) / q.num - 1) : Int)

structure Scaled where
  digits : Nat
  exponent : Int
deriving DecidableEq

/-- A positive fraction rounded to `places + 1` digits. -/
def Fraction.toPlaces (places : Nat) (q : Fraction) : Scaled :=
  let k := q.leading
  let n := (q.mulPower 10 (places - k)).roundEven
  if n = Nat.pow 10 (places + 1) then ⟨Nat.pow 10 places, k + 1 - places⟩ else ⟨n, k - places⟩

/-- A point after the first digit, if more follow. -/
def pointed (digits : String) : String :=
  match digits.toList with
  | d :: e :: ds => String.ofList (d :: '.' :: e :: ds)
  | ds => String.ofList ds

def signed (negative : Bool) (text : String) : String := if negative then "-" ++ text else text

/-- `1.50e-3`, with `places` digits after the point. -/
def scientific (places : Nat) (x : Float) : String :=
  match Reading.ofFloat x with
  | .nan => "NaN"
  | .infinite negative => signed negative "inf"
  | .finite negative m e =>
    if m = 0 then signed negative (pointed ("".pushn '0' (places + 1)) ++ "e0")
    else
      let s := (Fraction.ofPower m 2 e).toPlaces places
      signed negative (pointed s.digits.repr ++ "e" ++ toString (s.exponent + places))

end Splitting.Decimal
