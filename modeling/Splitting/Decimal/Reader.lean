/-!
# Reading numbers

Counts are read as an optional plus and digits, within a limit. Doubles are read in positional or
scientific notation, or as infinity or not a number in any case, and rounded correctly.
-/

namespace Splitting.Decimal

def isDigit (c : Char) : Bool := '0' ≤ c && c ≤ '9'

def digitsValue (ds : List Char) : Nat := ds.foldl (fun n c => 10 * n + (c.toNat - '0'.toNat)) 0

/-- A number below `limit`: an optional plus, then one or more digits. -/
def readCount? (limit : Nat) (text : String) : Option Nat :=
  let ds := match text.toList with
    | '+' :: ds => ds
    | ds => ds
  if ds.isEmpty ∨ !ds.all isDigit then none
  else
    let n := digitsValue ds
    if n < limit then some n else none

/-- A decimal number without its sign: the digits before and after the point, and the exponent. -/
structure Literal where
  whole : List Char
  places : List Char
  exponent : Int

/-- An optional sign, then one or more digits. -/
def readExponent? (cs : List Char) : Option Int :=
  let (negative, ds) := match cs with
    | '-' :: ds => (true, ds)
    | '+' :: ds => (false, ds)
    | ds => (false, ds)
  if ds.isEmpty ∨ !ds.all isDigit then none
  else some (if negative then -(digitsValue ds : Int) else digitsValue ds)

def Literal.read? (cs : List Char) : Option Literal :=
  let whole := cs.takeWhile isDigit
  let rest := cs.dropWhile isDigit
  let (places, rest) := match rest with
    | '.' :: rest => (rest.takeWhile isDigit, rest.dropWhile isDigit)
    | rest => ([], rest)
  if whole.isEmpty && places.isEmpty then none
  else match rest with
    | [] => some ⟨whole, places, 0⟩
    | c :: rest =>
      if c = 'e' ∨ c = 'E' then (readExponent? rest).map fun e => ⟨whole, places, e⟩ else none

/-- The nearest double. Beyond the range of doubles no power of ten is computed. -/
def Literal.toFloat (l : Literal) : Float :=
  let digits := (l.whole ++ l.places).dropWhile (· == '0')
  let e := l.exponent - l.places.length
  let top := e + digits.length
  if digits.isEmpty ∨ top < -400 then 0.0
  else if 400 < top then 1.0 / 0.0
  else Float.ofScientific (digitsValue digits) (e < 0) e.natAbs

def readUnsigned? (cs : List Char) : Option Float :=
  let word := String.ofList (cs.map Char.toLower)
  if word = "inf" ∨ word = "infinity" then some (1.0 / 0.0)
  else if word = "nan" then some (0.0 / 0.0)
  else (Literal.read? cs).map Literal.toFloat

def readFloat? (text : String) : Option Float :=
  match text.toList with
  | '-' :: cs => (readUnsigned? cs).map (-·)
  | '+' :: cs => readUnsigned? cs
  | cs => readUnsigned? cs

end Splitting.Decimal
