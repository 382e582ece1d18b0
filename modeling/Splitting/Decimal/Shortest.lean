import Splitting.Decimal.Scientific

/-!
# Shortest notation

The fewest digits from which a double can be read back, and of those the nearest to it. Two
layouts use them: one without exponents, and one that turns to exponents for very large and very
small magnitudes.
-/

namespace Splitting.Decimal

/-- The numbers that are read back as the same double: `low * unit` to `high * unit`, where `unit`
is `2 ^ exponent`. -/
structure Interval where
  low : Nat
  value : Nat
  high : Nat
  exponent : Int
  /-- Whether the ends belong to it. -/
  closed : Bool

/-- Half the way to each neighbour. Below a power of two the neighbour is nearer. -/
def Interval.around (m : Nat) (e : Int) : Interval where
  low := if m = Nat.pow 2 52 ∧ -1074 < e then 4 * m - 1 else 4 * m - 2
  value := 4 * m
  high := 4 * m + 2
  exponent := e - 2
  closed := m % 2 == 0

/-- Compares `d * 10 ^ p` with `v * 2 ^ e`. -/
def compareScaled (d : Nat) (p : Int) (v : Nat) (e : Int) : Ordering :=
  compare (d * Nat.pow 10 p.toNat * Nat.pow 2 (-e).toNat)
    (v * Nat.pow 2 e.toNat * Nat.pow 10 (-p).toNat)

def Interval.contains (i : Interval) (d : Nat) (p : Int) : Bool :=
  let low := compareScaled d p i.low i.exponent
  let high := compareScaled d p i.high i.exponent
  (low == .gt || i.closed && low == .eq) && (high == .lt || i.closed && high == .eq)

/-- The nearest of the two points beside the value on the grid of multiples of `10 ^ p` that lies in
the interval; of two equally near ones the upper. -/
def Interval.onGrid? (i : Interval) (p : Int) : Option Nat :=
  let q := (Fraction.ofPower i.value 2 i.exponent).mulPower 10 (-p)
  let below := q.num / q.den
  let nearer := if 2 * (q.num % q.den) < q.den then [below, below + 1] else [below + 1, below]
  nearer.find? fun d => i.contains d p

def Scaled.trim : Nat → Scaled → Scaled
  | 0, s => s
  | fuel + 1, s =>
    if s.digits % 10 = 0 ∧ s.digits ≠ 0 then trim fuel ⟨s.digits / 10, s.exponent + 1⟩ else s

/-- The first grid with a point in the interval, from `left` to one digit fewer each time. -/
def Interval.coarsest (i : Interval) : Nat → Int → Scaled
  | 0, p => ⟨(i.onGrid? p).getD 0, p⟩
  | left + 1, p =>
    match i.onGrid? p with
    | some d => ⟨d, p⟩
    | none => i.coarsest left (p - 1)

/-- The shortest digits of a positive double `m * 2 ^ e`. -/
def shortest (m : Nat) (e : Int) : Scaled :=
  ((Interval.around m e).coarsest 17 (Fraction.ofPower m 2 e).leading).trim 20

/-! ## Layouts -/

/-- The digits with a point and without an exponent; `least` is the least number of digits after
the point. -/
def Scaled.plain (least : Nat) (s : Scaled) : String :=
  let ds := s.digits.repr
  let whole (text : String) := if least = 0 then text else text ++ "." ++ "".pushn '0' least
  if 0 ≤ s.exponent then whole (ds.pushn '0' s.exponent.toNat)
  else
    let places := (-s.exponent).toNat
    let ds := ("".pushn '0' (places + 1 - ds.length) ++ ds).toList
    let cut := ds.length - places
    String.ofList (ds.take cut) ++ "." ++ String.ofList (ds.drop cut)

def Scaled.exponential (s : Scaled) : String :=
  let ds := s.digits.repr
  pointed ds ++ "e" ++ toString (s.exponent + (ds.length - 1 : Nat))

/-- How a double is written in its shortest digits. -/
structure Layout where
  /-- The least number of digits after the point. -/
  leastPlaces : Nat
  /-- The powers of ten, lower end included and upper end not, between which there is no exponent;
  `none` for no exponent anywhere. -/
  positional : Option (Int × Int)

def Layout.text (l : Layout) (x : Float) : String :=
  match Reading.ofFloat x with
  | .nan => "NaN"
  | .infinite negative => signed negative "inf"
  | .finite negative m e =>
    let s := if m = 0 then ⟨0, 0⟩ else shortest m e
    let k := s.exponent + (s.digits.repr.length - 1 : Nat)
    let positional := m = 0 ∨ l.positional.all fun (low, high) => low ≤ k && k < high
    signed negative (if positional then s.plain l.leastPlaces else s.exponential)

/-- Values in a log: at least one place, and exponents below `1e-4` and from `1e16` on. -/
def detailed : Layout := ⟨1, some (-4, 16)⟩

/-- Values that were set by hand: never an exponent, no needless place. -/
def positional : Layout := ⟨0, none⟩

end Splitting.Decimal
