import Splitting.Random.Source
import Splitting.Random.Ziggurat

/-!
# The xoshiro256** generator

A generator of 64-bit words with four words of state, and the draws made from its words.
-/

namespace Splitting.Random

structure Xoshiro where
  s0 : UInt64
  s1 : UInt64
  s2 : UInt64
  s3 : UInt64

namespace Xoshiro

def rotateLeft (x k : UInt64) : UInt64 := (x <<< k) ||| (x >>> (64 - k))

/-! ## Words -/

def scramble (x : UInt64) : UInt64 :=
  let z := (x ^^^ (x >>> 30)) * 0xbf58476d1ce4e5b9
  let z := (z ^^^ (z >>> 27)) * 0x94d049bb133111eb
  z ^^^ (z >>> 31)

/-- The state whose words are four scrambled counters after the seed. -/
def ofSeed (seed : UInt64) : Xoshiro :=
  let word (k : UInt64) := scramble (seed + k * 0x9e3779b97f4a7c15)
  ⟨word 1, word 2, word 3, word 4⟩

def next (g : Xoshiro) : UInt64 × Xoshiro :=
  let s2 := g.s2 ^^^ g.s0
  let s3 := g.s3 ^^^ g.s1
  (rotateLeft (g.s1 * 5) 7 * 9,
    ⟨g.s0 ^^^ s3, g.s1 ^^^ s2, s2 ^^^ (g.s1 <<< 17), rotateLeft s3 45⟩)

/-! ## Draws -/

def uniform (g : Xoshiro) : Float × Xoshiro :=
  let (w, g) := g.next
  ((w >>> 11).toFloat * Float.ofBits 0x3ca0000000000000, g)

/-- The upper 52 bits as a fraction, moved off both ends of the interval. -/
def openUniform (g : Xoshiro) : Float × Xoshiro :=
  let (w, g) := g.next
  (Float.ofBits ((w >>> 12) ||| 0x3ff0000000000000) - (1.0 - Float.ofBits 0x3ca0000000000000), g)

/-- True with probability `p`. Certainty draws no word. -/
def chance (p : Float) (g : Xoshiro) : Bool × Xoshiro :=
  if p == 1.0 then (true, g)
  else
    let (w, g) := g.next
    (w < (p * 18446744073709551616.0).toUInt64, g)

def attempts : Nat := 10000

/-- A distance beyond the edge of the tail, drawn until one is accepted. -/
def tailExcess : Nat → Xoshiro → Float × Xoshiro
  | 0, g => (0.0, g)
  | fuel + 1, g =>
    let (a, g) := g.openUniform
    let (b, g) := g.openUniform
    let x := a.log / Ziggurat.tail
    let y := b.log
    if -2.0 * y < x * x then tailExcess fuel g else (x, g)

/-- A point under the bell curve, drawn layer by layer until one is accepted. -/
def normalWithin : Nat → Xoshiro → Float × Xoshiro
  | 0, g => (0.0, g)
  | fuel + 1, g =>
    let (w, g) := g.next
    let i := (w &&& 0xff).toNat
    let u := Float.ofBits ((w >>> 12) ||| 0x4000000000000000) - 3.0
    let x := u * Ziggurat.edges.getD i 0.0
    if x.abs < Ziggurat.edges.getD (i + 1) 0.0 then (x, g)
    else if i = 0 then
      let (x, g) := tailExcess attempts g
      (if u < 0.0 then x - Ziggurat.tail else Ziggurat.tail - x, g)
    else
      let (v, g) := g.uniform
      let low := Ziggurat.heights.getD (i + 1) 0.0
      let high := Ziggurat.heights.getD i 0.0
      if low + (high - low) * v < (-x * x / 2.0).exp then (x, g) else normalWithin fuel g

def normal (g : Xoshiro) : Float × Xoshiro := normalWithin attempts g

def source : Source Xoshiro Float := ⟨normal, uniform, chance⟩

end Xoshiro

end Splitting.Random
