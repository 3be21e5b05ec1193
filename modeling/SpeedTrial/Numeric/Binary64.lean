import SpeedTrial.Numeric.Power
import SpeedTrial.Numeric.Rounding

/-!
# Doubles as exact numbers

A finite double is a sign, a significand below `2 ^ 53` and a power of two.  This module
takes a double apart into these, and finds the double nearest to an exact quotient; whatever
else the library does with doubles beyond their basic arithmetic goes through these two.

* `parts?` decodes a double; infinities and not-a-numbers have no parts.
* `nearest` rounds a quotient to the nearest double, ties to the even significand.
* `roundedMagnitude?` is the nearest whole number, a half going away from zero.
-/

namespace SpeedTrial.Numeric

/-! ## Taking a double apart -/

/-- A finite double: `± significand · 2 ^ exponent`. -/
structure Parts where
  /-- The sign bit; zero has one too. -/
  negative : Bool
  significand : Nat
  exponent : Int
  deriving DecidableEq, Repr

/-- The exponent field of a double, as a number from 0 to 2047. -/
def exponentField (x : Float) : Nat := (x.toBits.toNat >>> 52) % 2048

/-- The fraction field of a double, its lowest 52 bits. -/
def fractionField (x : Float) : Nat := x.toBits.toNat % twoPow 52

/-- The sign bit of a double. -/
def signBit (x : Float) : Bool := x.toBits.toNat >>> 63 == 1

/-- The exact value of a finite double; `none` for an infinity and for not-a-number. -/
def parts? (x : Float) : Option Parts :=
  match exponentField x with
  | 2047 => none
  | 0 => some ⟨signBit x, fractionField x, -1074⟩
  | e + 1 => some ⟨signBit x, fractionField x + twoPow 52, (e : Int) - 1074⟩

/-- Not-a-number. -/
def notANumber : Float := Float.ofBits 0x7FF8000000000000

/-! ## Rounding to a double -/

/-- The bits of positive infinity. -/
def infinityBits : Nat := 2047 * twoPow 52

/-- The double with the given sign and the given bits below the sign. -/
def ofMagnitudeBits (negative : Bool) (bits : Nat) : Float :=
  Float.ofBits (UInt64.ofNat ((if negative then twoPow 63 else 0) + bits))

/-- The exponent of the grid of doubles that `num / den` is rounded on: the quotient has 53
bits on it, unless it is so small that the grid cannot get finer. -/
def gridExponent (num den : Nat) : Int :=
  let guess : Int := (num.log2 : Int) - (den.log2 : Int) - 52
  let reaches := if guess ≥ 0 then den * twoPow (guess.toNat + 52) ≤ num
    else den * twoPow 52 ≤ num * twoPow (-guess).toNat
  max (if reaches then guess else guess - 1) (-1074)

/-- The double nearest to `± num / den`, ties to the even significand. -/
def nearest (negative : Bool) (num den : Nat) : Float :=
  if num = 0 then ofMagnitudeBits negative 0
  else
    let e := gridExponent num den
    let m := if e ≥ 0 then roundDiv num (den * twoPow e.toNat) .toEven
      else roundDiv (num * twoPow (-e).toNat) den .toEven
    ofMagnitudeBits negative (min ((e + 1074).toNat * twoPow 52 + m) infinityBits)

/-- The double nearest to `± num · 2 ^ shift`, ties to the even significand. -/
def nearestScaled (negative : Bool) (num : Nat) (shift : Int) : Float :=
  if shift ≥ 0 then nearest negative (num * twoPow shift.toNat) 1
  else nearest negative num (twoPow (-shift).toNat)

/-- The double nearest to a natural number. -/
def ofCount (n : Nat) : Float := nearest false n 1

/-! ## Rounding a double to a whole number -/

/-- The whole number nearest to `significand · 2 ^ exponent`, a half going up. -/
def Parts.roundedMagnitude (p : Parts) : Nat :=
  if p.exponent ≥ 0 then p.significand * twoPow p.exponent.toNat
  else roundDiv p.significand (twoPow (-p.exponent).toNat) .up

/-- The greatest whole number not above `significand · 2 ^ exponent`. -/
def Parts.floorMagnitude (p : Parts) : Nat :=
  if p.exponent ≥ 0 then p.significand * twoPow p.exponent.toNat
  else p.significand / twoPow (-p.exponent).toNat

/-- The least whole number not below `significand · 2 ^ exponent`. -/
def Parts.ceilingMagnitude (p : Parts) : Nat :=
  if p.exponent ≥ 0 then p.significand * twoPow p.exponent.toNat
  else
    let den := twoPow (-p.exponent).toNat
    (p.significand + (den - 1)) / den

/-- Words of 64 bits end here. -/
def wordLimit : Nat := twoPow 64

/-- The largest word of 64 bits. -/
def maxWord : Nat := wordLimit - 1

/-- Moves a double to a word by a rule for its magnitude.  What is below 0 becomes 0, what is
above the largest word becomes that word, and not-a-number becomes 0. -/
def toWord (rule : Parts → Nat) (x : Float) : Nat :=
  match parts? x with
  | some p => if p.negative then 0 else min (rule p) maxWord
  | none => if x.isNaN || signBit x then 0 else maxWord

/-- The nearest word, a half going up. -/
def roundToWord : Float → Nat := toWord Parts.roundedMagnitude

/-- The greatest word not above a double. -/
def truncToWord : Float → Nat := toWord Parts.floorMagnitude

/-- The least word not below a double. -/
def ceilToWord : Float → Nat := toWord Parts.ceilingMagnitude

end SpeedTrial.Numeric
