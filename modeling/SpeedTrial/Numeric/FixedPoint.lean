import SpeedTrial.Numeric.Binary64

/-!
# Logarithms and powers of two in fixed point

Numbers in fixed point have 128 fractional bits.  That is far more than a double has, so a
double that is rounded from a fixed point number is the nearest one unless the true value is
within about `2 ^ -120` of a point half way between two doubles.

* `log2Fixed` reads off the bits of a logarithm by repeated squaring.
* `exp2Fixed` sums the exponential series of `f · ln 2` for a fraction `f`.
-/

namespace SpeedTrial.Numeric

/-- The number of fractional bits. -/
def fractionBits : Nat := 128

/-- One, in fixed point. -/
def fixedOne : Nat := twoPow fractionBits

/-- The natural logarithm of two, in fixed point. -/
def fixedLn2 : Nat := 235865763225513294137944142764154484399

/-! ## Logarithms -/

/-- Guard bits carried while a logarithm is squared out. -/
def guardBits : Nat := 256

/-- Reads off `count` more bits of the logarithm of `y / 2 ^ guardBits`, a number from 1 to
2: its square is at least 2 exactly if the next bit is set. -/
def log2Bits : (count : Nat) → (y acc : Nat) → Nat
  | 0, _, acc => acc
  | count + 1, y, acc =>
    let square := (y * y) >>> guardBits
    if square ≥ twoPow (guardBits + 1) then log2Bits count (square >>> 1) (2 * acc + 1)
    else log2Bits count square (2 * acc)

/-- The logarithm to base two of a positive whole number, in fixed point. -/
def log2Fixed (m : Nat) : Nat :=
  let whole := m.log2
  whole * fixedOne + log2Bits fractionBits (m * twoPow guardBits / twoPow whole) 0

/-- The logarithm to base two of the magnitude of a double, in fixed point. -/
def Parts.log2Fixed (p : Parts) : Int :=
  Numeric.log2Fixed p.significand + p.exponent * fixedOne

/-! ## Powers -/

/-- Sums the terms `z ^ k / k!` from the given one on, at most `fuel` of them. -/
def expSeries (z : Nat) : (fuel k term sum : Nat) → Nat
  | 0, _, _, sum => sum
  | fuel + 1, k, term, sum =>
    if term = 0 then sum
    else expSeries z fuel (k + 1) (((term * z) >>> fractionBits) / (k + 1)) (sum + term)

/-- Two to the power of a fixed point fraction, itself in fixed point. -/
def exp2Fixed (f : Nat) : Nat :=
  expSeries ((f * fixedLn2) >>> fractionBits) 64 0 fixedOne 0

end SpeedTrial.Numeric
