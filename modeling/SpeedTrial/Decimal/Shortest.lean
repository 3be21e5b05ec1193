import SpeedTrial.Numeric.Binary64

/-!
# The fewest digits that read back

The reals that round to a given double form an interval around it.  A decimal with `n`
digits reads back as that double exactly if it lies in the interval, and if any does, one of
the two decimals next to the double does.  So the digits are found by testing, for one digit,
two digits, and so on, the two neighbours on that decimal grid in exact arithmetic.

* `Interval.ofParts` is the interval of a double.
* `shortest?` is the first grid point found, as digits and a power of ten.
-/

namespace SpeedTrial.Decimal

open SpeedTrial.Numeric

/-! ## The interval that rounds to a double -/

/-- A positive number with the interval around it, all three over one denominator. -/
structure Interval where
  lower : Nat
  value : Nat
  upper : Nat
  scale : Nat
  /-- Whether the two ends belong to the interval. -/
  closed : Bool
  deriving Repr

/-- The reals that round to `significand · 2 ^ exponent`.  Just below a power of two doubles
are twice as dense, so there the lower end is nearer; the ends round to the double exactly
if its significand is even. -/
def Interval.ofParts (p : Parts) : Interval :=
  let m := p.significand
  let below := if m = twoPow 52 ∧ p.exponent ≠ -1074 then 1 else 2
  let shift := p.exponent - 2
  let unit := if shift ≥ 0 then twoPow shift.toNat else 1
  { lower := (4 * m - below) * unit
    value := 4 * m * unit
    upper := (4 * m + 2) * unit
    scale := if shift ≥ 0 then 1 else twoPow (-shift).toNat
    closed := m % 2 = 0 }

/-- The same interval measured in units of `10 ^ power`. -/
def Interval.inUnitsOf (i : Interval) (power : Int) : Interval :=
  if power ≥ 0 then { i with scale := i.scale * tenPow power.toNat }
  else
    let f := tenPow (-power).toNat
    { i with lower := i.lower * f, value := i.value * f, upper := i.upper * f }

/-- Whether the whole number `c` lies in the interval. -/
def Interval.contains (i : Interval) (c : Nat) : Bool :=
  let x := c * i.scale
  if i.closed then i.lower ≤ x && x ≤ i.upper else i.lower < x && x < i.upper

/-- The power of ten of the leading digit, found from the binary length and then corrected
by comparison. -/
def Interval.leadingPower (i : Interval) : Int :=
  let bits : Int := (i.value.log2 : Int) - (i.scale.log2 : Int)
  let guess := Int.fdiv (bits * 1233) 4096
  let reaches (power : Int) : Bool :=
    let j := i.inUnitsOf power
    j.scale ≤ j.value
  if reaches (guess + 1) then guess + 1
  else if reaches guess then guess
  else guess - 1

/-! ## Choosing the digits -/

/-- Digits and the power of ten of the last of them. -/
structure Digits where
  digits : Nat
  power : Int
  deriving DecidableEq, Repr

/-- Moves trailing zeros into the power of ten, at most `fuel` of them. -/
def Digits.trim : (fuel : Nat) → Digits → Digits
  | 0, d => d
  | fuel + 1, d =>
    if d.digits ≠ 0 ∧ d.digits % 10 = 0 then trim fuel ⟨d.digits / 10, d.power + 1⟩ else d

/-- Of the two whole numbers next to the value, the one that lies in the interval; of two
that do the nearer, and of two equally near the one that `tie` names. -/
def Interval.neighbour? (i : Interval) (tie : Tie) : Option Nat :=
  let lo := i.value / i.scale
  match i.contains lo, i.contains (lo + 1) with
  | true, true => some (roundDiv i.value i.scale tie)
  | true, false => some lo
  | false, true => some (lo + 1)
  | false, false => none

/-- The neighbour on the grid with the given number of digits. -/
def Interval.onGrid? (i : Interval) (tie : Tie) (digits : Nat) : Option Digits :=
  let power := i.leadingPower + 1 - digits
  ((i.inUnitsOf power).neighbour? tie).map fun c => (Digits.mk c power).trim 20

/-- The shortest decimal that reads back as the given nonzero finite double, and the nearest
of these.  Seventeen digits are always enough. -/
def shortest (p : Parts) (tie : Tie) : Digits :=
  let i := Interval.ofParts p
  ((List.range 17).findSome? fun n => i.onGrid? tie (n + 1)).getD ⟨0, 0⟩

end SpeedTrial.Decimal
