import SpeedTrial.Numeric.Logarithm

/-!
# Reading numbers

The texts that are read as numbers are those of job files and command lines.  Both readers
say why a text is refused, because the reason is shown to the user.

* `readWord` reads an unsigned integer up to a limit.
* `readDouble` reads a double: the nearest one to the decimal written, ties to even.
-/

namespace SpeedTrial.Decimal

open SpeedTrial.Numeric

/-! ## Unsigned integers -/

/-- Why a text is not an unsigned integer. -/
inductive IntegerError where
  /-- There is nothing to read. -/
  | empty
  /-- A character that is not a digit, or a sign alone. -/
  | invalidDigit
  /-- The number exceeds its limit. -/
  | tooLarge
  deriving DecidableEq, Repr

/-- What the user is told. -/
def IntegerError.message : IntegerError → String
  | .empty => "cannot parse integer from empty string"
  | .invalidDigit => "invalid digit found in string"
  | .tooLarge => "number too large to fit in target type"

/-- The value of an ASCII digit. -/
def digit? (c : Char) : Option Nat :=
  if '0' ≤ c ∧ c ≤ '9' then some (c.toNat - '0'.toNat) else none

/-- The value of a run of digits; `none` if another character is among them. -/
def digitsValue? (cs : List Char) : Option Nat :=
  cs.foldl (fun acc c => do return 10 * (← acc) + (← digit? c)) (some 0)

/-- Reads one optional plus sign and at least one digit.  A number above the limit is
refused as too large even if a later character is no digit: reading goes from left to right
and stops at the first fault. -/
def readDigits (limit : Nat) : (acc : Nat) → List Char → Except IntegerError Nat
  | acc, [] => .ok acc
  | acc, c :: cs =>
    match digit? c with
    | none => .error .invalidDigit
    | some d => if 10 * acc + d ≤ limit then readDigits limit (10 * acc + d) cs else .error .tooLarge

/-- Reads an unsigned integer that is at most `limit`. -/
def readWord (limit : Nat) (s : String) : Except IntegerError Nat :=
  match s.toList with
  | [] => .error .empty
  | ['+'] => .error .invalidDigit
  | '+' :: cs => readDigits limit 0 cs
  | cs => readDigits limit 0 cs

/-! ## Doubles -/

/-- Why a text is not a double. -/
inductive DoubleError where
  | empty
  | invalid
  deriving DecidableEq, Repr

/-- What the user is told. -/
def DoubleError.message : DoubleError → String
  | .empty => "cannot parse float from empty string"
  | .invalid => "invalid float literal"

/-- The double nearest to `± digits · 10 ^ power`.  Beyond 400 decimal places on either side
of the point every number is infinite or zero. -/
def ofDecimal (negative : Bool) (digits : Nat) (power : Int) : Float :=
  if digits = 0 then ofMagnitudeBits negative 0
  else
    let lead := power + ((toString digits).length : Int)
    if lead > 400 then ofMagnitudeBits negative infinityBits
    else if lead < -400 then ofMagnitudeBits negative 0
    else if power ≥ 0 then nearest negative (digits * tenPow power.toNat) 1
    else nearest negative digits (tenPow (-power).toNat)

/-- The longest run of digits at the front, and what follows it. -/
def spanDigits (cs : List Char) : List Char × List Char :=
  cs.span fun c => (digit? c).isSome

/-- An exponent part: a sign and at least one digit up to the end of the text. -/
def readExponent? (cs : List Char) : Option Int :=
  match cs with
  | '-' :: ds => if ds.isEmpty then none else (digitsValue? ds).map fun n => -(n : Int)
  | '+' :: ds => if ds.isEmpty then none else (digitsValue? ds).map fun n => (n : Int)
  | ds => if ds.isEmpty then none else (digitsValue? ds).map fun n => (n : Int)

/-- An unsigned decimal: digits with a point among, before or behind them, then perhaps an
exponent. -/
def readDecimal? (negative : Bool) (cs : List Char) : Option Float := do
  let (whole, rest) := spanDigits cs
  let (fraction, rest) := match rest with
    | '.' :: ds => spanDigits ds
    | _ => ([], rest)
  if whole.isEmpty && fraction.isEmpty then none
  let exponent ← match rest with
    | [] => some 0
    | 'e' :: ds => readExponent? ds
    | 'E' :: ds => readExponent? ds
    | _ => none
  let digits ← digitsValue? (whole ++ fraction)
  return ofDecimal negative digits (exponent - fraction.length)

/-- A double without its sign: a decimal, or the name of an infinity or of not-a-number in
any mixture of cases. -/
def readMagnitude? (negative : Bool) (cs : List Char) : Option Float :=
  let name := String.ofList (cs.map Char.toLower)
  if name = "inf" ∨ name = "infinity" then some (ofMagnitudeBits negative infinityBits)
  else if name = "nan" then some notANumber
  else readDecimal? negative cs

/-- Reads a double, with an optional sign. -/
def readDouble (s : String) : Except DoubleError Float :=
  match s.toList with
  | [] => .error .empty
  | '-' :: cs => (readMagnitude? true cs).elim (.error .invalid) .ok
  | '+' :: cs => (readMagnitude? false cs).elim (.error .invalid) .ok
  | cs => (readMagnitude? false cs).elim (.error .invalid) .ok

end SpeedTrial.Decimal
