import SpeedTrial.Toml.Node
import SpeedTrial.Decimal.Reader

/-!
# TOML numbers and moments

Integers have 64 bits with a sign and are written in base ten, or without a sign in base
sixteen, eight or two.  A number with a fraction or an exponent is a double.  Between two
digits there may be an underscore.  Dates and times of day are checked against the calendar.

Every reader takes the characters that are left and gives back what it read together with
the characters after it, or nothing.
-/

namespace SpeedTrial.Toml

open SpeedTrial.Decimal SpeedTrial.Numeric

/-! ## Digits -/

/-- Further digits, each with or without an underscore before it. -/
def moreDigits? (isDigit : Char → Bool) : List Char → Option (List Char × List Char)
  | [] => some ([], [])
  | '_' :: c :: rest =>
    if isDigit c then (moreDigits? isDigit rest).map fun (ds, r) => (c :: ds, r) else none
  | '_' :: [] => none
  | c :: rest =>
    if isDigit c then (moreDigits? isDigit rest).map fun (ds, r) => (c :: ds, r)
    else some ([], c :: rest)

/-- Digits with underscores between them. -/
def digits? (isDigit : Char → Bool) : List Char → Option (List Char × List Char)
  | [] => none
  | c :: rest =>
    if isDigit c then (moreDigits? isDigit rest).map fun (ds, r) => (c :: ds, r) else none

/-- Whether a character is a digit in base ten. -/
def isDecimal (c : Char) : Bool := (digit? c).isSome

/-- The digits of a whole number in base ten: it begins with a zero only if it is zero. -/
def wholeDigits? : List Char → Option (List Char × List Char)
  | '0' :: rest => some (['0'], rest)
  | cs => digits? isDecimal cs

/-- The value of digits in a base up to sixteen. -/
def valueIn (base : Nat) (ds : List Char) : Nat :=
  ds.foldl (fun acc c =>
    let d := if isDecimal c then c.toNat - '0'.toNat else c.toLower.toNat - 'a'.toNat + 10
    base * acc + d) 0

/-! ## Integers -/

/-- An integer that fits into 64 bits with a sign. -/
def integer? (n : Int) : Option Node :=
  if -(twoPow 63 : Int) ≤ n ∧ n < twoPow 63 then some (.integer n) else none

/-- Whether a character is a digit in a base up to sixteen. -/
def isDigitIn (base : Nat) (c : Char) : Bool :=
  if isDecimal c then c.toNat - '0'.toNat < base
  else base = 16 ∧ (('a' ≤ c ∧ c ≤ 'f') ∨ ('A' ≤ c ∧ c ≤ 'F'))

/-- An integer in another base, without the mark of the base. -/
def based? (base : Nat) (cs : List Char) : Option (Node × List Char) := do
  let (ds, rest) ← digits? (isDigitIn base) cs
  return (← integer? (valueIn base ds), rest)

/-! ## Doubles -/

/-- A sign in front of a number, if there is one: whether it is a minus, and the rest. -/
def sign? : List Char → Bool × List Char
  | '-' :: rest => (true, rest)
  | '+' :: rest => (false, rest)
  | cs => (false, cs)

/-- An exponent, without its mark. -/
def exponent? (cs : List Char) : Option (Int × List Char) := do
  let (negative, cs) := sign? cs
  let (ds, rest) ← digits? isDecimal cs
  let n : Int := valueIn 10 ds
  return (if negative then -n else n, rest)

/-- A decimal as a double; one that is too large has no double, but one that is too small for
all doubles is minus infinity. -/
def decimal? (negative : Bool) (ds : List Char) (power : Int) : Option Node :=
  let x := ofDecimal negative (valueIn 10 ds) power
  if x.isFinite || negative then some (.double x) else none

/-- What follows the whole part of a number: a fraction, an exponent, or nothing. -/
def afterWhole? (negative : Bool) (whole : List Char) :
    List Char → Option (Node × List Char)
  | 'e' :: rest => do
    let (power, rest) ← exponent? rest
    return (← decimal? negative whole power, rest)
  | 'E' :: rest => do
    let (power, rest) ← exponent? rest
    return (← decimal? negative whole power, rest)
  | '.' :: rest => do
    let (fraction, rest) ← digits? isDecimal rest
    let (power, rest) ← match rest with
      | 'e' :: rest => exponent? rest
      | 'E' :: rest => exponent? rest
      | rest => some (0, rest)
    return (← decimal? negative (whole ++ fraction) (power - fraction.length), rest)
  | rest => do
    let n : Int := valueIn 10 whole
    return (← integer? (if negative then -n else n), rest)

/-- An infinity or not-a-number. -/
def special? (negative : Bool) : List Char → Option (Node × List Char)
  | 'i' :: 'n' :: 'f' :: rest => some (.double (ofMagnitudeBits negative infinityBits), rest)
  | 'n' :: 'a' :: 'n' :: rest => some (.double notANumber, rest)
  | _ => none

/-- A number of any kind. -/
def number? (cs : List Char) : Option (Node × List Char) :=
  match cs with
  | '0' :: 'x' :: rest => based? 16 rest
  | '0' :: 'o' :: rest => based? 8 rest
  | '0' :: 'b' :: rest => based? 2 rest
  | cs =>
    let (negative, cs) := sign? cs
    match special? negative cs with
    | some r => some r
    | none =>
      match wholeDigits? cs with
      | none => none
      | some (whole, rest) => afterWhole? negative whole rest

/-! ## Moments -/

/-- A number of exactly so many digits within bounds. -/
def field? (width least greatest : Nat) (cs : List Char) : Option (Nat × List Char) :=
  let ds := cs.take width
  if ds.length = width ∧ ds.all isDecimal then
    let n := valueIn 10 ds
    if least ≤ n ∧ n ≤ greatest then some (n, cs.drop width) else none
  else none

/-- A given character. -/
def expect? (c : Char) : List Char → Option (List Char)
  | d :: rest => if c = d then some rest else none
  | [] => none

/-- The number of days of a month. -/
def daysOfMonth (year month : Nat) : Nat :=
  if month = 2 then
    if year % 4 = 0 ∧ (year % 100 ≠ 0 ∨ year % 400 = 0) then 29 else 28
  else if month = 4 ∨ month = 6 ∨ month = 9 ∨ month = 11 then 30
  else 31

/-- What follows a date. -/
def date? (cs : List Char) : Option (List Char) := do
  let (year, cs) ← field? 4 0 9999 cs
  let cs ← expect? '-' cs
  let (month, cs) ← field? 2 1 12 cs
  let cs ← expect? '-' cs
  let (_, cs) ← field? 2 1 (daysOfMonth year month) cs
  return cs

/-- What follows a fraction of a second, if there is one. -/
def afterFraction (cs : List Char) : List Char :=
  match cs with
  | '.' :: c :: rest => if isDecimal c then rest.dropWhile isDecimal else cs
  | _ => cs

/-- What follows hours and minutes. -/
def hourMinute? (cs : List Char) : Option (List Char) := do
  let (_, cs) ← field? 2 0 23 cs
  let cs ← expect? ':' cs
  let (_, cs) ← field? 2 0 59 cs
  return cs

/-- What follows a time of day; a minute may have a leap second. -/
def timeOfDay? (cs : List Char) : Option (List Char) := do
  let cs ← hourMinute? cs
  let cs ← expect? ':' cs
  let (_, cs) ← field? 2 0 60 cs
  return afterFraction cs

/-- What follows an offset from universal time, if there is one. -/
def afterOffset? : List Char → Option (List Char)
  | 'Z' :: rest => some rest
  | 'z' :: rest => some rest
  | '+' :: rest => hourMinute? rest
  | '-' :: rest => hourMinute? rest
  | cs => some cs

/-- What follows the time behind a date, if there is one.  After a blank there need not be a
time. -/
def afterTime? (cs : List Char) : Option (List Char) :=
  match cs with
  | c :: rest =>
    if c = 'T' ∨ c = 't' ∨ c = ' ' then
      match timeOfDay? rest with
      | some rest => afterOffset? rest
      | none => some cs
    else some cs
  | [] => some []

/-- What follows a date, a time of day, or both. -/
def moment? (cs : List Char) : Option (List Char) :=
  match date? cs with
  | some rest => afterTime? rest
  | none => timeOfDay? cs

end SpeedTrial.Toml
