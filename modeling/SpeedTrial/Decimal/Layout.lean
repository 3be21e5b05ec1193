import SpeedTrial.Decimal.Shortest

/-!
# Writing doubles

Two ways of writing a double are needed: with the fewest digits that read back, and with a
fixed number of places.  What differs between the texts that use the first is collected in
one record, `Layout`, so that each text states its conventions once.

* `plain` is the layout of messages, `exponential` the one of JSON numbers.
* `fixed` writes a double with a given number of places.
-/

namespace SpeedTrial.Decimal

open SpeedTrial.Numeric

/-! ## Digits on both sides of a point -/

/-- A run of zeros. -/
def zeros (n : Nat) : String := String.ofList (List.replicate n '0')

/-- Pads a text on the left with zeros to the given width. -/
def padZeros (width : Nat) (s : String) : String := zeros (width - s.length) ++ s

/-- The whole number `n / 10 ^ places`, written with that many places. -/
def withPlaces (n places : Nat) : String :=
  if places = 0 then toString n
  else s!"{n / tenPow places}." ++ padZeros places (toString (n % tenPow places))

/-! ## The fewest digits -/

/-- The conventions of a text that writes doubles with the fewest digits. -/
structure Layout where
  /-- The least and the greatest power of ten of the leading digit that is written without an
  exponent; without bounds every double is. -/
  positional : Option (Int × Int)
  /-- What follows a whole number written without an exponent. -/
  wholeSuffix : String
  /-- Which of two equally near shortest decimals is written. -/
  tie : Tie
  deriving Repr

/-- Messages write all digits out, a whole number without a point, and of two equally near
decimals the larger. -/
def plain : Layout := ⟨none, "", .up⟩

/-- JSON numbers always show that they are not integers: by `.0`, or by an exponent when the
leading digit stands for less than `10 ^ -5` or more than `10 ^ 15`. -/
def exponential : Layout := ⟨some (-5, 15), ".0", .toEven⟩

/-- Writes digits without an exponent. -/
def Digits.positional (d : Digits) (wholeSuffix : String) : String :=
  if d.power ≥ 0 then toString d.digits ++ zeros d.power.toNat ++ wholeSuffix
  else withPlaces d.digits (-d.power).toNat

/-- Writes digits as one digit, the others behind a point, and an exponent with its sign. -/
def Digits.scientific (d : Digits) : String :=
  let text := toString d.digits
  let lead := d.power + (text.length - 1 : Nat)
  let rest := text.drop 1
  let point := if rest.isEmpty then "" else "."
  let sign := if lead < 0 then "-" else "+"
  s!"{text.take 1}{point}{rest}e{sign}{lead.natAbs}"

/-- The power of ten that the leading digit stands for. -/
def Digits.leadingPower (d : Digits) : Int := d.power + ((toString d.digits).length - 1 : Nat)

/-- Writes digits as the layout asks. -/
def Layout.text (l : Layout) (d : Digits) : String :=
  match l.positional with
  | none => d.positional l.wholeSuffix
  | some (least, greatest) =>
    if least ≤ d.leadingPower ∧ d.leadingPower ≤ greatest then d.positional l.wholeSuffix
    else d.scientific

/-- The sign of a number that is written with one. -/
def sign (negative : Bool) : String := if negative then "-" else ""

/-- Writes an infinity or a not-a-number. -/
def notFinite (x : Float) : String :=
  if x.isNaN then "NaN" else sign (signBit x) ++ "inf"

/-- Writes a double with the fewest digits that read back. -/
def Layout.format (l : Layout) (x : Float) : String :=
  match parts? x with
  | none => notFinite x
  | some p =>
    sign p.negative ++
      (if p.significand = 0 then "0" ++ l.wholeSuffix else l.text (shortest p l.tie))

/-! ## A fixed number of places -/

/-- A finite double in units of `10 ^ -places`, a half going to the even neighbour. -/
def scaledMagnitude (p : Parts) (places : Nat) : Nat :=
  if p.exponent ≥ 0 then p.significand * twoPow p.exponent.toNat * tenPow places
  else roundDiv (p.significand * tenPow places) (twoPow (-p.exponent).toNat) .toEven

/-- Writes a double with the given number of places.  What rounds to zero keeps its sign. -/
def fixed (places : Nat) (x : Float) : String :=
  match parts? x with
  | none => notFinite x
  | some p => sign p.negative ++ withPlaces (scaledMagnitude p places) places

end SpeedTrial.Decimal
