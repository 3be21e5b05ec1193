import SpeedTrial.Numeric.Power

/-!
# Raw texts

What a machine hands over as a text, such as a path or an argument, is a sequence of bytes.  The
bytes are meant to encode characters, but nothing makes sure of it.

* `RawText.text?` is the text that the bytes encode, if they do.
* `RawText.shown` is what the user is shown in any case.
-/

namespace SpeedTrial.Text

/-- A text as a machine hands it over. -/
structure RawText where
  bytes : List UInt8
  deriving DecidableEq, Repr, Inhabited

namespace RawText

/-- The bytes that encode a text. -/
def ofText (s : String) : RawText := ⟨s.toByteArray.data.toList⟩

/-- The text that the bytes encode. -/
def text? (r : RawText) : Option String := String.fromUTF8? ⟨r.bytes.toArray⟩

@[simp] theorem text?_ofText (s : String) : (ofText s).text? = some s := by
  simp only [ofText, text?, Array.toArray_toList, String.fromUTF8?]
  exact dif_pos s.isValidUTF8

/-- Whether there is not a single byte. -/
def isEmpty (r : RawText) : Bool := r.bytes.isEmpty

/-- The bytes with the capital letters of ASCII made small. -/
def lowered (r : RawText) : RawText :=
  ⟨r.bytes.map fun b => if 'A'.toUInt8 ≤ b ∧ b ≤ 'Z'.toUInt8 then b + 32 else b⟩

/-! ## What is shown -/

/-- What a byte begins: a character with so many more bytes, the first of which is within bounds. -/
structure Lead where
  more : Nat
  least : UInt8 := 0x80
  greatest : UInt8 := 0xBF

/-- What a byte begins, if it is the first one of a character.  The bounds keep out what could be
encoded with fewer bytes, the surrogates and what is beyond the last character. -/
def lead? (b : UInt8) : Option Lead :=
  if b < 0x80 then some { more := 0 }
  else if b < 0xC2 then none
  else if b < 0xE0 then some { more := 1 }
  else if b = 0xE0 then some { more := 2, least := 0xA0 }
  else if b = 0xED then some { more := 2, greatest := 0x9F }
  else if b < 0xF0 then some { more := 2 }
  else if b = 0xF0 then some { more := 3, least := 0x90 }
  else if b < 0xF4 then some { more := 3 }
  else if b = 0xF4 then some { more := 3, greatest := 0x8F }
  else none

/-- How many bytes in front go on with a character of which so many are still to come. -/
def following : (more : Nat) → (least greatest : UInt8) → List UInt8 → Nat
  | more + 1, least, greatest, b :: bs =>
    if least ≤ b ∧ b ≤ greatest then following more 0x80 0xBF bs + 1 else 0
  | _, _, _, _ => 0

/-- The character that a first byte and all others encode. -/
def decoded (first : UInt8) (others : List UInt8) : Char :=
  let head :=
    if others.isEmpty then first.toNat else first.toNat % Numeric.twoPow (6 - others.length)
  Char.ofNat (others.foldl (fun n b => 64 * n + b.toNat % 64) head)

/-- What stands for bytes that encode nothing. -/
def replacement : Char := '\uFFFD'

/-- The characters that are encoded, with one replacement for as many bytes as could have begun a
character. -/
def shownChars : List UInt8 → List Char
  | [] => []
  | b :: bs =>
    match lead? b with
    | none => replacement :: shownChars bs
    | some l =>
      let n := following l.more l.least l.greatest bs
      (if n = l.more then decoded b (bs.take n) else replacement) :: shownChars (bs.drop n)
termination_by bs => bs.length

/-- What the user is shown: the text, or as much of it as the bytes encode. -/
def shown (r : RawText) : String :=
  match r.text? with
  | some s => s
  | none => String.ofList (shownChars r.bytes)

end RawText

end SpeedTrial.Text
