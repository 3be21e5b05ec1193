/-!
# Blank characters and lines

Job files are read line by line, and blanks around a line, a key or a value do not count.
What is blank is the Unicode property White_Space, which is wider than the blanks of ASCII
and does not contain the zero-width characters.
-/

namespace SpeedTrial.Text

/-- Whether a character has the Unicode property White_Space. -/
def isBlank (c : Char) : Bool :=
  let n := c.toNat
  (9 ≤ n && n ≤ 13) || n == 32 || n == 0x85 || n == 0xA0 || n == 0x1680 ||
    (0x2000 ≤ n && n ≤ 0x200A) || n == 0x2028 || n == 0x2029 || n == 0x202F ||
    n == 0x205F || n == 0x3000

/-- A text without the blanks at its front and at its end. -/
def trimmed (cs : List Char) : List Char :=
  ((cs.dropWhile isBlank).reverse.dropWhile isBlank).reverse

/-! ## Lines -/

/-- The pieces between separators; there is always at least one. -/
def pieces (separator : Char) : List Char → List (List Char)
  | [] => [[]]
  | c :: cs =>
    if c = separator then [] :: pieces separator cs
    else match pieces separator cs with
      | [] => [[c]]
      | p :: ps => (c :: p) :: ps

/-- A piece that a line feed ended, without a carriage return before it. -/
def withoutReturn (cs : List Char) : List Char :=
  if cs.getLast? = some '\r' then cs.dropLast else cs

/-- Drops the line end from every piece that had one: all but the last, which is a line only
if it is not empty. -/
def endedLines : List (List Char) → List (List Char)
  | [] => []
  | [last] => if last.isEmpty then [] else [last]
  | p :: ps => withoutReturn p :: endedLines ps

/-- The lines of a text: a line feed ends a line, together with a carriage return before it;
what follows the last line feed is a line unless it is empty. -/
def lines (cs : List Char) : List (List Char) := endedLines (pieces '\n' cs)

/-- The length of a text in bytes. -/
def byteLength (cs : List Char) : Nat := cs.foldl (fun size c => size + c.utf8Size) 0

end SpeedTrial.Text
