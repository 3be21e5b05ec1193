/-!
# TOML strings

TOML has strings in two kinds of quotes, with escapes between double quotes and without
between single ones; either kind may be tripled and then reaches over several lines.

Every reader takes the characters that are left and gives back what it read together with
the characters after it, or nothing if the text is not TOML.
-/

namespace SpeedTrial.Toml

/-! ## Characters -/

/-- A blank within a line. -/
def isSpace (c : Char) : Bool := c == ' ' || c == '\t'

/-- A character that may stand in a comment and, quotes and backslashes apart, in a string:
a tabulator or anything that is not a control character of ASCII. -/
def isPlain (c : Char) : Bool := c == '\t' || (32 ≤ c.toNat && c.toNat ≠ 127)

/-- What follows the blanks within a line. -/
def skipSpace (cs : List Char) : List Char := cs.dropWhile isSpace

/-- What follows a line break. -/
def lineBreak? : List Char → Option (List Char)
  | '\n' :: rest => some rest
  | '\r' :: '\n' :: rest => some rest
  | _ => none

/-- What follows blanks and line breaks. -/
def skipLines : List Char → List Char
  | '\n' :: rest => skipLines rest
  | '\r' :: '\n' :: rest => skipLines rest
  | c :: rest => if isSpace c then skipLines rest else c :: rest
  | [] => []

/-! ## Escapes -/

/-- The value of a hexadecimal digit. -/
def hexDigit? (c : Char) : Option Nat :=
  if '0' ≤ c ∧ c ≤ '9' then some (c.toNat - '0'.toNat)
  else if 'a' ≤ c ∧ c ≤ 'f' then some (c.toNat - 'a'.toNat + 10)
  else if 'A' ≤ c ∧ c ≤ 'F' then some (c.toNat - 'A'.toNat + 10)
  else none

/-- The value of hexadecimal digits. -/
def hexValue? (cs : List Char) : Option Nat :=
  cs.foldl (fun acc c => do return 16 * (← acc) + (← hexDigit? c)) (some 0)

/-- The character with a code point; surrogates are none. -/
def character? (n : Nat) : Option Char :=
  if n < 0xD800 ∨ (0xDFFF < n ∧ n < 0x110000) then some (Char.ofNat n) else none

/-- A character written as its code point in so many hexadecimal digits. -/
def hexEscape? (digits : Nat) (cs : List Char) : Option (Char × List Char) := do
  let ds := cs.take digits
  if ds.length < digits then none
  let c ← character? (← hexValue? ds)
  return (c, cs.drop digits)

/-- What stands behind a backslash. -/
def escape? : List Char → Option (Char × List Char)
  | 'b' :: rest => some (Char.ofNat 8, rest)
  | 't' :: rest => some ('\t', rest)
  | 'n' :: rest => some ('\n', rest)
  | 'f' :: rest => some (Char.ofNat 12, rest)
  | 'r' :: rest => some ('\r', rest)
  | '"' :: rest => some ('"', rest)
  | '\\' :: rest => some ('\\', rest)
  | 'u' :: rest => hexEscape? 4 rest
  | 'U' :: rest => hexEscape? 8 rest
  | _ => none

/-! ## Bodies of strings -/

/-- The two kinds of string. -/
inductive Quote where
  /-- Between double quotes, with escapes. -/
  | basic
  /-- Between single quotes, without escapes. -/
  | literal
  deriving DecidableEq, Repr

/-- The mark of a kind of string. -/
def Quote.mark : Quote → Char
  | .basic => '"'
  | .literal => '\x27'

/-- The rest of a string on one line, with what was read before newest first.  Each step
takes at least one character. -/
def lineBody (q : Quote) : (fuel : Nat) → (acc cs : List Char) → Option (String × List Char)
  | 0, _, _ => none
  | _ + 1, _, [] => none
  | fuel + 1, acc, c :: rest =>
    if c = q.mark then some (String.ofList acc.reverse, rest)
    else if c = '\\' ∧ q = .basic then
      match escape? rest with
      | none => none
      | some (e, rest) => lineBody q fuel (e :: acc) rest
    else if isPlain c then lineBody q fuel (c :: acc) rest
    else none

/-- Whether a backslash that this text follows joins two lines: only blanks come before the
end of the line. -/
def joinsLines (cs : List Char) : Bool := (lineBreak? (skipSpace cs)).isSome

/-- The rest of a string over several lines.  Three marks end it, and up to two more before
them belong to it; a line break is a line feed whatever it is in the text; and a backslash at
the end of a line takes all blanks and line breaks after it away. -/
def textBody (q : Quote) : (fuel : Nat) → (acc cs : List Char) → Option (String × List Char)
  | 0, _, _ => none
  | _ + 1, _, [] => none
  | fuel + 1, acc, c :: rest =>
    if c = q.mark then
      let marks := 1 + (rest.takeWhile (· = q.mark)).length
      if marks < 3 then textBody q fuel (c :: acc) rest
      else
        let extra := min (marks - 3) 2
        some (String.ofList (acc.reverse ++ List.replicate extra c), rest.drop (extra + 2))
    else if c = '\\' ∧ q = .basic then
      if joinsLines rest then textBody q fuel acc (skipLines rest)
      else match escape? rest with
        | none => none
        | some (e, rest) => textBody q fuel (e :: acc) rest
    else match lineBreak? (c :: rest) with
      | some rest => textBody q fuel ('\n' :: acc) rest
      | none => if isPlain c then textBody q fuel (c :: acc) rest else none

/-- What follows the opening marks of a string over several lines: a line break there does
not count. -/
def afterOpening (cs : List Char) : List Char := (lineBreak? cs).getD cs

/-- A string on one line, without its opening mark. -/
def lineString? (q : Quote) (cs : List Char) : Option (String × List Char) :=
  lineBody q (cs.length + 1) [] cs

/-- A string of either form, without its first mark. -/
def string? (q : Quote) (cs : List Char) : Option (String × List Char) :=
  if [q.mark, q.mark].isPrefixOf cs then
    let body := afterOpening (cs.drop 2)
    textBody q (body.length + 1) [] body
  else lineString? q cs

/-! ## Keys -/

/-- A character of a key without quotes. -/
def isKeyCharacter (c : Char) : Bool :=
  ('a' ≤ c && c ≤ 'z') || ('A' ≤ c && c ≤ 'Z') || ('0' ≤ c && c ≤ '9') || c == '_' || c == '-'

/-- A key without dots. -/
def simpleKey? : List Char → Option (String × List Char)
  | '"' :: rest => lineString? .basic rest
  | '\x27' :: rest => lineString? .literal rest
  | cs =>
    let (key, rest) := cs.span isKeyCharacter
    if key.isEmpty then none else some (String.ofList key, rest)

/-- The longest path of dotted keys, and the deepest nesting of values, is one less. -/
def depthLimit : Nat := 80

/-- Keys with dots between them; blanks around a key do not count. -/
def keyParts? : (fuel : Nat) → List Char → Option (List String × List Char)
  | 0, _ => none
  | fuel + 1, cs =>
    match simpleKey? (skipSpace cs) with
    | none => none
    | some (key, rest) =>
      match skipSpace rest with
      | '.' :: rest => (keyParts? fuel rest).map fun (keys, rest) => (key :: keys, rest)
      | rest => some ([key], rest)

/-- A path of dotted keys, as the path to its table and the last key. -/
def keyPath? (cs : List Char) : Option ((List String × String) × List Char) :=
  match keyParts? depthLimit cs with
  | none => none
  | some (keys, rest) =>
    match keys.getLast? with
    | none => none
    | some last => if keys.length < depthLimit then some ((keys.dropLast, last), rest) else none

end SpeedTrial.Toml
