import SpeedTrial.Decimal.Layout
import SpeedTrial.Text.Raw

/-!
# JSON texts

Values are trees of the six JSON kinds, with integers and doubles kept apart.
There are two ways to write a tree: compact, and over several lines with two blanks of
indentation per level.

* `Value.compact` writes a value on one line.
* `Value.prettyAt` writes it over several lines; an empty array or object stays on one.
* `Value.flatten` is the list of the leaves of a tree, each with its path.

What is written as JSON may have paths of files in it, and a path need not be a text.

* `Data.value?` is the value that data stands for, if all paths in it are texts.
* `Data.writtenAt` is as much of its text as can be written.
-/

namespace SpeedTrial.Json

open SpeedTrial.Decimal

/-- A JSON value; an object keeps the order of its members. -/
inductive Value where
  | null
  | bool (b : Bool)
  | integer (n : Int)
  | double (x : Float)
  | text (s : String)
  | array (items : List Value)
  | object (members : List (String × Value))

/-- An optional value, null when it is missing. -/
def Value.optional {α : Type} (f : α → Value) : Option α → Value
  | some a => f a
  | none => .null

/-! ## Characters in a string -/

/-- A hexadecimal digit, in lower case. -/
def hexDigit (n : Nat) : Char :=
  if n < 10 then Char.ofNat (n + '0'.toNat) else Char.ofNat (n - 10 + 'a'.toNat)

/-- A character inside a string: the quote, the backslash and the control characters below
the blank are escaped, the common ones with a letter, and nothing else is. -/
def escaped (c : Char) : List Char :=
  if c = '"' then ['\\', '"']
  else if c = '\\' then ['\\', '\\']
  else if c = '\n' then ['\\', 'n']
  else if c = '\r' then ['\\', 'r']
  else if c = '\t' then ['\\', 't']
  else if c.toNat = 8 then ['\\', 'b']
  else if c.toNat = 12 then ['\\', 'f']
  else if c.toNat < 32 then ['\\', 'u', '0', '0', hexDigit (c.toNat / 16), hexDigit (c.toNat % 16)]
  else [c]

/-- A string with its quotes. -/
def quoted (s : String) : String :=
  "\"" ++ String.ofList (s.toList.flatMap escaped) ++ "\""

/-- A double; JSON has no infinities and no not-a-number, so these become null. -/
def doubleText (x : Float) : String :=
  if x.isFinite then exponential.format x else "null"

/-! ## Writing values -/

mutual

/-- A value on one line, without blanks. -/
def Value.compact : Value → String
  | .null => "null"
  | .bool b => if b then "true" else "false"
  | .integer n => toString n
  | .double x => doubleText x
  | .text s => quoted s
  | .array items => "[" ++ ",".intercalate (compactItems items) ++ "]"
  | .object members => "\x7b" ++ ",".intercalate (compactMembers members) ++ "\x7d"

/-- The items of an array, each on one line. -/
def compactItems : List Value → List String
  | [] => []
  | v :: vs => v.compact :: compactItems vs

/-- The members of an object, each on one line. -/
def compactMembers : List (String × Value) → List String
  | [] => []
  | (k, v) :: ms => (quoted k ++ ":" ++ v.compact) :: compactMembers ms

end

/-- A line break and the indentation of the given level. -/
def lineBreak (level : Nat) : String := "\n" ++ String.ofList (List.replicate (2 * level) ' ')

/-- Lines between two brackets, indented by one level more than the brackets. -/
def bracketed (opening closing : String) (level : Nat) (items : List String) : String :=
  if items.isEmpty then opening ++ closing
  else opening ++ lineBreak (level + 1) ++ ("," ++ lineBreak (level + 1)).intercalate items ++
    lineBreak level ++ closing

mutual

/-- A value over several lines, at the given level of indentation. -/
def Value.prettyAt (level : Nat) : Value → String
  | .array items => bracketed "[" "]" level (prettyItems (level + 1) items)
  | .object members => bracketed "\x7b" "\x7d" level (prettyMembers (level + 1) members)
  | .null => "null"
  | .bool b => if b then "true" else "false"
  | .integer n => toString n
  | .double x => doubleText x
  | .text s => quoted s

/-- The items of an array, at the given level of indentation. -/
def prettyItems (level : Nat) : List Value → List String
  | [] => []
  | v :: vs => v.prettyAt level :: prettyItems level vs

/-- The members of an object, at the given level of indentation. -/
def prettyMembers (level : Nat) : List (String × Value) → List String
  | [] => []
  | (k, v) :: ms => (quoted k ++ ": " ++ v.prettyAt level) :: prettyMembers level ms

end

/-! ## Leaves and their paths -/

mutual

/-- A value with the members of every object in the order of their keys. -/
def Value.sorted : Value → Value
  | .array items => .array (sortedItems items)
  | .object members => .object ((sortedMembers members).mergeSort fun a b => a.1 ≤ b.1)
  | v => v

/-- The items of an array, each with its members in order. -/
def sortedItems : List Value → List Value
  | [] => []
  | v :: vs => v.sorted :: sortedItems vs

/-- The members of an object, each with its own members in order. -/
def sortedMembers : List (String × Value) → List (String × Value)
  | [] => []
  | (k, v) :: ms => (k, v.sorted) :: sortedMembers ms

end

/-- The path of a member of the object at another path. -/
def memberPath (path key : String) : String := if path.isEmpty then key else s!"{path}.{key}"

mutual

/-- Appends every leaf below a path, and its own path, to a list.  A string stands for
itself and any other leaf for its JSON text; null and doubles that are not finite are left
out. -/
def Value.flatten (path : String) (v : Value) (out : List (String × String)) :
    List (String × String) :=
  match v with
  | .object members => flattenMembers path members out
  | .null => out
  | .double x => if x.isFinite then out ++ [(path, doubleText x)] else out
  | .text s => out ++ [(path, s)]
  | .bool b => out ++ [(path, Value.compact (.bool b))]
  | .integer n => out ++ [(path, Value.compact (.integer n))]
  | .array items => out ++ [(path, Value.compact (.array items))]

/-- Appends the leaves of the members of the object at a path. -/
def flattenMembers (path : String) (members : List (String × Value))
    (out : List (String × String)) : List (String × String) :=
  match members with
  | [] => out
  | (k, v) :: ms => flattenMembers path ms (v.flatten (memberPath path k) out)

end

/-! ## Data with paths -/

open Text (RawText)

/-- What is written as JSON: values, the paths of files, and objects made of these. -/
inductive Data where
  | value (v : Value)
  | path (p : RawText)
  | object (members : List (String × Data))

/-- Optional data, null when it is missing. -/
def Data.optional {α : Type} (f : α → Data) : Option α → Data
  | some a => f a
  | none => .value .null

/-- What is told of a path that is no text. -/
def notTextMessage : String := "path contains invalid UTF-8 characters"

mutual

/-- The value that data stands for; there is none if a path in it is not a text. -/
def Data.value? : Data → Option Value
  | .value v => some v
  | .path p => p.text?.map .text
  | .object members => (valueMembers? members).map .object

/-- The members of an object as values. -/
def valueMembers? : List (String × Data) → Option (List (String × Value))
  | [] => some []
  | (k, d) :: ms =>
    match d.value?, valueMembers? ms with
    | some v, some vs => some ((k, v) :: vs)
    | _, _ => none

end

mutual

/-- As much of the text of data, at the given level of indentation, as comes before a path that is
not a text, and whether that is all. -/
def Data.writtenAt (level : Nat) : Data → String × Bool
  | .value v => (v.prettyAt level, true)
  | .path p =>
    match p.text? with
    | some s => (quoted s, true)
    | none => ("", false)
  | .object members =>
    match writtenMembers (level + 1) members with
    | (items, true) => (bracketed "\x7b" "\x7d" level items, true)
    | (items, false) =>
      ("\x7b" ++ lineBreak (level + 1) ++ ("," ++ lineBreak (level + 1)).intercalate items, false)

/-- As many members of an object, and as much of the last one, as can be written. -/
def writtenMembers (level : Nat) : List (String × Data) → List String × Bool
  | [] => ([], true)
  | (k, d) :: ms =>
    let (text, complete) := d.writtenAt level
    let item := quoted k ++ ": " ++ text
    if complete then
      let (items, complete) := writtenMembers level ms
      (item :: items, complete)
    else ([item], false)

end

end SpeedTrial.Json
