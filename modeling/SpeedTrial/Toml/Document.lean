import SpeedTrial.Toml.Quoted
import SpeedTrial.Toml.Scalar

/-!
# TOML documents

A document is read line by line.  A line is a header, a key with its value, or empty, and may
end with a comment.  A header says which table the following keys belong to.

* `value?` reads a value, and `document?` reads a whole document.
-/

namespace SpeedTrial.Toml

/-! ## Between values -/

/-- What follows blanks, line breaks and comments; the flag says whether a comment is being
read. -/
def skipTrivia : (comment : Bool) → List Char → List Char
  | _, '\n' :: rest => skipTrivia false rest
  | _, '\r' :: '\n' :: rest => skipTrivia false rest
  | true, c :: rest => if isPlain c then skipTrivia true rest else c :: rest
  | false, '#' :: rest => skipTrivia true rest
  | false, c :: rest => if isSpace c then skipTrivia false rest else c :: rest
  | _, [] => []

/-- What follows the end of a line: blanks, a comment, and a line break or the end of the
document. -/
def lineEnd? (cs : List Char) : Option (List Char) :=
  let rest := match skipSpace cs with
    | '#' :: rest => rest.dropWhile isPlain
    | rest => rest
  if rest.isEmpty then some [] else lineBreak? rest

/-! ## Values -/

/-- A value that is written as a word. -/
def word? : List Char → Option (Node × List Char)
  | 't' :: 'r' :: 'u' :: 'e' :: rest => some (.bool true, rest)
  | 'f' :: 'a' :: 'l' :: 's' :: 'e' :: rest => some (.bool false, rest)
  | cs => special? false cs

/-- A value that begins like a number. -/
def numeric? (cs : List Char) : Option (Node × List Char) :=
  match moment? cs with
  | some rest => some (.moment, rest)
  | none => number? cs

/-- Whether a value that begins with this character begins like a number. -/
def beginsNumber (c : Char) : Bool := c == '+' || c == '-' || isDecimal c

mutual

/-- A value inside `depth` arrays and tables.  Every call takes at least one character or
leads to one that does. -/
def value? : (fuel depth : Nat) → List Char → Option (Node × List Char)
  | 0, _, _ => none
  | fuel + 1, depth, cs =>
    match cs with
    | [] => none
    | c :: rest =>
      if c = '"' then (string? .basic rest).map fun (s, rest) => (.text s, rest)
      else if c = '\x27' then (string? .literal rest).map fun (s, rest) => (.text s, rest)
      else if c = '[' then
        if depth + 1 < depthLimit then items? fuel (depth + 1) [] rest else none
      else if c = '\x7b' then
        if depth + 1 < depthLimit then
          match skipSpace rest with
          | '\x7d' :: rest => some (.closed [], rest)
          | rest => members? fuel (depth + 1) [] rest
        else none
      else if beginsNumber c then numeric? cs
      else word? cs

/-- The rest of an array, with the items before newest first. -/
def items? : (fuel depth : Nat) → (acc : List Node) → List Char → Option (Node × List Char)
  | 0, _, _, _ => none
  | fuel + 1, depth, acc, cs =>
    match skipTrivia false cs with
    | ']' :: rest => some (.array acc.reverse, rest)
    | cs =>
      match value? fuel depth cs with
      | none => none
      | some (v, rest) =>
        match skipTrivia false rest with
        | ',' :: rest => items? fuel depth (v :: acc) rest
        | ']' :: rest => some (.array (v :: acc).reverse, rest)
        | _ => none

/-- The rest of a table on one line, from a key on. -/
def members? : (fuel depth : Nat) → (acc : Entries) → List Char → Option (Node × List Char)
  | 0, _, _, _ => none
  | fuel + 1, depth, acc, cs =>
    match keyPath? cs with
    | some ((path, key), '=' :: rest) =>
      match value? fuel depth (skipSpace rest) with
      | none => none
      | some (v, rest) =>
        match insertAt key v path acc with
        | none => none
        | some acc =>
          match skipSpace rest with
          | ',' :: rest => members? fuel depth acc rest
          | '\x7d' :: rest => some (.closed (sealedEntries acc), rest)
          | _ => none
    | _ => none

end

/-! ## Lines -/

/-- A document that is being read: what was read, and the path of the table that the next
keys belong to. -/
structure Draft where
  root : Entries := []
  here : List String := []

/-- A key with its value. -/
def entry? (d : Draft) (cs : List Char) : Option (Draft × List Char) :=
  match keyPath? cs with
  | some ((path, key), '=' :: rest) => do
    let rest := skipSpace rest
    let (v, rest) ← value? (2 * rest.length + 2) 0 rest
    let root ← modifyAt (insertAt key v path) d.here d.root
    return ({ d with root := root }, rest)
  | _ => none

/-- A header. -/
def header? (d : Draft) (cs : List Char) : Option (Draft × List Char) :=
  match cs with
  | '[' :: '[' :: rest =>
    match keyPath? rest with
    | some ((path, key), ']' :: ']' :: rest) => do
      let root ← modifyAt (openItem key) path d.root
      return (⟨root, path ++ [key]⟩, rest)
    | _ => none
  | '[' :: rest =>
    match keyPath? rest with
    | some ((path, key), ']' :: rest) => do
      let root ← modifyAt (openTable key) path d.root
      return (⟨root, path ++ [key]⟩, rest)
    | _ => none
  | _ => none

/-- One line, with its end. -/
def line? (d : Draft) (cs : List Char) : Option (Draft × List Char) := do
  let (d, rest) ← match skipSpace cs with
    | '[' :: rest => header? d ('[' :: rest)
    | '#' :: rest => some (d, '#' :: rest)
    | '\n' :: rest => some (d, '\n' :: rest)
    | '\r' :: rest => some (d, '\r' :: rest)
    | [] => some (d, [])
    | cs => entry? d cs
  return (d, ← lineEnd? rest)

/-- The lines of a document; each takes at least one character. -/
def lines? : (fuel : Nat) → Draft → List Char → Option Entries
  | _, d, [] => some d.root
  | 0, _, _ :: _ => none
  | fuel + 1, d, cs =>
    match line? d cs with
    | none => none
    | some (d, rest) => lines? fuel d rest

/-- Reads a document.  A byte order mark in front of it does not count. -/
def document? (text : String) : Option Entries :=
  let cs := match text.toList with
    | c :: rest => if c = Char.ofNat 0xFEFF then rest else c :: rest
    | [] => []
  lines? (cs.length + 1) {} cs

end SpeedTrial.Toml
