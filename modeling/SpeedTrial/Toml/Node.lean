/-!
# TOML trees

A TOML document is a tree of tables.  Tables come about in several ways, and which way it was
decides what a later line may still add: a table with a header of its own is complete at the
end of its section, one that exists only because it lies on the path of a header can still
get a header, and one that dotted keys made can only be continued by dotted keys.

* `modifyAt` reaches the table at the path of a header.
* `openTable` and `openItem` enter the two kinds of header.
* `insertAt` enters a key with its value.
-/

namespace SpeedTrial.Toml

/-- How a table came about. -/
inductive Origin where
  /-- By a header of its own. -/
  | header
  /-- By lying on the path of a header. -/
  | implied
  /-- By dotted keys. -/
  | dotted
  deriving DecidableEq, Repr

/-- A value, or a table with what is in it.  Keys keep the order in which they came. -/
inductive Node where
  | text (s : String)
  | integer (n : Int)
  | double (x : Float)
  | bool (b : Bool)
  /-- A date, a time, or both; which one it is does not matter here. -/
  | moment
  | array (items : List Node)
  /-- A table written as a value; nothing can be added to it. -/
  | closed (entries : List (String × Node))
  | table (origin : Origin) (entries : List (String × Node))
  /-- An array of tables, each with a header. -/
  | tables (items : List (List (String × Node)))

/-- The contents of a table. -/
abbrev Entries := List (String × Node)

namespace Entries

/-- Puts a node in the place of the one with the same key. -/
def replace (key : String) (n : Node) (es : Entries) : Entries :=
  es.map fun (k, old) => if k = key then (k, n) else (k, old)

/-- Leaves out a key. -/
def erase (key : String) (es : Entries) : Entries := es.filter fun (k, _) => k ≠ key

/-- Adds a key that is not there yet. -/
def add? (key : String) (n : Node) (es : Entries) : Option Entries :=
  match es.lookup key with
  | none => some (es ++ [(key, n)])
  | some _ => none

end Entries

/-- Changes the last item of a list. -/
def modifyLast? {α : Type} (f : α → Option α) (items : List α) : Option (List α) :=
  match items.getLast? with
  | none => none
  | some last => (f last).map fun new => items.dropLast ++ [new]

/-- Changes the table at the path of a header.  A table that is missing is made, and in an
array of tables the last one is meant. -/
def modifyAt (f : Entries → Option Entries) : (path : List String) → Entries → Option Entries
  | [], es => f es
  | key :: rest, es =>
    match es.lookup key with
    | none => (modifyAt f rest []).map fun sub => es ++ [(key, .table .implied sub)]
    | some (.table origin sub) =>
      (modifyAt f rest sub).map fun sub => es.replace key (.table origin sub)
    | some (.tables items) =>
      (modifyLast? (modifyAt f rest) items).map fun items => es.replace key (.tables items)
    | some _ => none

/-- Enters the header of a table.  A table that was implied so far gets its header now; any
other must be new. -/
def openTable (key : String) (es : Entries) : Option Entries :=
  match es.lookup key with
  | none => some (es ++ [(key, .table .header [])])
  | some (.table .implied sub) => some (es.erase key ++ [(key, .table .header sub)])
  | some _ => none

/-- Enters the header of one more item of an array of tables. -/
def openItem (key : String) (es : Entries) : Option Entries :=
  match es.lookup key with
  | none => some (es ++ [(key, .tables [[]])])
  | some (.tables items) => some (es.replace key (.tables (items ++ [[]])))
  | some _ => none

/-- Enters a key with its value below a path of dotted keys.  The path may pass through
tables without a header and through the last item of an array of tables, but the table it
ends in must have been made by dotted keys. -/
def insertAt (key : String) (n : Node) : (path : List String) → Entries → Option Entries
  | [], es => es.add? key n
  | k :: rest, es =>
    match es.lookup k with
    | none => (insertAt key n rest []).map fun sub => es ++ [(k, .table .dotted sub)]
    | some (.table origin sub) =>
      if origin = .header ∨ (rest.isEmpty ∧ origin ≠ .dotted) then none
      else (insertAt key n rest sub).map fun sub => es.replace k (.table origin sub)
    | some (.tables items) =>
      if rest.isEmpty then none
      else (modifyLast? (insertAt key n rest) items).map fun items => es.replace k (.tables items)
    | some _ => none

mutual

/-- A node of a table that is closed: the tables that dotted keys made in it are closed as
well. -/
def Node.sealed : Node → Node
  | .table _ es => .closed (sealedEntries es)
  | n => n

/-- The contents of a table that is closed. -/
def sealedEntries : List (String × Node) → List (String × Node)
  | [] => []
  | (k, n) :: es => (k, n.sealed) :: sealedEntries es

end

end SpeedTrial.Toml
