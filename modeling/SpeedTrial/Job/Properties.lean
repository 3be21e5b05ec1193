import SpeedTrial.Text.Blank
import SpeedTrial.Decimal.Reader
import SpeedTrial.Profile.Kind

/-!
# Property files

A property file has one key and its value to a line, with an equals sign between them.
Everything from a number sign on is a comment, blanks around a line, a key or a value do not
count, and lines of fewer than three bytes are skipped.  A key that comes again takes its
last value and keeps its first place.

* `Properties.insert` and `Properties.get?` are the operations on a list of properties.
* `Properties.ofText` reads a property file.
* `Properties.require` and `Properties.optional` read the value of a key as something else.
-/

namespace SpeedTrial.Job

open SpeedTrial.Text SpeedTrial.Decimal

/-! ## Lists of properties -/

/-- Keys and values, each key once, in the order of first insertion. -/
structure Properties where
  entries : List (String × String) := []
  deriving DecidableEq, Repr, Inhabited

/-- Gives a key a value: in its place if it has one, else at the end. -/
def insertEntry (key value : String) : List (String × String) → List (String × String)
  | [] => [(key, value)]
  | (k, v) :: rest =>
    if k = key then (k, value) :: rest else (k, v) :: insertEntry key value rest

namespace Properties

/-- Gives a key a value. -/
def insert (p : Properties) (key value : String) : Properties :=
  ⟨insertEntry key value p.entries⟩

/-- The value of a key. -/
def get? (p : Properties) (key : String) : Option String := p.entries.lookup key

/-- How many keys there are. -/
def size (p : Properties) : Nat := p.entries.length

/-- Whether there is no key. -/
def isEmpty (p : Properties) : Bool := p.entries.isEmpty

end Properties

/-! ## Faults -/

/-- What is wrong with a property file. -/
inductive PropertyError where
  /-- A line without an equals sign; lines are counted from 1. -/
  | missingSeparator (line : Nat) (text : String)
  | missingKey (key : String)
  | invalidValue (value key reason : String)
  deriving DecidableEq, Repr

/-- What the user is told. -/
def PropertyError.message : PropertyError → String
  | .missingSeparator line text => s!"Missing valid key-value separator on line {line}: {text}"
  | .missingKey key => s!"Missing required property '{key}'"
  | .invalidValue value key reason => s!"Invalid value '{value}' for property '{key}': {reason}"

/-! ## Reading a file -/

/-- What counts of a line. -/
def lineContent (line : List Char) : List Char := trimmed (line.takeWhile (· ≠ '#'))

/-- Whether a line is read at all. -/
def isRelevant (content : List Char) : Bool := 3 ≤ byteLength content

/-- The key and the value of a line, parted at its first equals sign. -/
def parted? (content : List Char) : Option (String × String) :=
  if content.contains '=' then
    let key := content.takeWhile (· ≠ '=')
    let value := (content.dropWhile (· ≠ '=')).drop 1
    some (String.ofList (trimmed key), String.ofList (trimmed value))
  else none

namespace Properties

/-- Reads lines from the given number on, on top of what was read before. -/
def ofLines : (number : Nat) → List (List Char) → Properties → Except PropertyError Properties
  | _, [], p => .ok p
  | number, line :: rest, p =>
    let content := lineContent line
    if isRelevant content then
      match parted? content with
      | none => .error (.missingSeparator number (String.ofList content))
      | some (key, value) => ofLines (number + 1) rest (p.insert key value)
    else ofLines (number + 1) rest p

/-- Reads a property file. -/
def ofText (text : String) : Except PropertyError Properties :=
  ofLines 1 (lines text.toList) {}

/-! ## Reading values -/

/-- The value of a key that must be there. -/
def demand (p : Properties) (key : String) : Except PropertyError String :=
  match p.get? key with
  | some value => .ok value
  | none => .error (.missingKey key)

/-- The value of a key that must be there, read as something else. -/
def require {α : Type} (p : Properties) (read : String → Except String α) (key : String) :
    Except PropertyError α :=
  match p.demand key with
  | .error e => .error e
  | .ok value =>
    match read value with
    | .error reason => .error (.invalidValue value key reason)
    | .ok a => .ok a

/-- The value of a key that may be missing, read as something else. -/
def optional {α : Type} (p : Properties) (read : String → Except String α) (key : String) :
    Except PropertyError (Option α) :=
  match p.get? key with
  | none => .ok none
  | some _ => (p.require read key).map some

end Properties

/-! ## Kinds of value -/

/-- An unsigned integer of 32 bits. -/
def readNarrow (s : String) : Except String Nat :=
  (readWord (Numeric.twoPow 32 - 1) s).mapError IntegerError.message

/-- An unsigned integer of 64 bits. -/
def readWide (s : String) : Except String Nat :=
  (readWord Numeric.maxWord s).mapError IntegerError.message

/-- A double. -/
def readFraction (s : String) : Except String Float :=
  (readDouble s).mapError DoubleError.message

/-- A truth value, by its lower case name. -/
def readFlag (s : String) : Except String Bool :=
  if s = "true" then .ok true
  else if s = "false" then .ok false
  else .error "provided string was not `true` or `false`"

/-- A kind of profile. -/
def readProfile (s : String) : Except String Profile.Kind :=
  (Profile.Kind.ofName s).mapError Profile.Kind.UnknownName.message

end SpeedTrial.Job
