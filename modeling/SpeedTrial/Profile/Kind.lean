import SpeedTrial.Text.Name

/-!
# The kinds of profile

There are two: many threads on one shared sketch, and a single thread that only inserts.
Older job files name a profile by a dotted path that ends in its name and a fixed word.
-/

namespace SpeedTrial.Profile

/-- What a job measures. -/
inductive Kind where
  /-- Writers and readers on threads of their own. -/
  | multithreaded
  /-- Inserts on a single thread. -/
  | update
  deriving DecidableEq, Repr, Inhabited

namespace Kind

/-- The name of a kind. -/
def name : Kind → String
  | .multithreaded => "multithreaded"
  | .update => "update"

/-- A name that no kind of profile has. -/
structure UnknownName where
  text : String
  deriving DecidableEq, Repr

/-- What the user is told. -/
def UnknownName.message (e : UnknownName) : String :=
  s!"unknown profile '{e.text}' (expected multithreaded or update)"

/-- The part of a text behind its last dot. -/
def lastSegment (cs : List Char) : List Char :=
  (cs.reverse.takeWhile (· ≠ '.')).reverse

/-- Whether one text ends with another. -/
def endsWith (cs ending : List Char) : Bool := ending.reverse.isPrefixOf cs.reverse

/-- A text without an ending, if it has it. -/
def withoutEnding (cs ending : List Char) : List Char :=
  if endsWith cs ending then cs.take (cs.length - ending.length) else cs

/-- Reads the name of a kind: what counts is the end of the last segment, in any case, before
the word that older job files append. -/
def ofName (s : String) : Except UnknownName Kind :=
  let segment := (Text.lowered (String.ofList (lastSegment s.toList))).toList
  let name := withoutEnding segment "speedprofile".toList
  if endsWith name "multithreaded".toList then .ok .multithreaded
  else if endsWith name "update".toList then .ok .update
  else .error ⟨s⟩

end Kind

end SpeedTrial.Profile
