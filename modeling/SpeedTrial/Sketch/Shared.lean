import SpeedTrial.Estimator.Basic
import SpeedTrial.Text.Name

/-!
# The shared sketch

All workers of a trial act on one accumulator of words.  It is emptied between trials, and
each time an epoch counter goes up, from which a writer learns that it has to start its
stream again.  Writers reach the accumulator directly, or through one of their own that they
merge into it now and then.

What the accumulator is does not matter to the workers, so it is a class: the estimator is
one accumulator, and a plain list of words, which forgets nothing, is another.
-/

namespace SpeedTrial

/-- Something that words are inserted into. -/
class Accumulator (E : Type) where
  /-- Without any word. -/
  empty : E
  /-- With one more word. -/
  insert : E → UInt64 → E
  /-- The first with all words of the second. -/
  merge : E → E → E

instance : Accumulator Estimator := ⟨Estimator.empty, Estimator.insert, Estimator.merge⟩

/-- The record of all insertions, oldest first. -/
instance : Accumulator (List UInt64) := ⟨[], fun ws w => ws ++ [w], (· ++ ·)⟩

namespace Sketch

/-! ## Modes -/

/-- The ways in which writers reach the shared accumulator, by name. -/
inductive Kind where
  /-- Every word is inserted directly. -/
  | locked
  /-- Words are gathered and merged. -/
  | buffered
  deriving DecidableEq, Repr, Inhabited

namespace Kind

/-- The name of a kind. -/
def name : Kind → String
  | .locked => "locked"
  | .buffered => "buffered"

/-- A name that no kind has. -/
structure UnknownName where
  text : String
  deriving DecidableEq, Repr

/-- What the user is told. -/
def UnknownName.message (e : UnknownName) : String :=
  s!"unknown sketch mode '{e.text}' (expected locked or buffered)"

/-- Reads the name of a kind in any case; each has a second name. -/
def ofName (s : String) : Except UnknownName Kind :=
  let name := Text.lowered s
  if name = "locked" ∨ name = "lock" then .ok .locked
  else if name = "buffered" ∨ name = "concurrent" then .ok .buffered
  else .error ⟨s⟩

end Kind

/-- A kind together with what it needs to know. -/
inductive Mode where
  | locked
  /-- Merges after this many words; zero counts as one. -/
  | buffered (flushEvery : Nat)
  deriving DecidableEq, Repr, Inhabited

/-- The mode of a kind, for a given number of words between merges. -/
def Kind.mode (k : Kind) (flushEvery : Nat) : Mode :=
  match k with
  | .locked => .locked
  | .buffered => .buffered flushEvery

/-- The kind of a mode. -/
def Mode.kind : Mode → Kind
  | .locked => .locked
  | .buffered _ => .buffered

/-- A mode in words. -/
def Mode.text : Mode → String
  | .locked => "locked"
  | .buffered n => s!"buffered(flush_every={n})"

/-! ## The shared accumulator -/

/-- The accumulator that all workers share. -/
structure Shared (E : Type) where
  contents : E
  /-- How often it has been emptied. -/
  epoch : Nat
  deriving Repr

namespace Shared

variable {E : Type} [Accumulator E]

/-- Without any word, before the first reset. -/
def empty : Shared E := ⟨Accumulator.empty, 0⟩

instance : Inhabited (Shared E) := ⟨empty⟩

/-- With one more word. -/
def insert (s : Shared E) (v : UInt64) : Shared E :=
  { s with contents := Accumulator.insert s.contents v }

/-- With all words of another accumulator. -/
def mergeFrom (s : Shared E) (e : E) : Shared E :=
  { s with contents := Accumulator.merge s.contents e }

/-- Emptied, at the start of a new epoch. -/
def reset (s : Shared E) : Shared E := ⟨Accumulator.empty, s.epoch + 1⟩

end Shared

/-- The shared estimator as a diagnostic. -/
def Shared.diagnostic (s : Shared Estimator) : String :=
  s!"SharedEstimator \x7b estimate: {s.contents.estimate}, epoch: {s.epoch} \x7d"

end Sketch

end SpeedTrial
