import SpeedTrial.Stream.Strided
import SpeedTrial.Stream.Uniform
import SpeedTrial.Text.Name

/-!
# Value streams

Writers insert words from a stream.  How many distinct words a trial produces is what a
cardinality estimator feels, so there are two kinds of stream: disjoint counters, and
independent random words.  Either can be taken back to its first value.

What a writer needs of a stream is that it hands out words and can start again, so this is a
class, `Supply`; `Source` is the streams that there are.
-/

namespace SpeedTrial.Stream

/-! ## Supplies -/

/-- Something that hands out words one after the other and can start again. -/
class Supply (V : Type) where
  /-- The next word, and the supply after it. -/
  next : V → UInt64 × V
  /-- The supply back at its first word. -/
  rewind : V → V
  /-- It starts again at the same word, however many were handed out. -/
  rewind_next : ∀ v, rewind (next v).2 = rewind v
  rewind_rewind : ∀ v, rewind (rewind v) = rewind v

/-- The next `n` words, and the supply after them. -/
def Supply.take {V : Type} [Supply V] : (n : Nat) → V → List UInt64 × V
  | 0, v => ([], v)
  | n + 1, v =>
    let (w, v) := next v
    let (ws, v) := take n v
    (w :: ws, v)

/-! ## Kinds -/

/-- The kinds of stream. -/
inductive Kind where
  | sequential
  | uniform
  deriving DecidableEq, Repr, Inhabited

namespace Kind

/-- The name of a kind. -/
def name : Kind → String
  | .sequential => "sequential"
  | .uniform => "uniform"

/-- A name that no kind of stream has. -/
structure UnknownName where
  text : String
  deriving DecidableEq, Repr

/-- What the user is told. -/
def UnknownName.message (e : UnknownName) : String :=
  s!"unknown value mode '{e.text}' (expected sequential or uniform)"

/-- Reads the name of a kind in any case; each has a second name. -/
def ofName (s : String) : Except UnknownName Kind :=
  let name := Text.lowered s
  if name = "sequential" ∨ name = "seq" then .ok .sequential
  else if name = "uniform" ∨ name = "random" then .ok .uniform
  else .error ⟨s⟩

end Kind

/-! ## Streams -/

/-- A stream of words. -/
inductive Source where
  | strided (s : Strided)
  | uniform (s : Uniform)
  deriving DecidableEq, Repr

namespace Source

/-- The stream of one of several writers.  Only random streams depend on the seed. -/
def forWriter (kind : Kind) (index writers : Nat) (seed : UInt64) : Source :=
  match kind with
  | .sequential => .strided (Strided.forWriter index writers)
  | .uniform => .uniform (Uniform.forWriter seed index)

/-- The next value, and the stream after it. -/
def next : Source → UInt64 × Source
  | .strided s => let (v, s) := s.next; (v, .strided s)
  | .uniform s => let (v, s) := s.next; (v, .uniform s)

/-- The stream back at its first value. -/
def rewind : Source → Source
  | .strided s => .strided s.rewind
  | .uniform s => .uniform s.rewind

instance : Supply Source where
  next := next
  rewind := rewind
  rewind_next s := by cases s <;> rfl
  rewind_rewind s := by cases s <;> rfl

/-- The next `n` values, and the stream after them. -/
def take (n : Nat) (s : Source) : List UInt64 × Source := Supply.take n s

/-- The stream after `n` more values. -/
def skip (n : Nat) (s : Source) : Source := Nat.repeat (fun s => s.next.2) n s

end Source

end SpeedTrial.Stream
