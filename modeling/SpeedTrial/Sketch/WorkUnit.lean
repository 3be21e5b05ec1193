import SpeedTrial.Sketch.Shared
import SpeedTrial.Stream.Basic
import SpeedTrial.Time.Span

/-!
# Units of work

A worker does its work in units, and each unit is one call on its own state and the shared
accumulator.  Before it does anything else a unit looks at the epoch: if the accumulator has
been emptied since its last unit it starts again, so that every trial replays the same input.

* `LockedWriter.work` inserts one word directly.
* `BufferedWriter.work` gathers words and merges them when it has enough.
* `Mixed.work` lets an inner writer work only as often as a given share of all units needs.
* `WorkUnit.work` is one unit of any worker.
-/

namespace SpeedTrial.Sketch

variable {E V : Type} [Accumulator E] [Stream.Supply V]

open SpeedTrial.Stream (Supply)

/-! ## Writers that insert directly -/

/-- Inserts the words of its stream into the shared accumulator. -/
structure LockedWriter (V : Type) where
  source : V
  /-- The epoch of its last unit. -/
  seen : Nat
  deriving DecidableEq, Repr

/-- The stream at the start of a unit: in a new epoch it starts again. -/
def LockedWriter.stream (w : LockedWriter V) (s : Shared E) : V :=
  if s.epoch ≠ w.seen then Supply.rewind w.source else w.source

/-- One word goes into the shared accumulator. -/
def LockedWriter.work (w : LockedWriter V) (s : Shared E) : LockedWriter V × Shared E :=
  let (v, source) := Supply.next (w.stream s)
  (⟨source, s.epoch⟩, s.insert v)

/-! ## Writers that gather words -/

/-- Inserts the words of its stream into an accumulator of its own. -/
structure BufferedWriter (E V : Type) where
  source : V
  gathered : E
  /-- How many words were gathered since the last merge. -/
  count : Nat
  /-- How many words are gathered before they are merged. -/
  flushEvery : Nat
  flushEvery_pos : 0 < flushEvery
  /-- The epoch of its last unit. -/
  seen : Nat
  deriving Repr

/-- A writer that has gathered nothing; it merges after at least one word. -/
def BufferedWriter.new (source : V) (flushEvery : Nat) (s : Shared E) : BufferedWriter E V :=
  ⟨source, Accumulator.empty, 0, max flushEvery 1, by omega, s.epoch⟩

/-- The writer at the start of the current epoch: what it gathered in another is dropped. -/
def BufferedWriter.synchronised (w : BufferedWriter E V) (s : Shared E) : BufferedWriter E V :=
  if s.epoch ≠ w.seen then
    { w with
      source := Supply.rewind w.source
      gathered := Accumulator.empty
      count := 0
      seen := s.epoch }
  else w

/-- One word is gathered, and merged together with the others if they are enough. -/
def BufferedWriter.work (w : BufferedWriter E V) (s : Shared E) :
    BufferedWriter E V × Shared E :=
  let w := w.synchronised s
  let (v, source) := Supply.next w.source
  let gathered := Accumulator.insert w.gathered v
  if w.flushEvery ≤ w.count + 1 then
    ({ w with source := source, gathered := Accumulator.empty, count := 0 },
      s.mergeFrom gathered)
  else ({ w with source := source, gathered := gathered, count := w.count + 1 }, s)

/-! ## Any writer -/

/-- A writer in one of the two modes. -/
inductive Writer (E : Type) (V : Type := Stream.Source) where
  | locked (w : LockedWriter V)
  | buffered (w : BufferedWriter E V)
  deriving Repr

/-- A writer in the given mode, at the start of its stream. -/
def Writer.new (mode : Mode) (source : V) (s : Shared E) : Writer E V :=
  match mode with
  | .locked => .locked ⟨source, s.epoch⟩
  | .buffered n => .buffered (BufferedWriter.new source n s)

/-- One unit of a writer. -/
def Writer.work (w : Writer E V) (s : Shared E) : Writer E V × Shared E :=
  match w with
  | .locked w => let (w, s) := w.work s; (.locked w, s)
  | .buffered w => let (w, s) := w.work s; (.buffered w, s)

/-! ## Writers that also read -/

/-- Divides its units between an inner writer and reads of the estimate. -/
structure Mixed (W : Type) where
  inner : W
  /-- Units in this epoch in which the inner writer worked. -/
  writes : Nat
  /-- All other units in this epoch. -/
  reads : Nat
  /-- The epoch of its last unit. -/
  seen : Nat
  deriving Repr

/-- No unit done yet. -/
def Mixed.new {W : Type} (inner : W) (s : Shared E) : Mixed W := ⟨inner, 0, 0, s.epoch⟩

/-- The counters start again in a new epoch. -/
def Mixed.synchronised {W : Type} (m : Mixed W) (s : Shared E) : Mixed W :=
  if s.epoch ≠ m.seen then { m with writes := 0, reads := 0, seen := s.epoch } else m

/-- One unit: a write if `owes writes units` says that there were too few of them among the
units so far, else a read, which changes nothing but its counter. -/
def Mixed.work {W : Type} (owes : (writes units : Nat) → Bool)
    (inner : W → Shared E → W × Shared E) (m : Mixed W) (s : Shared E) : Mixed W × Shared E :=
  let m := m.synchronised s
  if owes m.writes (m.writes + m.reads) then
    let (w, s) := inner m.inner s
    ({ m with inner := w, writes := m.writes + 1 }, s)
  else ({ m with reads := m.reads + 1 }, s)

/-- Whether the writes are below a share of the units, computed with doubles. -/
def owesShare (share : Float) (writes units : Nat) : Bool :=
  Numeric.ofCount writes < share * Numeric.ofCount units

/-! ## Any worker -/

/-- The work of one worker. -/
inductive WorkUnit (E : Type) (V : Type := Stream.Source) where
  | writer (w : Writer E V)
  /-- A writer that holds its writes at a share of all units. -/
  | mixed (share : Float) (m : Mixed (Writer E V))
  /-- Reads the estimate, perhaps after a pause.  Neither changes anything that is shared. -/
  | reader (pause : Option Time.Span)
  deriving Repr

namespace WorkUnit

/-- The work of a writer.  A share strictly between zero and one makes it read as well. -/
def forWriter (mode : Mode) (source : V) (share : Float) (s : Shared E) : WorkUnit E V :=
  let w := Writer.new mode source s
  if share > 0.0 && share < 1.0 then .mixed share (Mixed.new w s) else .writer w

/-- One unit of work. -/
def work (u : WorkUnit E V) (s : Shared E) : WorkUnit E V × Shared E :=
  match u with
  | .writer w => let (w, s) := w.work s; (.writer w, s)
  | .mixed share m => let (m, s) := m.work (owesShare share) Writer.work s; (.mixed share m, s)
  | .reader pause => (.reader pause, s)

end WorkUnit

end SpeedTrial.Sketch
