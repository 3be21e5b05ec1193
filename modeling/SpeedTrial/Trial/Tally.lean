import SpeedTrial.Trial.Control

/-!
# The tally of a trial

The coordinator keeps one tally for the current or last trial.  It is touched only under a
lock.  Each worker reports once per trial how many units it performed; reports of other
trials and repeated reports are refused.  With the last report of a writer the time is
taken, and with the last report of all the trial is complete.

* `Tally.begun` starts the next trial, `Tally.cleared` forgets the last one.
* `Tally.report` takes a report: `Tally.mark` and then `Tally.count` if it is accepted.
-/

namespace SpeedTrial.Trial

/-- What a coordinator is to freeze when the first writer reports. -/
inductive FreezeScope where
  /-- All other writers and all readers. -/
  | everyone
  /-- All readers; every writer performs its whole quota. -/
  | readersOnly
  deriving DecidableEq, Repr, Inhabited

/-- The name of a scope. -/
def FreezeScope.name : FreezeScope → String
  | .everyone => "everyone"
  | .readersOnly => "readers_only"

/-- How far the current or last trial is. -/
inductive Phase where
  /-- No trial since the launch or the last reset. -/
  | ready
  /-- Not every worker has reported. -/
  | running
  /-- Every worker has reported. -/
  | complete
  deriving DecidableEq, Repr

/-- The tally of the current or last trial. -/
structure Tally where
  /-- The number of the trial; 0 before the first one. -/
  trial : Nat := 0
  phase : Phase := .ready
  /-- When the trial started. -/
  start : Option Nat := none
  /-- How long it took until the last writer reported. -/
  elapsed : Option Nat := none
  writerOps : Nat := 0
  readerOps : Nat := 0
  doneWriters : Nat := 0
  doneReaders : Nat := 0
  /-- Which writers have reported. -/
  writerReported : List Bool := []
  /-- Which readers have reported. -/
  readerReported : List Bool := []
  deriving DecidableEq, Repr, Inhabited

namespace Tally

/-- The tally before the first trial of a roster. -/
def fresh (writers readers : Nat) : Tally :=
  { writerReported := List.replicate writers false
    readerReported := List.replicate readers false }

/-- The tally with nothing counted.  The number of the trial is kept. -/
def cleared (t : Tally) : Tally :=
  { trial := t.trial
    phase := t.phase
    writerReported := t.writerReported.map fun _ => false
    readerReported := t.readerReported.map fun _ => false }

/-- The tally at the start of the next trial. -/
def begun (t : Tally) (now : Nat) : Tally :=
  { t.cleared with trial := t.trial + 1, phase := .running, start := some now }

/-- The tally after a reset. -/
def reset (t : Tally) : Tally := { t.cleared with phase := .ready }

/-- Whether a worker has reported; one that is not on the roster never reports. -/
def hasReported (t : Tally) (s : Slot) : Bool :=
  match s.role with
  | .writer => t.writerReported.getD s.index true
  | .reader => t.readerReported.getD s.index true

/-- Whether a report for a trial is accepted. -/
def accepts (t : Tally) (s : Slot) (trial : Nat) : Bool :=
  t.phase == .running && t.trial == trial && !t.hasReported s

/-- Notes that a worker has reported. -/
def mark (t : Tally) (s : Slot) : Tally :=
  match s.role with
  | .writer => { t with writerReported := t.writerReported.set s.index true }
  | .reader => { t with readerReported := t.readerReported.set s.index true }

/-- Whether all writers are counted. -/
def writersDone (t : Tally) : Bool := t.doneWriters == t.writerReported.length

/-- Whether all readers are counted. -/
def readersDone (t : Tally) : Bool := t.doneReaders == t.readerReported.length

/-- Adds the units of one worker. -/
def add (t : Tally) (r : Role) (units : Nat) : Tally :=
  match r with
  | .writer => { t with writerOps := t.writerOps + units, doneWriters := t.doneWriters + 1 }
  | .reader => { t with readerOps := t.readerOps + units, doneReaders := t.doneReaders + 1 }

/-- Counts the units of one worker.  The last writer stops the clock, and the last worker
completes the trial. -/
def count (t : Tally) (now : Nat) (s : Slot) (units : Nat) : Tally :=
  let t := t.add s.role units
  let t := if s.role = .writer ∧ t.writersDone then
      { t with elapsed := t.start.map (now - ·) }
    else t
  if t.writersDone && t.readersDone then { t with phase := .complete } else t

/-- Takes a report. -/
def report (t : Tally) (now : Nat) (s : Slot) (trial units : Nat) : Tally :=
  if t.accepts s trial then (t.mark s).count now s units else t

end Tally

end SpeedTrial.Trial
