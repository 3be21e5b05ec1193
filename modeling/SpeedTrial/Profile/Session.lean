import SpeedTrial.Stats.Point
import SpeedTrial.Profile.Settings
import SpeedTrial.Sketch.WorkUnit
import SpeedTrial.Trial.Schedule

/-!
# Sessions

Writers and readers work on one shared sketch, trial by trial.  A session is their machine together
with how far the thread is that runs the trials.  A trial empties the sketch, takes the workers
back, starts them, waits until all have reported, and reads the tally.

A session only says what that thread does next, once it has the answer to its last operation.
What the workers do in the meantime is left open, as it is in a machine.

* `Session.ask` begins a trial.
* `Session.goOn` goes on with it, and ends it in the end.
-/

namespace SpeedTrial.Profile

open SpeedTrial.Stats SpeedTrial.Trial SpeedTrial.Sketch

/-- A coordinator whose workers share a sketch. -/
abbrev Workshop (E : Type := Estimator) := Machine (WorkUnit E) (Shared E)

namespace Workshop

variable {E : Type} [Accumulator E]

/-! ## The roster -/

/-- The stream of the writer with the given index. -/
def stream (s : Settings) (index : Nat) : Stream.Source :=
  Stream.Source.forWriter s.values index s.writers s.seed

/-- The work of the writer with the given index. -/
def writerUnit (s : Settings) (index : Nat) : WorkUnit E :=
  WorkUnit.forWriter s.mode (stream s index) s.writesRatio Shared.empty

/-- Registers the same number of workers of a role as there are units of work. -/
def registerAll (role : Role) :
    List (WorkUnit E) → Workshop E → Except TrialError (Workshop E)
  | [], w => .ok w
  | unit :: rest, w =>
    match w.register role role unit with
    | .error e => .error e
    | .ok (_, w) => registerAll role rest w

/-- The workers of a profile, before the launch. -/
def registered (s : Settings) : Except TrialError (Workshop E) := do
  let w : Workshop E := { freeze := s.freeze, shared := Shared.empty }
  let w ← registerAll .writer ((List.range s.writers).map (writerUnit s)) w
  registerAll .reader (List.replicate s.readers (.reader s.readerInterval)) w

/-! ## Trials -/

/-- The sketch emptied. -/
def emptied (w : Workshop E) : Workshop E := { w with shared := w.shared.reset }

/-- What a trial that is over measured. -/
def sample (w : Workshop E) : Sample :=
  ⟨⟨w.tally.elapsed.getD 0⟩, w.tally.writerOps, w.tally.readerOps⟩

end Workshop

/-! ## The thread that runs trials -/

/-- How far a trial is. -/
inductive Stage where
  /-- No trial is under way. -/
  | resting
  /-- The workers are taken back, to be started for so many updates. -/
  | clearing (updates : Nat)
  /-- The workers are started. -/
  | starting
  /-- The workers are at work, each writer with this quota. -/
  | waiting (quota : Nat)
  deriving DecidableEq, Repr

/-- A machine and the thread that runs its trials. -/
structure Session (E : Type := Estimator) where
  workshop : Workshop E
  /-- A trial that takes longer fails. -/
  limit : Option Time.Span
  stage : Stage := .resting
  /-- What became of the last trial. -/
  outcome : Option (Except TrialError Sample) := none

namespace Session

variable {E : Type} [Accumulator E]

/-- The thread begins an operation. -/
def operate (s : Session E) (op : Operation) (stage : Stage) : Option (Session E) :=
  (Machine.invoke s.workshop .controlling op).map fun w => { s with workshop := w, stage := stage }

/-- A trial begins: the sketch is emptied, and then the workers are to be taken back.  There is
one trial at a time. -/
def ask (updates : Nat) (s : Session E) : Option (Session E) :=
  match s.stage with
  | .resting => { s with workshop := Workshop.emptied s.workshop, outcome := none }.operate .reset
      (.clearing updates)
  | _ => none

/-- The trial under way ends. -/
def conclude (s : Session E) (outcome : Except TrialError Sample) : Session E :=
  { s with stage := .resting, outcome := some outcome }

/-- The thread has the answer to its last operation and goes on to the next one, or is through
with its trial. -/
def goOn (s : Session E) : Option (Session E) :=
  match s.stage, Machine.answer? s.workshop with
  | .resting, _ => none
  | _, none => none
  | _, some (.error e) => some (s.conclude (.error e))
  | .clearing updates, some (.ok _) => s.operate (.run updates) .starting
  | .starting, some (.ok (.quota units)) =>
    s.operate (.wait (s.limit.map Time.Span.nanos)) (.waiting units)
  | .starting, some (.ok .done) => s.operate (.wait (s.limit.map Time.Span.nanos)) (.waiting 0)
  | .waiting _, some (.ok _) => some (s.conclude (.ok (Workshop.sample s.workshop)))

/-- The thread gives its trial up. -/
def abandon (s : Session E) : Session E :=
  { s with workshop := Machine.giveUp s.workshop }.conclude
    (.error (.inFlight s.workshop.tally.trial))

end Session

end SpeedTrial.Profile
