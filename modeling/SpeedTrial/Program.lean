import SpeedTrial.Job.Arguments
import SpeedTrial.Job.Load
import SpeedTrial.Job.Validation
import SpeedTrial.Profile.Concurrent
import SpeedTrial.Profile.Update
import SpeedTrial.Report.Record
import SpeedTrial.Report.Table

/-!
# The program

The program reads a command line, loads and checks a job, runs its sweep, and writes the
reports.  It runs on any host.  It may end early in two ways: with a failure, of which the user is
told, or on the spot when a word overflows.

* `runJob` runs a job, and `run` a command line; the result of `run` is the exit status.
-/

namespace SpeedTrial.Program

open SpeedTrial.Host SpeedTrial.Job SpeedTrial.Profile SpeedTrial.Report SpeedTrial.Stats
open SpeedTrial.Text

variable {m : Type → Type} [Monad m] [Host m]

/-! ## Running a job -/

/-- Why the program ends early. -/
inductive Ending where
  | failure (f : Failure)
  | overflow (o : Numeric.Overflow)

/-- Goes on unless there is a failure. -/
def orFail {α : Type} (x : m (Except Failure α)) : ExceptT Ending m α :=
  (ExceptT.mk x).adapt .failure

/-- Something to be measured, beside a table that is being written. -/
def besideTable {σ ε : Type} (b : Bench (StateT σ m) ε) : Bench (StateT (σ × Table) m) ε where
  trial updates := fun (s, t) => do
    let (r, s) ← b.trial updates s
    return (r, (s, t))
  cleanup := fun (s, t) => do
    let ((), s) ← b.cleanup s
    return ((), (s, t))

/-- Writes a row of a sweep into the table. -/
def tableSink {σ : Type} (p : PointStats) :
    StateT (σ × Table) m (Except Failure Unit) := fun (s, t) => do
  match ← t.row p with
  | .error f => return (.error f, (s, t))
  | .ok t => return (.ok (), (s, t))

/-- Runs the sweep of a job and writes its rows. -/
def runSweep {σ : Type} (bench : Bench (StateT σ m) Failure) (state : σ) (c : Config)
    (t : Table) : m (Except Ending (List PointStats × Table)) := do
  let (result, _, t) ← sweep (besideTable bench) c.trials tableSink (state, t)
  match result with
  | .error o =>
    t.abandon
    return .error (.overflow o)
  | .ok (.error e) =>
    t.abandon
    return .error (.failure (e.failure.within s!"Profile '{c.profile.name}' failed"))
  | .ok (.ok points) => return .ok (points, t)

/-- Writes the record of a job, if one is wanted. -/
def writeRecord (c : Config) (t : Table) (startNanos : Nat) (points : List PointStats) :
    m (Except Failure Unit) := do
  match c.output.jsonOutput with
  | none => return .ok ()
  | some path =>
    let path ← destination path c.profile.name "json" t.startedAt
    let elapsed : Time.Span := ⟨(← Host.clock) - startNanos⟩
    let record : Record := ⟨c, ← Host.hostName, t.startedAt, elapsed, points⟩
    record.write path

/-- Runs a job with something to be measured. -/
def runWith {σ : Type} (bench : Bench (StateT σ m) Failure) (state : σ) (c : Config)
    (startNanos : Nat) : ExceptT Ending m Unit := do
  let path ← match c.output.textOutput with
    | none => pure none
    | some path =>
      let now ← (Host.now : m Time.Instant)
      some <$> (destination path c.profile.name "txt" now : m RawText)
  let t ← orFail (Table.create c.profile.name path c.output.quiet)
  let t ← orFail t.begin
  let (points, t) ← ExceptT.mk (runSweep bench state c t)
  let t ← orFail (t.finish c.properties)
  orFail (writeRecord c t startNanos points)

/-- Runs a job. -/
def runJob (c : Config) : ExceptT Ending m Unit := do
  let startNanos ← (Host.clock : m Nat)
  match c.profile with
  | .multithreaded =>
    let settings := c.settings
    let workshop ← orFail
      (pure (withContext "Failed to start workers" (Workshop.launched settings)))
    runWith (concurrentBench settings.trialTimeout) workshop c startNanos
  | .update =>
    runWith updateBench (updateSource c.values.mode c.values.seed) c startNanos

/-! ## The command line -/

/-- What is printed instead of running a job. -/
def dryRunText (c : Config) : String :=
  c.summary ++ "\nDry run mode - configuration validated successfully\n"

/-- Warns of more workers than processors. -/
def warn (c : Config) : m Unit := do
  match c.profile with
  | .update => return ()
  | .multithreaded =>
    match oversubscription? c.concurrency (← Host.processors) with
    | some text => Host.complain s!"Warning: {text}\n"
    | none => return ()

/-- The job that a command line asks for. -/
def loadJob (a : Arguments) : m (Except Failure Config) := do
  match a.job with
  | none => return .ok (a.applyTo {})
  | some path =>
    match ← Config.load path with
    | .error f => return .error (f.within s!"Failed to load job file: {path.shown}")
    | .ok c => return .ok (a.applyTo c)

/-- Does what a command line asks for. -/
def perform (a : Arguments) : ExceptT Ending m Unit := do
  let c ← orFail (loadJob a)
  match c.fault? with
  | some fault =>
    throw (.failure ((Failure.mk fault.message []).within "Configuration validation failed"))
  | none =>
    (warn c : m Unit)
    if c.runtime.dryRun then (Host.print (dryRunText c) : m Unit) else runJob c

/-- One line for each flag. -/
def usage : String :=
  let line (f : Flag) : String :=
    let short := match f.short with
      | some c => s!", -{c}"
      | none => ""
    let value := match f.action with
      | .setting _ => " <VALUE>"
      | _ => ""
    s!"  --{f.long}{short}{value}\n"
  s!"Usage: {toolName} [OPTIONS] [JOB]\n\nOptions:\n" ++ String.join (flags.map line)

/-- The environment variable that names a job file. -/
def jobVariable : String := "SKETCHPULSE_JOB"

/-- Runs a command line. -/
def run (arguments : List RawText) : m UInt32 := do
  match Arguments.read arguments (← Host.environment? jobVariable) with
  | .error .displayVersion =>
    Host.print s!"{toolName} {toolVersion}\n"
    return 0
  | .error .displayHelp =>
    Host.print usage
    return 0
  | .error _ =>
    Host.complain usage
    return 2
  | .ok a =>
    match ← (perform a).run with
    | .ok () => return 0
    | .error (.failure f) =>
      Host.complain f.report
      return 1
    | .error (.overflow o) =>
      Host.complain s!"{o.message}\n"
      return 101

end SpeedTrial.Program
