import SpeedTrial.Job.Config
import SpeedTrial.Decimal.Reader

/-!
# Command lines

A command line names at most one job file and may override parts of the job.  It is read
from left to right.  A value is checked only when the argument after it is understood, so an
unknown flag is told before the bad value in front of it.

Arguments are raw texts.  Flags are found by their bytes, paths are taken as they are, and every
other value has to be a text.

* `Arguments` is what a command line says.
* `Reading.step` reads one argument, and `Arguments.read` a whole command line.
* `Arguments.applyTo` overrides a job.
-/

namespace SpeedTrial.Job

open SpeedTrial.Decimal SpeedTrial.Text

/-! ## What a command line says -/

/-- A command line. -/
structure Arguments where
  job : Option RawText := none
  profile : Option Profile.Kind := none
  writers : Option Nat := none
  readers : Option Nat := none
  writesRatio : Option Float := none
  mode : Option Sketch.Kind := none
  flushEvery : Option Nat := none
  readerIntervalMicros : Option Nat := none
  freeze : Option Trial.FreezeScope := none
  trialTimeoutSeconds : Option Nat := none
  lgMinUpdates : Option Nat := none
  lgMaxUpdates : Option Nat := none
  perOctave : Option Nat := none
  values : Option Stream.Kind := none
  seed : Option Nat := none
  textOutput : Option RawText := none
  jsonOutput : Option RawText := none
  quiet : Bool := false
  dryRun : Bool := false
  debug : Bool := false

/-- Why a command line does not start a job. -/
inductive UsageError where
  /-- A flag that does not exist, or a second job file. -/
  | unknownArgument
  /-- A value that is missing, empty, or none of those to choose from. -/
  | invalidValue
  /-- A value that is not a number. -/
  | valueValidation
  /-- A value that would have to be a number and is not even a text. -/
  | invalidText
  /-- A flag that is given twice. -/
  | argumentConflict
  /-- A value for a flag that takes none. -/
  | tooManyValues
  /-- The user asks for help. -/
  | displayHelp
  /-- The user asks for the version. -/
  | displayVersion
  deriving DecidableEq, Repr

/-! ## Values -/

/-- One of several choices with names. -/
def chooseBy {α : Type} (name : α → String) (choices : List α) (r : RawText) :
    Except UsageError α :=
  match choices.find? fun a => r = .ofText (name a) with
  | some a => .ok a
  | none => .error .invalidValue

/-- A value that has to be a text. -/
def readText {α : Type} (read : String → Except UsageError α) (r : RawText) :
    Except UsageError α :=
  match r.text? with
  | some s => read s
  | none => .error .invalidText

/-- An unsigned integer of 64 bits. -/
def readCount : RawText → Except UsageError Nat := readText fun s =>
  (readWord Numeric.maxWord s).mapError fun _ => .valueValidation

/-- An unsigned integer of 32 bits.  A minus sign is read, and then the number has to be
zero. -/
def readExponent : RawText → Except UsageError Nat := readText fun s =>
  match s.toList with
  | '-' :: cs =>
    match readDigits 0 0 cs with
    | .ok 0 => if cs.isEmpty then .error .valueValidation else .ok 0
    | _ => .error .valueValidation
  | _ => (readWord (Numeric.twoPow 32 - 1) s).mapError fun _ => .valueValidation

/-- A double. -/
def readRatio : RawText → Except UsageError Float := readText fun s =>
  (readDouble s).mapError fun _ => .valueValidation

/-- The name of a file. -/
def readPath (r : RawText) : Except UsageError RawText :=
  if r.isEmpty then .error .invalidValue else .ok r

/-- The name of a freeze scope on a command line. -/
def freezeName : Trial.FreezeScope → String
  | .everyone => "everyone"
  | .readersOnly => "readers-only"

/-! ## Flags -/

/-- A flag that takes a value. -/
structure Setting where
  /-- Whether it was given before. -/
  isGiven : Arguments → Bool
  /-- Reads its value. -/
  assign : RawText → Arguments → Except UsageError Arguments

/-- The setting for one field. -/
def Setting.of {α : Type} (get : Arguments → Option α) (set : Arguments → α → Arguments)
    (read : RawText → Except UsageError α) : Setting where
  isGiven a := (get a).isSome
  assign r a := (read r).map (set a)

/-- A flag that takes none. -/
structure Switch where
  /-- Whether it was given before. -/
  isGiven : Arguments → Bool
  /-- Gives it. -/
  give : Arguments → Arguments

/-- What a flag does. -/
inductive Action where
  | setting (s : Setting)
  | switch (s : Switch)
  | help
  | version

/-- A flag with its names. -/
structure Flag where
  long : String
  short : Option Char := none
  action : Action

/-- The flags that say what is measured and by whom. -/
def workerFlags : List Flag :=
  [⟨"profile", none, .setting (.of (·.profile) (fun a v => { a with profile := some v })
      (chooseBy Profile.Kind.name [.multithreaded, .update]))⟩,
    ⟨"writers", some 'w', .setting (.of (·.writers) (fun a v => { a with writers := some v })
      readCount)⟩,
    ⟨"readers", some 'r', .setting (.of (·.readers) (fun a v => { a with readers := some v })
      readCount)⟩,
    ⟨"writes-ratio", none, .setting (.of (·.writesRatio)
      (fun a v => { a with writesRatio := some v }) readRatio)⟩,
    ⟨"mode", none, .setting (.of (·.mode) (fun a v => { a with mode := some v })
      (chooseBy Sketch.Kind.name [.locked, .buffered]))⟩,
    ⟨"flush-every", none, .setting (.of (·.flushEvery)
      (fun a v => { a with flushEvery := some v }) readCount)⟩,
    ⟨"reader-interval", none, .setting (.of (·.readerIntervalMicros)
      (fun a v => { a with readerIntervalMicros := some v }) readCount)⟩,
    ⟨"freeze", none, .setting (.of (·.freeze) (fun a v => { a with freeze := some v })
      (chooseBy freezeName [.everyone, .readersOnly]))⟩,
    ⟨"trial-timeout", none, .setting (.of (·.trialTimeoutSeconds)
      (fun a v => { a with trialTimeoutSeconds := some v }) readCount)⟩]

/-- The flags that say along which axis and with which values. -/
def sweepFlags : List Flag :=
  [⟨"lg-min-u", none, .setting (.of (·.lgMinUpdates)
      (fun a v => { a with lgMinUpdates := some v }) readExponent)⟩,
    ⟨"lg-max-u", none, .setting (.of (·.lgMaxUpdates)
      (fun a v => { a with lgMaxUpdates := some v }) readExponent)⟩,
    ⟨"ppo", none, .setting (.of (·.perOctave)
      (fun a v => { a with perOctave := some v }) readExponent)⟩,
    ⟨"values", none, .setting (.of (·.values) (fun a v => { a with values := some v })
      (chooseBy Stream.Kind.name [.sequential, .uniform]))⟩,
    ⟨"seed", none, .setting (.of (·.seed) (fun a v => { a with seed := some v }) readCount)⟩]

/-- The flags that say where the reports go, and all others. -/
def programFlags : List Flag :=
  [⟨"text-output", none, .setting (.of (·.textOutput)
      (fun a v => { a with textOutput := some v }) readPath)⟩,
    ⟨"json-output", none, .setting (.of (·.jsonOutput)
      (fun a v => { a with jsonOutput := some v }) readPath)⟩,
    ⟨"quiet", some 'q', .switch ⟨(·.quiet), fun a => { a with quiet := true }⟩⟩,
    ⟨"dry-run", none, .switch ⟨(·.dryRun), fun a => { a with dryRun := true }⟩⟩,
    ⟨"debug", none, .switch ⟨(·.debug), fun a => { a with debug := true }⟩⟩,
    ⟨"help", some 'h', .help⟩,
    ⟨"version", some 'V', .version⟩]

/-- All flags. -/
def flags : List Flag := workerFlags ++ sweepFlags ++ programFlags

/-! ## Reading -/

/-- What was read last and is not checked yet. -/
inductive Pending where
  | nothing
  /-- A flag that still needs its value. -/
  | awaiting (s : Setting)
  /-- A flag with its value. -/
  | value (s : Setting) (text : RawText)
  /-- The name of the job file. -/
  | job (text : RawText)

/-- A command line that is being read. -/
structure Reading where
  arguments : Arguments := {}
  pending : Pending := .nothing
  /-- Whether there was a job file. -/
  hasJob : Bool := false
  /-- Whether there was a double dash: no flag comes after it. -/
  isPast : Bool := false

namespace Reading

/-- Gives a setting its value. -/
def assign (r : Reading) (s : Setting) (text : RawText) : Except UsageError Reading :=
  if s.isGiven r.arguments then .error .argumentConflict
  else (s.assign text r.arguments).map fun a => { r with arguments := a }

/-- Checks what is pending. -/
def resolve (r : Reading) : Except UsageError Reading :=
  let rest := { r with pending := .nothing }
  match r.pending with
  | .nothing => .ok rest
  | .awaiting _ => .error .invalidValue
  | .value s text => rest.assign s text
  | .job text =>
    (readPath text).map fun path => { rest with arguments.job := some path }

/-- Gives a switch. -/
def flip (r : Reading) (s : Switch) : Except UsageError Reading := do
  let r ← r.resolve
  if s.isGiven r.arguments then .error .argumentConflict
  else return { r with arguments := s.give r.arguments }

/-- A flag without a value next to it. -/
def flag (r : Reading) (a : Action) : Except UsageError Reading := do
  match a with
  | .setting s => return { ← r.resolve with pending := .awaiting s }
  | .switch s => r.flip s
  | .help =>
    let _ ← r.resolve
    .error .displayHelp
  | .version =>
    let _ ← r.resolve
    .error .displayVersion

/-- The byte between a flag and its value. -/
def equals : UInt8 := '='.toUInt8

/-- A flag by its long name, perhaps with a value behind an equals sign. -/
def longFlag (r : Reading) (bytes : List UInt8) : Except UsageError Reading :=
  let name : RawText := ⟨bytes.takeWhile (· ≠ equals)⟩
  match flags.find? fun f => name = .ofText f.long, bytes.dropWhile (· ≠ equals) with
  | none, _ => .error .unknownArgument
  | some f, [] => r.flag f.action
  | some f, _ :: value =>
    match f.action with
    | .setting s => do (← r.resolve).assign s ⟨value⟩
    | _ => .error .tooManyValues

/-- Flags by their short names, one after the other.  What follows one that takes a value is
its value, perhaps behind an equals sign. -/
def shortFlags : Reading → List UInt8 → Except UsageError Reading
  | r, [] => .ok r
  | r, b :: rest =>
    match flags.find? fun f => f.short.map Char.toUInt8 = some b with
    | none => .error .unknownArgument
    | some f =>
      match f.action, rest with
      | .setting s, [] => r.flag (.setting s)
      | .setting s, c :: value => do
        (← r.resolve).assign s (if c = equals then ⟨value⟩ else ⟨c :: value⟩)
      | a, rest => do (← r.flag a).shortFlags rest

/-- An argument that is no flag and no value. -/
def positional (r : Reading) (text : RawText) : Except UsageError Reading :=
  if r.hasJob then .error .unknownArgument
  else r.resolve.map fun r => { r with pending := .job text, hasJob := true }

/-- The byte that a flag begins with. -/
def dash : UInt8 := '-'.toUInt8

/-- Reads an argument that does not begin like a flag. -/
def plain (r : Reading) (text : RawText) : Except UsageError Reading :=
  match r.pending with
  | .awaiting s => .ok { r with pending := .value s text }
  | _ => r.positional text

/-- Reads one argument. -/
def step (r : Reading) (text : RawText) : Except UsageError Reading :=
  if r.isPast then r.positional text
  else match text.bytes with
    | first :: second :: rest =>
      if first ≠ dash then r.plain text
      else if second ≠ dash then r.shortFlags (second :: rest)
      else if rest.isEmpty then .ok { r with isPast := true }
      else r.longFlag rest
    | _ => r.plain text

/-- The end of the command line.  Without a job file there may be one in the environment. -/
def finish (r : Reading) (environmentJob : Option RawText) : Except UsageError Arguments := do
  let r ← r.resolve
  match r.hasJob, environmentJob with
  | false, some text => return { r.arguments with job := some (← readPath text) }
  | _, _ => return r.arguments

end Reading

namespace Arguments

/-- Reads a command line. -/
def read (arguments : List RawText) (environmentJob : Option RawText) :
    Except UsageError Arguments := do
  let r ← arguments.foldlM Reading.step {}
  r.finish environmentJob

/-- Overrides a job.  Switches only ever switch things on. -/
def applyTo (a : Arguments) (c : Config) : Config :=
  let k := c.concurrency
  { profile := a.profile.getD c.profile
    trials := { c.trials with
      lgMinUpdates := a.lgMinUpdates.getD c.trials.lgMinUpdates
      lgMaxUpdates := a.lgMaxUpdates.getD c.trials.lgMaxUpdates
      perOctave := a.perOctave.getD c.trials.perOctave }
    concurrency := { k with
      writers := a.writers.getD k.writers
      readers := a.readers.getD k.readers
      writesRatio := a.writesRatio.getD k.writesRatio
      mode := a.mode.getD k.mode
      flushEvery := a.flushEvery.getD k.flushEvery
      readerIntervalMicros := a.readerIntervalMicros.or k.readerIntervalMicros
      freeze := a.freeze.getD k.freeze
      trialTimeoutSeconds := a.trialTimeoutSeconds.or k.trialTimeoutSeconds }
    values :=
      { mode := a.values.getD c.values.mode
        seed := (a.seed.map UInt64.ofNat).getD c.values.seed }
    output :=
      { textOutput := a.textOutput.or c.output.textOutput
        jsonOutput := a.jsonOutput.or c.output.jsonOutput
        quiet := c.output.quiet || a.quiet }
    runtime :=
      { debug := c.runtime.debug || a.debug
        dryRun := c.runtime.dryRun || a.dryRun } }

end Arguments

end SpeedTrial.Job
