import SpeedTrial.Profile.Kind
import SpeedTrial.Profile.Settings
import SpeedTrial.Plan.Basic
import SpeedTrial.Json

/-!
# Jobs

A job says what is measured, along which axis, with which workers and values, and where the
reports go.  Every part has a default, so that the empty job is a job.

* `Config` is a job, and `Config.settings` is its part for a profile with many threads.
* `Config.data` is a job as it stands in a report.
* `Config.properties` is a job as a flat list of keys and values.
* `Config.summary` is a job for people.
-/

namespace SpeedTrial.Job

open SpeedTrial.Plan SpeedTrial.Text

/-- The workers of a job. -/
structure Concurrency where
  writers : Nat := 1
  readers : Nat := 0
  writesRatio : Float := 0.0
  mode : Sketch.Kind := .locked
  flushEvery : Nat := 64
  readerIntervalMicros : Option Nat := none
  freeze : Trial.FreezeScope := .everyone
  pollIntervalMicros : Nat := 1000
  trialTimeoutSeconds : Option Nat := none

/-- The values that writers insert. -/
structure Values where
  mode : Stream.Kind := .sequential
  seed : UInt64 := 0
  deriving DecidableEq, Repr

/-- Where the reports of a job go. -/
structure Output where
  /-- A file or a directory for the text report. -/
  textOutput : Option RawText := none
  /-- A file or a directory for the JSON report. -/
  jsonOutput : Option RawText := none
  /-- Whether nothing is printed. -/
  quiet : Bool := false
  deriving DecidableEq, Repr

/-- How the program itself behaves. -/
structure Runtime where
  debug : Bool := false
  /-- Whether the job is only checked and shown. -/
  dryRun : Bool := false
  deriving DecidableEq, Repr

/-- A job. -/
structure Config where
  profile : Profile.Kind := .multithreaded
  trials : SweepPlan := {}
  concurrency : Concurrency := {}
  values : Values := {}
  output : Output := {}
  runtime : Runtime := {}

namespace Config

/-- The part of a job that a profile with many threads needs. -/
def settings (c : Config) : Profile.Settings :=
  let k := c.concurrency
  { writers := k.writers
    readers := k.readers
    writesRatio := k.writesRatio
    mode := k.mode.mode k.flushEvery
    readerInterval := k.readerIntervalMicros.map Time.Span.ofMicros
    values := c.values.mode
    seed := c.values.seed
    freeze := k.freeze
    pollInterval := Time.Span.ofMicros k.pollIntervalMicros
    trialTimeout := k.trialTimeoutSeconds.map fun s => Time.Span.ofSeconds s 0 }

/-! ## As JSON -/

open Json in
/-- The sweep of a job. -/
def planJson (p : SweepPlan) : Value :=
  .object
    [("lg_min_t", .integer p.lgMinTrials), ("lg_max_t", .integer p.lgMaxTrials),
      ("lg_min_u", .integer p.lgMinUpdates), ("lg_max_u", .integer p.lgMaxUpdates),
      ("u_ppo", .integer p.perOctave), ("lg_min_bpu", .integer p.lgSlopeStart),
      ("lg_max_bpu", .integer p.lgSlopeEnd)]

open Json in
/-- The workers of a job. -/
def concurrencyJson (k : Concurrency) : Value :=
  .object
    [("writers", .integer k.writers), ("readers", .integer k.readers),
      ("writes_ratio", .double k.writesRatio), ("mode", .text k.mode.name),
      ("flush_every", .integer k.flushEvery),
      ("reader_interval_us", .optional (fun n : Nat => .integer n) k.readerIntervalMicros),
      ("freeze", .text k.freeze.name), ("poll_interval_us", .integer k.pollIntervalMicros),
      ("trial_timeout_secs", .optional (fun n : Nat => .integer n) k.trialTimeoutSeconds)]

open Json in
/-- A job, with every field. -/
def data (c : Config) : Data :=
  .object
    [("profile", .value (.text c.profile.name)),
      ("trials", .value (planJson c.trials)),
      ("concurrency", .value (concurrencyJson c.concurrency)),
      ("values", .value (.object
        [("mode", .text c.values.mode.name), ("seed", .integer c.values.seed.toNat)])),
      ("output", .object
        [("text_output", .optional .path c.output.textOutput),
          ("json_output", .optional .path c.output.jsonOutput),
          ("quiet", .value (.bool c.output.quiet))]),
      ("runtime", .value (.object
        [("debug", .bool c.runtime.debug), ("dry_run", .bool c.runtime.dryRun)]))]

/-! ## As a flat list -/

/-- A job as keys and values, by key.  What is not set and what is not finite is left out, and
everything is if the job has no value. -/
def properties (c : Config) : List (String × String) :=
  match c.data.value? with
  | some v => v.sorted.flatten "" []
  | none => []

/-! ## For people -/

/-- One clause of a summary for each part that is there. -/
def clauses (separator : String) (parts : List (Option String)) : String :=
  separator.intercalate (parts.filterMap id)

/-- The sweep of a job in words. -/
def planSummary (p : SweepPlan) : String :=
  s!"u=2^{p.lgMinUpdates}..2^{p.lgMaxUpdates} ({p.perOctave} per octave), " ++
    s!"trials=2^{p.lgMinTrials}..2^{p.lgMaxTrials}, " ++
    s!"slope between 2^{p.lgSlopeStart} and 2^{p.lgSlopeEnd}"

/-- The workers of a job in words. -/
def concurrencySummary (k : Concurrency) : String :=
  clauses ", "
    [some s!"{k.writers} writer(s)", some s!"{k.readers} reader(s)", some s!"mode={k.mode.name}",
      if k.mode = .buffered then some s!"flush_every={k.flushEvery}" else none,
      if k.writesRatio > 0.0 then
        some ("writes_ratio=" ++ Decimal.plain.format k.writesRatio) else none,
      k.readerIntervalMicros.map fun n => s!"reader_interval={n}us",
      some s!"freeze={k.freeze.name}",
      k.trialTimeoutSeconds.map fun n => s!"trial_timeout={n}s"]

/-- The values of a job in words. -/
def valuesSummary (v : Values) : String :=
  match v.mode with
  | .sequential => v.mode.name
  | .uniform => s!"{v.mode.name} (seed={v.seed})"

/-- The reports of a job in words. -/
def outputSummary (o : Output) : String :=
  let text := clauses ", "
    [o.textOutput.map ("text=" ++ ·.shown), o.jsonOutput.map ("json=" ++ ·.shown),
      if o.quiet then some "quiet" else none]
  if text.isEmpty then "stdout" else text

/-- A job in words, one part to a line. -/
def summary (c : Config) : String :=
  let line (name text : String) := s!"  {name}: {text}\n"
  "Configuration:\n" ++ line "Profile" c.profile.name ++
    line "Trials" (planSummary c.trials) ++
    (match c.profile with
      | .multithreaded => line "Concurrency" (concurrencySummary c.concurrency)
      | .update => "") ++
    line "Values" (valuesSummary c.values) ++ line "Output" (outputSummary c.output)

end Config

end SpeedTrial.Job
