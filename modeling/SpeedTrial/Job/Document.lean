import SpeedTrial.Job.Config
import SpeedTrial.Toml.Document

/-!
# Jobs in TOML documents

A job in a TOML document has one table per section.  What is missing has its default, and
keys that no section knows do not count.

A section may also be an array that lists the values of its keys by position.  Then what is
missing at the end has its default only if the key always has a value; a key that may stay
unset has to be in the list.  A moment has no keys at all, so it stands for the section with
nothing in it.
-/

namespace SpeedTrial.Job

open SpeedTrial.Toml SpeedTrial.Plan

/-! ## Values -/

/-- An unsigned integer of so many bits. -/
def unsigned? (bits : Nat) : Node → Option Nat
  | .integer n => if 0 ≤ n ∧ n < Numeric.twoPow bits then some n.toNat else none
  | _ => none

/-- A double; an integer will do. -/
def fraction? : Node → Option Float
  | .double x => some x
  | .integer n => some (Numeric.nearest (n < 0) n.natAbs 1)
  | _ => none

/-- A truth value. -/
def flag? : Node → Option Bool
  | .bool b => some b
  | _ => none

/-- A text. -/
def text? : Node → Option String
  | .text s => some s
  | _ => none

/-- The path of a file. -/
def path? (n : Node) : Option Text.RawText := (text? n).map .ofText

/-- Whether a node has nothing in it. -/
def isVacant : Node → Bool
  | .array items => items.isEmpty
  | .closed es => es.isEmpty
  | .table _ es => es.isEmpty
  | .tables items => items.isEmpty
  | _ => false

/-- The name of a choice: a text, or a table with that name as its only key and nothing below
it. -/
def choice? : Node → Option String
  | .text s => some s
  | .closed [(key, n)] => if isVacant n then some key else none
  | .table _ [(key, n)] => if isVacant n then some key else none
  | _ => none

/-- One of several choices with names. -/
def oneOf? {α : Type} (name : α → String) (choices : List α) (n : Node) : Option α := do
  let chosen ← choice? n
  choices.find? fun a => name a = chosen

/-! ## Sections -/

/-- What is in a section. -/
inductive Section where
  | named (entries : Entries)
  | listed (items : List Node)

/-- The section that a node is. -/
def Section.ofNode? : Node → Option Section
  | .closed es => some (.named es)
  | .table _ es => some (.named es)
  | .array items => some (.listed items)
  | .tables items => some (.listed (items.map (.table .header)))
  | .moment => some (.named [])
  | _ => none

/-- A key that always has a value. -/
def Section.setting {α : Type} (s : Section) (position : Nat) (key : String)
    (read : Node → Option α) (default : α) : Option α :=
  let n := match s with
    | .named es => es.lookup key
    | .listed items => items[position]?
  match n with
  | some n => read n
  | none => some default

/-- A key that may stay unset. -/
def Section.optional {α : Type} (s : Section) (position : Nat) (key : String)
    (read : Node → Option α) : Option (Option α) :=
  match s with
  | .named es =>
    match es.lookup key with
    | some n => (read n).map some
    | none => some none
  | .listed items =>
    match items[position]? with
    | some n => (read n).map some
    | none => none

/-- Reads a node as a section. -/
def readSection {α : Type} (read : Section → Option α) (n : Node) : Option α := do
  read (← Section.ofNode? n)

/-! ## The sections of a job -/

/-- Reads the sweep. -/
def planOfSection (s : Section) : Option SweepPlan := do
  let d : SweepPlan := {}
  return {
    lgMinTrials := ← s.setting 0 "lg_min_t" (unsigned? 32) d.lgMinTrials
    lgMaxTrials := ← s.setting 1 "lg_max_t" (unsigned? 32) d.lgMaxTrials
    lgMinUpdates := ← s.setting 2 "lg_min_u" (unsigned? 32) d.lgMinUpdates
    lgMaxUpdates := ← s.setting 3 "lg_max_u" (unsigned? 32) d.lgMaxUpdates
    perOctave := ← s.setting 4 "u_ppo" (unsigned? 32) d.perOctave
    lgSlopeStart := ← s.setting 5 "lg_min_bpu" (unsigned? 32) d.lgSlopeStart
    lgSlopeEnd := ← s.setting 6 "lg_max_bpu" (unsigned? 32) d.lgSlopeEnd }

/-- Reads the workers. -/
def concurrencyOfSection (s : Section) : Option Concurrency := do
  let d : Concurrency := {}
  return {
    writers := ← s.setting 0 "writers" (unsigned? 64) d.writers
    readers := ← s.setting 1 "readers" (unsigned? 64) d.readers
    writesRatio := ← s.setting 2 "writes_ratio" fraction? d.writesRatio
    mode := ← s.setting 3 "mode" (oneOf? Sketch.Kind.name [.locked, .buffered]) d.mode
    flushEvery := ← s.setting 4 "flush_every" (unsigned? 64) d.flushEvery
    readerIntervalMicros := ← s.optional 5 "reader_interval_us" (unsigned? 64)
    freeze := ← s.setting 6 "freeze"
      (oneOf? Trial.FreezeScope.name [.everyone, .readersOnly]) d.freeze
    pollIntervalMicros := ← s.setting 7 "poll_interval_us" (unsigned? 64) d.pollIntervalMicros
    trialTimeoutSeconds := ← s.optional 8 "trial_timeout_secs" (unsigned? 64) }

/-- Reads the values. -/
def valuesOfSection (s : Section) : Option Values := do
  return {
    mode := ← s.setting 0 "mode" (oneOf? Stream.Kind.name [.sequential, .uniform]) .sequential
    seed := UInt64.ofNat (← s.setting 1 "seed" (unsigned? 64) 0) }

/-- Reads where the reports go. -/
def outputOfSection (s : Section) : Option Output := do
  return {
    textOutput := ← s.optional 0 "text_output" path?
    jsonOutput := ← s.optional 1 "json_output" path?
    quiet := ← s.setting 2 "quiet" flag? false }

/-- Reads how the program behaves. -/
def runtimeOfSection (s : Section) : Option Runtime := do
  return {
    debug := ← s.setting 0 "debug" flag? false
    dryRun := ← s.setting 1 "dry_run" flag? false }

/-- Reads a job from the contents of a document. -/
def configOfEntries (es : Entries) : Option Config := do
  let s := Section.named es
  return {
    profile := ← s.setting 0 "profile"
      (oneOf? Profile.Kind.name [.multithreaded, .update]) .multithreaded
    trials := ← s.setting 1 "trials" (readSection planOfSection) {}
    concurrency := ← s.setting 2 "concurrency" (readSection concurrencyOfSection) {}
    values := ← s.setting 3 "values" (readSection valuesOfSection) {}
    output := ← s.setting 4 "output" (readSection outputOfSection) {}
    runtime := ← s.setting 5 "runtime" (readSection runtimeOfSection) {} }

/-- Reads a job from a TOML document; nothing if the text is not TOML or not a job. -/
def Config.ofDocument? (text : String) : Option Config := do
  configOfEntries (← document? text)

end SpeedTrial.Job
