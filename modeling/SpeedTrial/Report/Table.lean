import SpeedTrial.Report.Draft
import SpeedTrial.Stats.Point

/-!
# The table of a job

While a sweep runs its rows are printed and written to a file, each as soon as it is complete.
Before the rows come a banner and the names of the columns, after them the properties of the
job and how long it took.

* `Table.create` makes the file, `Table.begin` writes what comes before the rows.
* `Table.row` writes one row, and `Table.finish` what comes after them.
* `Table.abandon` is for a sweep that fails.
-/

namespace SpeedTrial.Report

open SpeedTrial.Host SpeedTrial.Stats SpeedTrial.Text

/-- A table that is being written. -/
structure Table where
  profile : String
  /-- Whether nothing is printed. -/
  quiet : Bool
  draft : Option Draft
  startedAt : Time.Instant
  /-- When it was started, on the clock. -/
  startNanos : Nat

/-- The names of the columns. -/
def header : String :=
  "\t".intercalate ["InU", "Trials", "nS/u", "Writes", "Reads", "P50nS", "MinnS", "MaxnS"]

variable {m : Type → Type} [Monad m] [Host m]

namespace Table

/-- A failure to write to the file of a table. -/
def failure (path : RawText) (e : FileError) : Failure :=
  (fileFailure e).within s!"Failed to write text report: {path.shown}"

/-- A table that has just been started. -/
def started (profile : String) (quiet : Bool) (draft : Option Draft) : m Table := do
  let startedAt ← Host.now
  let startNanos ← Host.clock
  return { profile, quiet, draft, startedAt, startNanos }

/-- Starts a table, perhaps with a file. -/
def create (profile : String) (path : Option RawText) (quiet : Bool) :
    m (Except Failure Table) := do
  match path with
  | none => return .ok (← started profile quiet none)
  | some path =>
    match ← Draft.create "text" path with
    | .error f => return .error f
    | .ok draft => return .ok (← started profile quiet (some draft))

/-- Writes a line to the terminal and then to the file. -/
def line (t : Table) (text : String) : m (Except Failure Table) := do
  if !t.quiet then Host.print (text ++ "\n")
  match t.draft with
  | none => return .ok t
  | some draft =>
    match ← draft.writeAll [text, "\n"] with
    | .error e => return .error (failure draft.path e)
    | .ok draft => return .ok { t with draft := some draft }

/-- Writes several lines. -/
def lines (t : Table) : List String → m (Except Failure Table)
  | [] => return .ok t
  | text :: rest => do
    match ← t.line text with
    | .error f => return .error f
    | .ok t => t.lines rest

/-- Writes what comes before the rows. -/
def begin (t : Table) : m (Except Failure Table) :=
  t.lines [s!"START JOB {t.profile}", s!"Start Time            : {t.startedAt.timestamp}", header]

/-- Writes one row. -/
def row (t : Table) (p : PointStats) : m (Except Failure Table) := t.line p.row

/-- Writes what comes after the rows, and completes the file. -/
def finish (t : Table) (properties : List (String × String)) : m (Except Failure Table) := do
  match ← t.lines ("PROPERTIES:" :: properties.map fun (k, v) => s!"{k}={v}") with
  | .error f => return .error f
  | .ok t =>
    let taken : Time.Span := ⟨(← Host.clock) - t.startNanos⟩
    match ← t.lines [s!"Total Job Time        : {taken.clock}", s!"END JOB {t.profile}"] with
    | .error f => return .error f
    | .ok t =>
      match t.draft with
      | none => return .ok t
      | some draft =>
        match ← draft.flush with
        | .error e => return .error (failure draft.path e)
        | .ok draft => return .ok { t with draft := some draft }

/-- Gives a table up; its file keeps what was written so far. -/
def abandon (t : Table) : m Unit :=
  match t.draft with
  | none => return ()
  | some draft => draft.abandon

end Table

end SpeedTrial.Report
