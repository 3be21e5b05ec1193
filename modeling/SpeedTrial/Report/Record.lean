import SpeedTrial.Report.Draft
import SpeedTrial.Stats.Point
import SpeedTrial.Job.Config

/-!
# The record of a job

A record is one JSON document with everything about a finished job: the program, the machine,
the job itself and all rows.
-/

namespace SpeedTrial.Report

open SpeedTrial.Host SpeedTrial.Stats SpeedTrial.Text

/-- The name that the program goes by. -/
def toolName : String := "sketchpulse"

/-- The version of the program. -/
def toolVersion : String := "0.1.0"

/-- A finished job. -/
structure Record where
  config : Job.Config
  host : String
  startedAt : Time.Instant
  elapsed : Time.Span
  points : List PointStats

namespace Record

/-- A span of time, once as a word of microseconds and once for people. -/
def spanJson (d : Time.Span) : Json.Value :=
  .object [("micros", .integer (d.micros % Numeric.wordLimit)), ("human", .text d.human)]

/-- A record as JSON. -/
def data (r : Record) : Json.Data :=
  .object
    [("tool", .value (.text toolName)), ("version", .value (.text toolVersion)),
      ("profile", .value (.text r.config.profile.name)), ("host", .value (.text r.host)),
      ("started_at", .value (.text r.startedAt.timestamp)),
      ("elapsed", .value (spanJson r.elapsed)), ("config", r.config.data),
      ("points", .value (.array (r.points.map PointStats.json)))]

variable {m : Type → Type} [Monad m] [Host m]

/-- Writes a record to a file, line by line.  If a path in it is not a text, the file keeps what
comes before. -/
def write (r : Record) (path : RawText) : m (Except Failure Unit) := do
  let failure (f : Failure) := f.within s!"Failed to write JSON report: {path.shown}"
  match ← Draft.create "JSON" path with
  | .error f => return .error f
  | .ok draft =>
    let (text, complete) := r.data.writtenAt 0
    match ← draft.writeAll ((text.splitOn "\n").intersperse "\n") with
    | .error e => return .error (failure (fileFailure e))
    | .ok draft =>
      if !complete then
        draft.abandon
        return .error (failure ⟨Json.notTextMessage, []⟩)
      match ← draft.write "\n" with
      | .error e => return .error (fileFailure e)
      | .ok draft =>
        match ← draft.flush with
        | .error e => return .error (fileFailure e)
        | .ok _ => return .ok ()

end Record

end SpeedTrial.Report
