import SpeedTrial.Job.Document
import SpeedTrial.Job.Legacy
import SpeedTrial.Host.Basic
import SpeedTrial.Failure

/-!
# Job files

A job file whose name ends in `.toml`, in any case, is a TOML document; any other is a
property file.
-/

namespace SpeedTrial.Job

open SpeedTrial.Host SpeedTrial.Text

/-- Reads a job from a TOML document.  Why the text is not one is not told. -/
def Config.ofToml (text : String) : Except Failure Config :=
  match Config.ofDocument? text with
  | some c => .ok c
  | none => .error ⟨"Failed to parse TOML configuration", []⟩

/-- A fault of a property file, as the user is told of it. -/
def propertyFailure (e : PropertyError) : Failure := ⟨e.message, []⟩

/-- Reads a job from the text of a property file with the given path. -/
def Config.ofPropertyFile (path : RawText) (text : String) : Except Failure Config :=
  match Properties.ofText text with
  | .error e => .error ((propertyFailure e).within s!"Failed to parse job file: {path.shown}")
  | .ok p =>
    match Config.ofProperties p with
    | .error e => .error ((propertyFailure e).within s!"Invalid job file: {path.shown}")
    | .ok c => .ok c

/-- Whether a path names a TOML document. -/
def isToml (path : RawText) : Bool :=
  match Path.extension? path with
  | some ending => ending.lowered = .ofText "toml"
  | none => false

/-- Loads a job file. -/
def Config.load {m : Type → Type} [Monad m] [Host m] (path : RawText) :
    m (Except Failure Config) := do
  let toml := isToml path
  match ← Host.readFile path with
  | .error e =>
    let kind := if toml then "config" else "job"
    return .error ((Failure.mk e.message []).within s!"Failed to read {kind} file: {path.shown}")
  | .ok text =>
    if toml then
      return withContext s!"Failed to parse config file: {path.shown}" (Config.ofToml text)
    else return Config.ofPropertyFile path text

end SpeedTrial.Job
