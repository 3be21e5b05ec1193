import SpeedTrial.Host.Basic
import SpeedTrial.Failure

/-!
# Files that are written piece by piece

What is written to a report is gathered, and goes into the file only when the next piece
would not fit with what was gathered before, or at the end.  So a file that cannot be written
is noticed late: with the first piece that does not fit.

* `Draft.write` adds a piece, and `Draft.flush` empties what is gathered into the file.
* `destination` decides where a report goes.
-/

namespace SpeedTrial.Report

open SpeedTrial.Host SpeedTrial.Text

/-- A failure about a file, as the user is told of it. -/
def fileFailure (e : FileError) : Failure := ⟨e.message, []⟩

/-- A file that is being written. -/
structure Draft where
  path : RawText
  gathered : String := ""
  deriving DecidableEq, Repr

/-- How many bytes are gathered at most. -/
def capacity : Nat := 8192

variable {m : Type → Type} [Monad m] [Host m]

namespace Draft

/-- Empties what is gathered into the file. -/
def flush (d : Draft) : m (Except FileError Draft) := do
  if d.gathered.isEmpty then return .ok d
  match ← Host.append d.path d.gathered with
  | .error e => return .error e
  | .ok () => return .ok { d with gathered := "" }

/-- Adds a piece that fits, or writes it at once if it is as long as what can be gathered. -/
def gather (d : Draft) (piece : String) : m (Except FileError Draft) := do
  if piece.utf8ByteSize < capacity then return .ok { d with gathered := d.gathered ++ piece }
  match ← Host.append d.path piece with
  | .error e => return .error e
  | .ok () => return .ok d

/-- Adds a piece. -/
def write (d : Draft) (piece : String) : m (Except FileError Draft) := do
  if d.gathered.utf8ByteSize + piece.utf8ByteSize ≤ capacity then d.gather piece
  else match ← d.flush with
    | .error e => return .error e
    | .ok d => d.gather piece

/-- Empties what is gathered into the file of a report that is given up, if that is
possible. -/
def abandon (d : Draft) : m Unit := do
  let _ ← d.flush

/-- Adds pieces one after the other. -/
def writeAll (d : Draft) : List String → m (Except FileError Draft)
  | [] => return .ok d
  | piece :: rest => do
    match ← d.write piece with
    | .error e => return .error e
    | .ok d => d.writeAll rest

/-- Makes the file and the directory it is in.  The two causes of failure are told apart: a
directory that cannot be made stands for itself. -/
def create (kind : String) (path : RawText) : m (Except Failure Draft) := do
  match ← makeParent path with
  | .error e => return .error (fileFailure e)
  | .ok () =>
    match ← Host.createFile path with
    | .error e =>
      return .error ((fileFailure e).within s!"Failed to create {kind} report: {path.shown}")
    | .ok () => return .ok { path := path }

end Draft

/-- The name of a report in a directory. -/
def fileName (profile ending : String) (t : Time.Instant) : String :=
  s!"{profile}_{t.fileStamp}.{ending}"

/-- Where a report goes: a directory, or a path that ends in a slash, gets a file named for
the profile and the time; any other path is the file itself. -/
def destination (path : RawText) (profile ending : String) (t : Time.Instant) : m RawText := do
  if (← Host.isDirectory path) || Path.endsInSlash path then
    return Path.join path (.ofText (fileName profile ending t))
  else return path

end SpeedTrial.Report
