import SpeedTrial.Time.Calendar
import SpeedTrial.Host.Path

/-!
# Hosts

What the program needs from the machine it runs on: files, clocks, a terminal.  A host is a
monad with these operations, so the program is the same on a real machine and on a file tree
in memory.

* `Host` is the class of hosts.
* `makeDirectories` makes a directory with all that leads to it.
-/

namespace SpeedTrial.Host

/-! ## Failures -/

/-- Why a file could not be used. -/
inductive FileError where
  | notFound
  | notPermitted
  | alreadyExists
  | notADirectory
  | isADirectory
  | noSpaceLeft
  | nameTooLong
  /-- A path has the byte zero in it. -/
  | zeroInName
  /-- The contents of the file are not a text. -/
  | notText
  | other (text : String)
  deriving DecidableEq, Repr

/-- What the user is told. -/
def FileError.message : FileError → String
  | .notFound => "No such file or directory (os error 2)"
  | .notPermitted => "Permission denied (os error 13)"
  | .alreadyExists => "File exists (os error 17)"
  | .notADirectory => "Not a directory (os error 20)"
  | .isADirectory => "Is a directory (os error 21)"
  | .noSpaceLeft => "No space left on device (os error 28)"
  | .nameTooLong => "File name too long (os error 36)"
  | .zeroInName => "file name contained an unexpected NUL byte"
  | .notText => "stream did not contain valid UTF-8"
  | .other text => text

end SpeedTrial.Host

namespace SpeedTrial

/-! ## Operations -/

open Host (FileError)
open Text (RawText)

/-- A machine to run on. -/
class Host (m : Type → Type) where
  /-- Whether a path leads to a directory. -/
  isDirectory : RawText → m Bool
  /-- Makes a directory in one that exists. -/
  makeDirectory : RawText → m (Except FileError Unit)
  /-- Makes a file, or empties one that exists. -/
  createFile : RawText → m (Except FileError Unit)
  /-- Adds to the end of a file. -/
  append : (path : RawText) → (text : String) → m (Except FileError Unit)
  /-- The contents of a file. -/
  readFile : RawText → m (Except FileError String)
  /-- Writes to the terminal. -/
  print : String → m Unit
  /-- Writes to where errors are told. -/
  complain : String → m Unit
  /-- The time of day. -/
  now : m Time.Instant
  /-- Nanoseconds on a clock that is never set. -/
  clock : m Nat
  /-- Computes something at this moment. -/
  evaluate : {α : Type} → (Unit → α) → m α
  /-- The name of the machine. -/
  hostName : m String
  /-- How many processors it has. -/
  processors : m Nat
  /-- The value of an environment variable. -/
  environment? : String → m (Option RawText)

end SpeedTrial

namespace SpeedTrial.Host

open SpeedTrial.Text

variable {m : Type → Type} [Monad m] [Host m]

/-- Makes a directory that may exist already. -/
def makeOrKeep (path : RawText) : m (Except FileError Unit) := do
  match ← Host.makeDirectory path with
  | .ok () => return .ok ()
  | .error e => if ← Host.isDirectory path then return .ok () else return .error e

/-- Makes a directory, and its parent first if that is missing; the number of segments of the
path is fuel enough. -/
def makeDirectoriesFrom : (fuel : Nat) → (path : RawText) → m (Except FileError Unit)
  | 0, _ => return .ok ()
  | fuel + 1, path => do
    if path.isEmpty then return .ok ()
    match ← Host.makeDirectory path with
    | .ok () => return .ok ()
    | .error .notFound =>
      match Path.parent? path with
      | none => return .error (.other "failed to create whole tree")
      | some parent =>
        match ← makeDirectoriesFrom fuel parent with
        | .error e => return .error e
        | .ok () => makeOrKeep path
    | .error e => if ← Host.isDirectory path then return .ok () else return .error e

/-- Makes a directory with all that leads to it. -/
def makeDirectories (path : RawText) : m (Except FileError Unit) :=
  makeDirectoriesFrom ((Path.segments path).length + 1) path

/-- Makes the directory that a file is to be made in. -/
def makeParent (path : RawText) : m (Except FileError Unit) :=
  match Path.parent? path with
  | none => return .ok ()
  | some parent => if parent.isEmpty then return .ok () else makeDirectories parent

end SpeedTrial.Host
