import Std.Time.DateTime.Timestamp
import SpeedTrial.Program

/-!
# The command line

The machine that the program is started on, as a host, and the entry point.
-/

namespace SpeedTrial.Host

open SpeedTrial.Text

/-- The number that an operating system gives to an error, perhaps negated, and what it is. -/
def FileError.ofNumber (number : UInt32) (text : String) : FileError :=
  let number := if number.toNat < Numeric.twoPow 31 then number else 0 - number
  if number = 2 then .notFound
  else if number = 13 then .notPermitted
  else if number = 17 then .alreadyExists
  else if number = 20 then .notADirectory
  else if number = 21 then .isADirectory
  else if number = 28 then .noSpaceLeft
  else if number = 36 then .nameTooLong
  else .other text

/-- An error of the machine. -/
def FileError.ofMachine (e : IO.Error) : FileError :=
  match e with
  | .noFileOrDirectory _ number _ => .ofNumber number e.toString
  | .permissionDenied _ number _ => .ofNumber number e.toString
  | .alreadyExists _ number _ => .ofNumber number e.toString
  | .inappropriateType _ number _ => .ofNumber number e.toString
  | .resourceExhausted _ number _ => .ofNumber number e.toString
  | .invalidArgument _ number _ => .ofNumber number e.toString
  | e => .other e.toString

/-- What is told of a path that this machine cannot be given. -/
def unnamedMessage : String := "Invalid or incomplete multibyte or wide character (os error 84)"

/-- Performs an action on a path that may fail.  Files are only reached by paths that are texts. -/
def attempted {α : Type} (path : RawText) (action : String → IO α) :
    IO (Except FileError α) := do
  if Path.hasZero path then return .error .zeroInName
  match path.text? with
  | none => return .error (.other unnamedMessage)
  | some name =>
    try return .ok (← action name)
    catch e => return .error (.ofMachine e)

/-- Whether a path leads to a directory. -/
def leadsToDirectory (path : RawText) : IO Bool := do
  match ← attempted path fun name => do (← IO.FS.realPath name).isDir with
  | .ok leads => return leads
  | .error _ => return false

/-- Adds to the end of a file. -/
def appendTo (path text : String) : IO Unit :=
  IO.FS.withFile path .append fun h => do
    h.putStr text
    h.flush

/-- The contents of a small file of the machine, without blanks around them. -/
def machineText (path : String) : IO String := do
  try
    let text ← IO.FS.readFile path
    return String.ofList (Text.trimmed text.toList)
  catch _ => return ""

/-- How many processors the machine lists. -/
def listedProcessors : IO Nat := do
  let text ← machineText "/proc/cpuinfo"
  let isProcessor (line : List Char) : Bool := "processor".toList.isPrefixOf line
  return max ((Text.lines text.toList).countP isProcessor) 1

/-- The time of day of the machine. -/
def machineTime : IO Time.Instant := do
  let t ← Std.Time.Timestamp.now
  let nanos : Int := t.toNanosecondsSinceUnixEpoch.val
  return ⟨nanos / 1000000000, (nanos % 1000000000).toNat⟩

instance : Host IO where
  isDirectory path := leadsToDirectory path
  makeDirectory path := attempted path fun name => IO.FS.createDir name
  createFile path := attempted path fun name => IO.FS.writeFile name ""
  append path text := attempted path (appendTo · text)
  readFile path := do
    match ← attempted path fun name => IO.FS.readBinFile name with
    | .error e => return .error e
    | .ok bytes =>
      match String.fromUTF8? bytes with
      | some text => return .ok text
      | none => return .error .notText
  print text := do
    let out ← IO.getStdout
    out.putStr text
    out.flush
  complain text := IO.eprint text
  now := machineTime
  clock := IO.monoNanosNow
  evaluate f := IO.lazyPure f
  hostName := do
    let name ← machineText "/proc/sys/kernel/hostname"
    return if name.isEmpty then "unknown" else name
  processors := listedProcessors
  environment? name := return (← IO.getEnv name).map .ofText

end SpeedTrial.Host

/-- Runs the command line. -/
def main (arguments : List String) : IO UInt32 :=
  SpeedTrial.Program.run (arguments.map .ofText)
