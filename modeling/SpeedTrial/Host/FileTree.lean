import SpeedTrial.Host.Basic

/-!
# File trees in memory

A host without a machine: its files are a tree in memory, its clock moves on by a fixed step
whenever it is looked at, and what is written to the terminal is kept.

* `FileTree` is the state of such a host, and `Simulated` its monad.
* `FileTree.walk` finds where a path leads.
-/

namespace SpeedTrial.Host

open SpeedTrial.Text

/-! ## Trees -/

/-- What a path may lead to. -/
inductive Entry where
  | directory
  | file (contents : ByteArray)
  /-- A device that takes everything and holds nothing. -/
  | null
  /-- A device that takes nothing. -/
  | full

/-- Where something is: the names from the root on. -/
abbrev Place := List RawText

/-- A host in memory. -/
structure FileTree where
  /-- All there is, each at its place, latest first. -/
  entries : List (Place × Entry)
  /-- Where relative paths start. -/
  workingDirectory : Place
  output : String := ""
  complaints : String := ""
  environment : List (String × RawText) := []
  time : Time.Instant := ⟨0, 0⟩
  nanos : Nat := 0

namespace FileTree

/-- The directories at the root of a machine. -/
def usualDirectories : List String :=
  ["bin", "boot", "dev", "etc", "home", "lib", "media", "mnt", "opt", "proc", "root", "run",
    "sbin", "srv", "sys", "tmp", "usr", "var"]

/-- A tree with the usual directories and devices, and an empty working directory. -/
def fresh : FileTree where
  entries :=
    [([.ofText "tmp", .ofText "work"], .directory), ([.ofText "dev", .ofText "null"], .null),
      ([.ofText "dev", .ofText "zero"], .null), ([.ofText "dev", .ofText "full"], .full)] ++
      usualDirectories.map (fun name => ([.ofText name], .directory)) ++ [([], .directory)]
  workingDirectory := [.ofText "tmp", .ofText "work"]

/-- What is at a place. -/
def find? (t : FileTree) (p : Place) : Option Entry := t.entries.lookup p

/-- Puts something at a place. -/
def put (t : FileTree) (p : Place) (e : Entry) : FileTree :=
  { t with entries := (p, e) :: t.entries.filter fun (q, _) => q ≠ p }

/-- The greatest number of bytes in a name. -/
def maxNameSize : Nat := 255

/-- The greatest number of bytes in a path. -/
def maxPathSize : Nat := 4095

/-- One name further on from a place, which has to be a directory. -/
def enter (t : FileTree) (p : Place) (name : RawText) : Except FileError Place :=
  match t.find? p with
  | none => .error .notFound
  | some .directory =>
    if name.isEmpty ∨ name = Path.here then .ok p
    else if name = Path.above then .ok p.dropLast
    else if maxNameSize < name.bytes.length then .error .nameTooLong
    else .ok (p ++ [name])
  | some _ => .error .notADirectory

/-- What is wrong with a path as such. -/
def pathError? (path : RawText) : Option FileError :=
  if Path.hasZero path then some .zeroInName
  else if path.isEmpty then some .notFound
  else if maxPathSize < path.bytes.length then some .nameTooLong
  else none

/-- Where a path starts. -/
def start (t : FileTree) (path : RawText) : Place :=
  if Path.isAbsolute path then [] else t.workingDirectory

/-- Where a path leads, whether or not there is something. -/
def walk (t : FileTree) (path : RawText) : Except FileError Place :=
  match pathError? path with
  | some e => .error e
  | none => (Path.pieces path).foldlM t.enter (t.start path)

/-- What a path leads to. -/
def open? (t : FileTree) (path : RawText) : Except FileError Entry := do
  match t.find? (← t.walk path) with
  | some e => .ok e
  | none => .error .notFound

/-- The directory that the last name of a path is looked up in, that name, and whether
slashes follow it. -/
def last? (t : FileTree) (path : RawText) : Except FileError (Place × RawText × Bool) := do
  match pathError? path with
  | some e => .error e
  | none =>
    let kept := ((Path.pieces path).reverse.dropWhile RawText.isEmpty).reverse
    let directory ← kept.dropLast.foldlM t.enter (t.start path)
    let _ ← t.enter directory Path.here
    return (directory, kept.getLast?.getD Path.here, Path.endsInSlash path)

/-- Makes a directory. -/
def makeDirectory (t : FileTree) (path : RawText) : Except FileError FileTree := do
  let (directory, name, _) ← t.last? path
  if name = Path.here ∨ name = Path.above then .error .alreadyExists
  else
    let place ← t.enter directory name
    match t.find? place with
    | some _ => .error .alreadyExists
    | none => return t.put place .directory

/-- Makes or empties a file. -/
def createFile (t : FileTree) (path : RawText) : Except FileError FileTree := do
  let (directory, name, slash) ← t.last? path
  if slash ∨ name = Path.here ∨ name = Path.above then .error .isADirectory
  else
    let place ← t.enter directory name
    match t.find? place with
    | some .directory => .error .isADirectory
    | some (.file _) => return t.put place (.file .empty)
    | some _ => return t
    | none => return t.put place (.file .empty)

/-- Adds to the end of a file. -/
def append (t : FileTree) (path : RawText) (text : String) : Except FileError FileTree := do
  match ← t.open? path with
  | .directory => .error .isADirectory
  | .file contents => return t.put (← t.walk path) (.file (contents ++ text.toUTF8))
  | .null => return t
  | .full => if text.isEmpty then return t else .error .noSpaceLeft

/-- The text in a file. -/
def text? (t : FileTree) (path : RawText) : Except FileError String := do
  match ← t.open? path with
  | .directory => .error .isADirectory
  | .file contents =>
    match String.fromUTF8? contents with
    | some text => return text
    | none => .error .notText
  | .null => return ""
  | .full => return ""

/-- Whether a path leads to a directory. -/
def isDirectory (t : FileTree) (path : RawText) : Bool :=
  match t.open? path with
  | .ok .directory => true
  | _ => false

/-- The files below the working directory with their paths from there, as they are shown. -/
def files (t : FileTree) : List (String × String) :=
  let found := t.entries.filterMap fun (p, e) =>
    match e with
    | .file contents =>
      if t.workingDirectory.isPrefixOf p then
        some ((Path.joined (p.drop t.workingDirectory.length)).shown,
          (String.fromUTF8? contents).getD "")
      else none
    | _ => none
  found.mergeSort fun a b => a.1 ≤ b.1

end FileTree

/-! ## The host -/

/-- Computations on a file tree. -/
abbrev Simulated := StateM FileTree

namespace Simulated

/-- Performs an operation that may fail and then changes nothing. -/
def attempt (f : FileTree → Except FileError FileTree) : Simulated (Except FileError Unit) :=
  fun t => match f t with
    | .ok t => (.ok (), t)
    | .error e => (.error e, t)

/-- How far the clock moves when it is looked at: a tenth of a millisecond. -/
def clockStep : Nat := 100000

instance : Host Simulated where
  isDirectory path := fun t => (t.isDirectory path, t)
  makeDirectory path := attempt (·.makeDirectory path)
  createFile path := attempt (·.createFile path)
  append path text := attempt (·.append path text)
  readFile path := fun t => (t.text? path, t)
  print text := modify fun t => { t with output := t.output ++ text }
  complain text := modify fun t => { t with complaints := t.complaints ++ text }
  now := fun t => (t.time, t)
  clock := fun t => (t.nanos, { t with nanos := t.nanos + clockStep })
  evaluate f := pure (f ())
  hostName := pure "localhost"
  processors := pure 8
  environment? name := fun t => (t.environment.lookup name, t)

end Simulated

namespace FileTree

/-- A tree with one more directory, and all that leads to it. -/
def withDirectory (t : FileTree) (path : RawText) : FileTree :=
  (makeDirectories path : Simulated _).run t |>.2

/-- A tree with one more file, and the directory it is in.  A path that cannot lead to a file
changes nothing. -/
def withFile (t : FileTree) (path : RawText) (contents : ByteArray) : FileTree :=
  let made := (makeParent path : Simulated _).run t |>.2
  match made.createFile path with
  | .error _ => t
  | .ok made =>
    match made.walk path with
    | .error _ => t
    | .ok p => made.put p (.file contents)

end FileTree

end SpeedTrial.Host
