import SpeedTrial.Text.Raw

/-!
# Paths

A path is a raw text of segments with slashes between them.  Everything in this module looks at
the bytes alone and not at any file.

* `Path.parent?` and `Path.extension?` take a path apart, and `Path.join` puts two together.
-/

namespace SpeedTrial.Host.Path

open SpeedTrial.Text

/-- The byte between two segments. -/
def slash : UInt8 := '/'.toUInt8

/-- The byte before the extension of a name. -/
def dot : UInt8 := '.'.toUInt8

/-- The name that leads nowhere else. -/
def here : RawText := ⟨[dot]⟩

/-- The name that leads back. -/
def above : RawText := ⟨[dot, dot]⟩

/-- Whether a path starts at the root. -/
def isAbsolute (path : RawText) : Bool := path.bytes.head? == some slash

/-- Whether a path has the byte zero in it; no machine takes one that has. -/
def hasZero (path : RawText) : Bool := path.bytes.contains 0

/-- Whether a path ends with a slash. -/
def endsInSlash (path : RawText) : Bool := path.bytes.getLast? == some slash

/-- The pieces of a path between slashes, with the empty ones. -/
def pieces (path : RawText) : List RawText := (path.bytes.splitOn slash).map RawText.mk

/-- The segments of a path that name something: neither empty ones nor single dots, except
for a dot in front of a relative path. -/
def segments (path : RawText) : List RawText :=
  let isNamed (r : RawText) : Bool := !r.isEmpty && r != here
  match pieces path with
  | [] => []
  | first :: rest =>
    if first = here then first :: rest.filter isNamed else (first :: rest).filter isNamed

/-- Segments with slashes between them. -/
def joined (segments : List RawText) : RawText :=
  ⟨[slash].intercalate (segments.map RawText.bytes)⟩

/-- A path without its last segment; the root and the empty path have no parent. -/
def parent? (path : RawText) : Option RawText :=
  let all := segments path
  if all.isEmpty then none
  else some ⟨(if isAbsolute path then [slash] else []) ++ (joined all.dropLast).bytes⟩

/-- The last segment of a path, if it names a file. -/
def fileName? (path : RawText) : Option RawText :=
  match (segments path).getLast? with
  | none => none
  | some name => if name = here ∨ name = above then none else some name

/-- What follows the last dot of the name of a file, unless nothing comes before it. -/
def extension? (path : RawText) : Option RawText :=
  match fileName? path with
  | none => none
  | some name =>
    let reversed := name.bytes.reverse
    match reversed.dropWhile (· ≠ dot) with
    | _ :: _ :: _ => some ⟨(reversed.takeWhile (· ≠ dot)).reverse⟩
    | _ => none

/-- A path inside another one.  An absolute path takes the place of the other, and a slash
comes between the two unless there is one already. -/
def join (path inner : RawText) : RawText :=
  if isAbsolute inner then inner
  else if path.isEmpty || endsInSlash path then ⟨path.bytes ++ inner.bytes⟩
  else joined [path, inner]

end SpeedTrial.Host.Path
