/-!
# Failures that reach the user

A failure that ends the program is told from the outside in: first what could not be done,
then why, then why that was.  Each layer of the program that passes a failure on may add what
it was about.

* `Failure.within` adds an outer message.
* `Failure.report` is what the user is told at the end.
-/

namespace SpeedTrial

/-- A failure and its causes. -/
structure Failure where
  /-- What could not be done. -/
  message : String
  /-- Why, from the outside in. -/
  causes : List String := []
  deriving DecidableEq, Repr

namespace Failure

/-- The failure as the cause of another one. -/
def within (context : String) (f : Failure) : Failure := ⟨context, f.message :: f.causes⟩

/-- A cause with a lead in front of its first line and blanks of the same width in front of
every further line. -/
def indented (lead cause : String) : String :=
  lead ++ ("\n" ++ String.ofList (List.replicate lead.length ' ')).intercalate
    (cause.splitOn "\n")

/-- Causes with their numbers. -/
def numbered (causes : List String) : List String :=
  causes.zipIdx.map fun (cause, i) =>
    indented (String.ofList (List.replicate (5 - (toString i).length) ' ') ++ s!"{i}: ") cause

/-- The failure as the user is told of it; several causes are numbered. -/
def report (f : Failure) : String :=
  let head := "Error: " ++ f.message
  match f.causes with
  | [] => head ++ "\n"
  | [cause] => head ++ "\n\nCaused by:\n" ++ indented "    " cause ++ "\n"
  | causes => head ++ "\n\nCaused by:\n" ++ "\n".intercalate (numbered causes) ++ "\n"

end Failure

/-- Adds an outer message to a failure. -/
def withContext {α : Type} (context : String) : Except Failure α → Except Failure α
  | .ok a => .ok a
  | .error f => .error (f.within context)

end SpeedTrial
