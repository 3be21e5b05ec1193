/-!
# Control blocks

Each worker has a control block: a few cells through which a coordinator hands out work and
learns how much of it is done.  The cells are read and written one at a time and without a
lock, so what a coordinator does to a block is a list of single accesses, between which
others may act.

* `Access.perform` is one access.
* `Control.resuming`, `Control.stopping`, `Control.checkingIdle` and `Control.resetting` are
  the lists that make up the operations on a block.
* `Control.runAlone` performs a list with nothing in between.

Cells hold words of 64 bits.  Nothing is ever added to a cell but one unit at a time, and only
below a quota that is itself a word, so naturals are enough.
-/

namespace SpeedTrial.Trial

/-! ## Workers and their places -/

/-- What a worker does in a trial. -/
inductive Role where
  /-- Changes the shared structure; the writers end a trial. -/
  | writer
  /-- Observes the shared structure until it is frozen. -/
  | reader
  deriving DecidableEq, Repr

/-- The name of a role. -/
def Role.name : Role → String
  | .writer => "writer"
  | .reader => "reader"

/-- The place of a worker among those of its role. -/
structure Slot where
  role : Role
  index : Nat
  deriving DecidableEq, Repr

/-- The name of a place, such as `writer-0`. -/
def Slot.name (s : Slot) : String := s!"{s.role.name}-{s.index}"

/-! ## Cells -/

/-- Compare and exchange: whether the cell held the expected word, and what it holds now. -/
def exchange (held expected new : Nat) : Bool × Nat :=
  if held = expected then (true, new) else (false, held)

/-- The cells of a control block. -/
structure Control where
  /-- Units the worker may perform in all. -/
  quota : Nat := 0
  /-- Units the worker has performed. -/
  completed : Nat := 0
  /-- The trial for which a report is due; 0 if none is. -/
  pending : Nat := 0
  /-- Whether the worker is to leave its loop. -/
  stopped : Bool := false
  deriving DecidableEq, Repr, Inhabited

/-- A worker that still has units to perform. -/
structure Busy where
  completed : Nat
  quota : Nat
  deriving DecidableEq, Repr

/-! ## Accesses -/

/-- One access of a coordinator to a control block. -/
inductive Access where
  | setQuota (units : Nat)
  | setCompleted (units : Nat)
  | setPending (trial : Nat)
  | raiseStop
  /-- Reads the quota and keeps it. -/
  | readQuota
  /-- Reads the units performed, which must have reached the quota kept. -/
  | requireIdle
  deriving DecidableEq, Repr

/-- Performs one access, given the quota kept before; the result is the quota kept after it
and the block. -/
def Access.perform (a : Access) (kept : Nat) (c : Control) : Except Busy (Nat × Control) :=
  match a with
  | .setQuota units => .ok (kept, { c with quota := units })
  | .setCompleted units => .ok (kept, { c with completed := units })
  | .setPending trial => .ok (kept, { c with pending := trial })
  | .raiseStop => .ok (kept, { c with stopped := true })
  | .readQuota => .ok (c.quota, c)
  | .requireIdle => if c.completed < kept then .error ⟨c.completed, kept⟩ else .ok (kept, c)

namespace Control

/-- Authorises a number of units for a trial and asks for a report.  The quota comes first,
so that a worker that sees the request also sees the quota. -/
def resuming (quota trial : Nat) : List Access := [.setQuota quota, .setPending trial]

/-- Freezes a worker at the end of its unit and asks for a report. -/
def pausing (trial : Nat) : List Access := resuming 0 trial

/-- Ends a worker's loop, for good. -/
def stopping : List Access := [.raiseStop, .setQuota 0]

/-- Requires that the quota is used up. -/
def checkingIdle : List Access := [.readQuota, .requireIdle]

/-- Takes an idle worker back to nothing done and nothing due. -/
def resetting : List Access := checkingIdle ++ [.setQuota 0, .setCompleted 0, .setPending 0]

/-- Performs accesses one after the other, given the quota kept before.  At the first that
fails the others are left out, and the block stays as it is then. -/
def perform : (kept : Nat) → List Access → Control → Except Busy Unit × Control
  | _, [], c => (.ok (), c)
  | kept, a :: rest, c =>
    match a.perform kept c with
    | .error b => (.error b, c)
    | .ok (kept, c) => perform kept rest c

/-- Performs a list of accesses with nothing in between. -/
def runAlone (accesses : List Access) (c : Control) : Except Busy Unit × Control :=
  c.perform 0 accesses

/-- A block as a diagnostic. -/
def diagnostic (c : Control) : String :=
  let cell (n : Nat) := s!"AlignedU64 \x7b value: {n} \x7d"
  s!"WorkerControl \x7b quota: {cell c.quota}, completed: {cell c.completed}, " ++
    s!"pending: {cell c.pending}, stopped: AlignedFlag \x7b value: {c.stopped} \x7d \x7d"

end Control

/-- A worker that has not been started, as a diagnostic. -/
def Role.workerDiagnostic (r : Role) (c : Control) : String :=
  let name := match r with
    | .writer => "Writer"
    | .reader => "Reader"
  s!"Worker \x7b role: {name}, control: {c.diagnostic}, .. \x7d"

end SpeedTrial.Trial
