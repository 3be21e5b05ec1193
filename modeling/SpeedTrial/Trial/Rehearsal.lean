import SpeedTrial.Trial.Error
import SpeedTrial.Trial.Loop

/-!
# Rehearsals

In a rehearsal one worker runs its loop by itself, and a script says what is done to its
control block meanwhile: inside which unit, and at which report.  Each operation of the
script is done in one go, so a rehearsal shows the loop without any race.

* `Order.perform` is one operation on a block, and what comes of it.
* `Script.run` runs the loop of a worker against a script.
-/

namespace SpeedTrial.Trial

/-! ## Orders -/

/-- An operation on a control block. -/
inductive Order where
  | resume (quota trial : Nat)
  | pause (trial : Nat)
  | stop
  | checkIdle
  | reset
  /-- Asks for a diagnostic. -/
  | describe
  deriving DecidableEq, Repr

/-- What comes of an operation on a control block. -/
inductive Outcome where
  /-- Nothing; the operation cannot fail. -/
  | silent
  /-- The operation could have failed and did not. -/
  | fine
  | failed (e : TrialError)
  | diagnostic (text : String)
  deriving DecidableEq, Repr

/-- What comes of accesses that require an idle worker. -/
def Outcome.ofIdle (s : Slot) : Except Busy Unit → Outcome
  | .ok () => .fine
  | .error b => .failed (.workerBusy s b.completed b.quota)

/-- Performs an operation on the block of a slot in one go. -/
def Order.perform (s : Slot) (o : Order) (c : Control) : Outcome × Control :=
  match o with
  | .resume quota trial => (.silent, (c.runAlone (Control.resuming quota trial)).2)
  | .pause trial => (.silent, (c.runAlone (Control.pausing trial)).2)
  | .stop => (.silent, (c.runAlone Control.stopping).2)
  | .checkIdle => let (r, c) := c.runAlone Control.checkingIdle; (.ofIdle s r, c)
  | .reset => let (r, c) := c.runAlone Control.resetting; (.ofIdle s r, c)
  | .describe => (.diagnostic c.diagnostic, c)

/-- Performs operations one after the other. -/
def Order.performAll (s : Slot) : List Order → Control → List Outcome × Control
  | [], c => ([], c)
  | o :: os, c =>
    let (r, c) := o.perform s c
    let (rs, c) := performAll s os c
    (r :: rs, c)

/-! ## Scripts -/

/-- What is done to the block during a rehearsal. -/
structure Script where
  /-- What is done inside a unit, by its number from 1. -/
  onUnit : List (Nat × List Order) := []
  /-- What is done at each report; at every further one the worker is stopped. -/
  onReport : List (List Order) := []
  deriving Repr

/-- An occasion at which the script acts. -/
inductive Occasion where
  | unit (number : Nat)
  | report (trial done : Nat)
  deriving DecidableEq, Repr

/-- An occasion with what came of the operations and the block after them. -/
structure Entry where
  occasion : Occasion
  outcomes : List Outcome
  control : Control
  deriving Repr

/-- What a rehearsal has seen so far; entries are kept newest first. -/
structure Rehearsal where
  control : Control
  units : Nat := 0
  reports : Nat := 0
  entries : List Entry := []
  deriving Repr

namespace Rehearsal

/-- The longest rehearsal: a worker is stopped inside each unit beyond these. -/
def unitLimit : Nat := 10000

/-- Performs the operations for one occasion and notes what came of them. -/
def act (s : Slot) (occasion : Occasion) (orders : List Order) (r : Rehearsal) : Rehearsal :=
  let (outcomes, c) := Order.performAll s orders r.control
  { r with control := c, entries := ⟨occasion, outcomes, c⟩ :: r.entries }

/-- The next unit of the worker. -/
def unit (script : Script) (s : Slot) (r : Rehearsal) : Rehearsal :=
  let r := { r with units := r.units + 1 }
  let r := if unitLimit < r.units then
      { r with control := (r.control.runAlone Control.stopping).2 }
    else r
  match script.onUnit.lookup r.units with
  | some orders => r.act s (.unit r.units) orders
  | none => r

/-- The next report of the worker. -/
def report (script : Script) (s : Slot) (trial done : Nat) (r : Rehearsal) : Rehearsal :=
  let orders := (script.onReport[r.reports]?).getD [.stop]
  { r with reports := r.reports + 1 }.act s (.report trial done) orders

/-- Runs the loop from a point on, at most `fuel` steps of it. -/
def run (script : Script) (s : Slot) : (fuel : Nat) → Point → Rehearsal → Rehearsal
  | 0, _, r => r
  | fuel + 1, p, r =>
    match p with
    | .inUnit done => run script s fuel (.publish (done + 1)) (r.unit script s)
    | .report trial done => run script s fuel .top (r.report script s trial done)
    | p =>
      match p.next r.control with
      | none => r
      | some (c, p) => run script s fuel p { r with control := c }

end Rehearsal

/-- As many steps as a rehearsal takes at most: a unit takes four, and a round of the loop
with a report not more than a dozen. -/
def Script.stepLimit (script : Script) : Nat :=
  8 * (Rehearsal.unitLimit + 1) + 16 * (script.onReport.length + 2)

/-- Runs the loop of the worker in a slot until it ends. -/
def Script.run (script : Script) (s : Slot) (c : Control) : Rehearsal :=
  Rehearsal.run script s script.stepLimit .top { control := c }

end SpeedTrial.Trial
