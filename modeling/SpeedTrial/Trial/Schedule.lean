import SpeedTrial.Trial.Machine

/-!
# Schedules

A machine leaves open which event comes next.  The schedules of this module choose: every
worker goes on until it is at rest, and a unit of work returns only when it is allowed to.
All they do is a sequence of events of the machine.

* `Machine.settle` lets every worker go on until it is at rest.
* `Machine.performUnits` lets one worker finish some of its units.
* `Machine.call` runs an operation of the controlling thread to its answer.
* `Machine.round` lets every worker finish one unit.
-/

namespace SpeedTrial.Trial.Machine

variable {U S : Type}

/-! ## Workers that come to rest -/

/-- How many workers there are. -/
def roster (m : Machine U S) : Nat := m.writers.length + m.readers.length

/-- As many steps as a worker needs at most until it is at rest: once through its loop, with
two accesses to every other worker while it reports, and once more until it finds nothing to
do. -/
def restLimit (m : Machine U S) : Nat := 64 + 2 * m.roster

/-- Lets the worker in a slot go on until it is at rest. -/
def settleWorker (s : Slot) : (fuel : Nat) → Machine U S → Machine U S
  | 0, m => m
  | fuel + 1, m =>
    match m.worker? s with
    | none => m
    | some w =>
      if atRest w.control w.point then m
      else match m.stepWorker s with
        | none => m
        | some m => m.settleWorker s fuel

/-- Lets every worker go on until it is at rest, in the order of the roster. -/
def settleOnce (m : Machine U S) : Machine U S :=
  m.slots.foldl (fun m s => m.settleWorker s m.restLimit) m

/-- Lets all workers come to rest.  Only the first report of a writer freezes others, so what
is armed in the first pass is delivered in the second. -/
def settle (m : Machine U S) : Machine U S := m.settleOnce.settleOnce

/-! ## Units of work -/

/-- Lets the worker in a slot finish at most `allowed` units, and come to rest after each;
the result is how many it finished. -/
def performUnits (work : U → S → U × S) (s : Slot) :
    (allowed performed : Nat) → Machine U S → Nat × Machine U S
  | 0, performed, m => (performed, m.settle)
  | allowed + 1, performed, m =>
    match m.finishUnit work s with
    | none => (performed, m.settle)
    | some m => performUnits work s allowed (performed + 1) (m.settleWorker s m.restLimit)

/-- The unit of the worker in a slot panics, if it is inside one. -/
def panic (m : Machine U S) (s : Slot) : Machine U S := ((m.panicUnit s).getD m).settle

/-- Every worker that is inside a unit finishes it. -/
def round (work : U → S → U × S) (m : Machine U S) : Machine U S :=
  (m.slots.foldl (fun m s => (m.finishUnit work s).getD m) m).settle

/-! ## Operations -/

/-- As many steps as an operation takes at most, and a wait several looks. -/
def callLimit (m : Machine U S) : Nat := 32 + 16 * m.roster

/-- Runs the operation of the controlling thread, at most `fuel` steps of it. -/
def runCall : (fuel : Nat) → Machine U S → Machine U S
  | 0, m => m
  | fuel + 1, m =>
    match m.stepCall .controlling with
    | none => m
    | some m => m.runCall fuel

/-- What the controlling thread was answered; `none` while it still waits. -/
def answer? (m : Machine U S) : Option (Except TrialError Answer) :=
  match m.controlling.call with
  | .idle => m.controlling.answer
  | _ => none

/-- The controlling thread gives up a wait. -/
def giveUp (m : Machine U S) : Machine U S := { m with controlling := {} }

/-- Runs an operation of the controlling thread, and then lets all workers come to rest.
There is no answer to a wait that does not end as long as nobody works. -/
def call (op : Operation) (m : Machine U S) :
    Option (Except TrialError Answer) × Machine U S :=
  match m.invoke .controlling op with
  | none => (none, m)
  | some m =>
    let m := m.runCall m.callLimit
    match m.answer?, op with
    | some a, _ => (some a, m.settle)
    | none, .wait (some limit) =>
      let m := { m with clock := m.clock + limit }.runCall m.callLimit
      (m.answer?, m.giveUp.settle)
    | none, _ => (none, m.giveUp.settle)

/-- Starts all workers and lets them come to rest. -/
def launchAll (m : Machine U S) : Except TrialError (Machine U S) := m.launch.map settle

end SpeedTrial.Trial.Machine
