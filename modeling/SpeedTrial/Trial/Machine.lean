import SpeedTrial.Trial.Loop
import SpeedTrial.Trial.Tally
import SpeedTrial.Trial.Error
import SpeedTrial.Plan.Basic

/-!
# The coordination machine

A machine is a coordinator with its workers, the state that they share, and the threads that
call the coordinator, all as one value.  It moves by events.  Each event is one atomic step
of one participant: a single access to a control block or to the stop flag, taking or letting
go of the lock, one unit of work, or the passing of time.  Whatever order real threads run in
is an order of events.

* `Machine.stepWorker`, `Machine.finishUnit` and `Machine.panicUnit` are the steps of a worker.
* `Machine.invoke` begins an operation of the coordinator and `Machine.stepCall` continues it.
* `Machine.step` is one event; it is `none` if the event is not possible now.

The lock guards the tally.  A section that takes the lock, touches nothing but the tally and
lets go of the lock at once is a single step; all others have one for each access.
-/

namespace SpeedTrial.Trial

open SpeedTrial.Plan

/-! ## Participants -/

/-- A worker: its control block, where it stands in its loop, and its work. -/
structure Worker (U : Type) where
  control : Control := {}
  point : Point := .unborn
  unit : U
  deriving DecidableEq, Repr

/-- The threads that call the coordinator. -/
inductive Thread where
  /-- The one that registers workers and runs trials. -/
  | controlling
  /-- Another one. -/
  | other
  deriving DecidableEq, Repr

/-- Who holds the lock. -/
inductive Holder where
  | worker (s : Slot)
  | caller (t : Thread)
  deriving DecidableEq, Repr

/-- The operations of a coordinator that take more than one step. -/
inductive Operation where
  /-- Starts a trial of so many writer units in all. -/
  | run (total : Nat)
  /-- Waits until every worker has reported, perhaps not longer than so many nanoseconds. -/
  | wait (limit : Option Nat)
  /-- Takes all workers and the tally back. -/
  | reset
  /-- Stops all workers. -/
  | stop
  deriving DecidableEq, Repr

/-- What an operation answers when it succeeds. -/
inductive Answer where
  | done
  /-- The units that each writer was given. -/
  | quota (units : Nat)
  deriving DecidableEq, Repr

/-- A wait: when it began, and after how many nanoseconds it is given up. -/
structure Waiting where
  since : Nat
  limit : Option Nat
  deriving DecidableEq, Repr

/-- How far an operation is. -/
inductive Call where
  /-- No operation. -/
  | idle
  /-- About to take the lock to start a trial. -/
  | runAtLock (total : Nat)
  /-- Holding the lock, about to read the stop flag. -/
  | runAtFlag (total : Nat)
  /-- Holding the lock, handing out quota. -/
  | resuming (quota : Nat) (todo : List (Slot × Access))
  /-- About to take the lock to reset. -/
  | resetAtLock
  /-- Holding the lock, checking or resetting workers, with the quota read last. -/
  | resetting (kept : Nat) (todo : List (Slot × Access))
  /-- About to look at the phase under the lock. -/
  | waitAtLock (w : Waiting)
  /-- About to read the stop flag. -/
  | waitAtFlag (w : Waiting) (trial : Nat)
  /-- About to look for a thread that is over. -/
  | waitAtThreads (w : Waiting) (trial : Nat)
  /-- About to look at the clock. -/
  | waitAtClock (w : Waiting) (trial : Nat)
  /-- About to raise the stop flag. -/
  | stopAtFlag
  /-- Stopping the workers one by one. -/
  | stopping (todo : List (Slot × Access))
  /-- Holding the lock, with the answer already known. -/
  | releasing (answer : Except TrialError Answer)

/-- A calling thread: its operation, and the answer to its last one. -/
structure Caller where
  call : Call := .idle
  answer : Option (Except TrialError Answer) := none

/-- A coordinator with its workers, what they share, and its callers. -/
structure Machine (U S : Type) where
  freeze : FreezeScope
  launched : Bool := false
  /-- The stop flag of the coordinator. -/
  stopped : Bool := false
  lock : Option Holder := none
  tally : Tally := {}
  writers : List (Worker U) := []
  readers : List (Worker U) := []
  controlling : Caller := {}
  other : Caller := {}
  /-- Nanoseconds on the clock. -/
  clock : Nat := 0
  /-- What the work of all workers acts on. -/
  shared : S

namespace Machine

variable {U S : Type}

/-! ## Roster -/

/-- The workers of a role. -/
def workers (m : Machine U S) : Role → List (Worker U)
  | .writer => m.writers
  | .reader => m.readers

/-- The worker in a slot. -/
def worker? (m : Machine U S) (s : Slot) : Option (Worker U) := (m.workers s.role)[s.index]?

/-- The machine with another worker in a slot. -/
def setWorker (m : Machine U S) (s : Slot) (w : Worker U) : Machine U S :=
  match s.role with
  | .writer => { m with writers := m.writers.set s.index w }
  | .reader => { m with readers := m.readers.set s.index w }

/-- The slots of the writers. -/
def writerSlots (m : Machine U S) : List Slot :=
  (List.range m.writers.length).map fun i => ⟨.writer, i⟩

/-- The slots of the readers. -/
def readerSlots (m : Machine U S) : List Slot :=
  (List.range m.readers.length).map fun i => ⟨.reader, i⟩

/-- All slots: writers by index, then readers by index. -/
def slots (m : Machine U S) : List Slot := m.writerSlots ++ m.readerSlots

/-- The same accesses for each of several slots, slot by slot. -/
def forEach (slots : List Slot) (accesses : List Access) : List (Slot × Access) :=
  slots.flatMap fun s => accesses.map fun a => (s, a)

/-- Registers a worker under a role, and says which index it got. -/
def register (m : Machine U S) (expected actual : Role) (unit : U) :
    Except TrialError (Nat × Machine U S) :=
  if m.launched then .error (.registrationClosed expected)
  else if actual ≠ expected then .error (.roleMismatch expected actual)
  else match expected with
    | .writer => .ok (m.writers.length, { m with writers := m.writers ++ [{ unit := unit }] })
    | .reader => .ok (m.readers.length, { m with readers := m.readers ++ [{ unit := unit }] })

/-- Starts the thread of every worker.  No worker can be registered after that. -/
def launch (m : Machine U S) : Except TrialError (Machine U S) :=
  if m.launched then .error .alreadyLaunched
  else
    let started (w : Worker U) : Worker U := { w with point := .top }
    .ok { m with
      launched := true
      tally := Tally.fresh m.writers.length m.readers.length
      writers := m.writers.map started
      readers := m.readers.map started }

/-! ## Accesses -/

/-- Performs one access to the control block of a slot, given the quota kept before. -/
def access (m : Machine U S) (kept : Nat) (s : Slot) (a : Access) :
    Except Busy (Nat × Machine U S) :=
  match m.worker? s with
  | none => .ok (kept, m)
  | some w =>
    match a.perform kept w.control with
    | .error b => .error b
    | .ok (kept, c) => .ok (kept, m.setWorker s { w with control := c })

/-- Performs one access that cannot fail. -/
def store (m : Machine U S) (s : Slot) (a : Access) : Machine U S :=
  match m.access 0 s a with
  | .error _ => m
  | .ok (_, m) => m

/-- Moves the worker in a slot to another point. -/
def moveTo (m : Machine U S) (s : Slot) (p : Point) : Machine U S :=
  match m.worker? s with
  | none => m
  | some w => m.setWorker s { w with point := p }

/-! ## Steps of a worker -/

/-- What a reporting worker does to the others: the first writer to report freezes the
readers, and the other writers if everyone is to be frozen. -/
def freezeOthers (m : Machine U S) (s : Slot) (trial : Nat) : List (Slot × Access) :=
  if s.role = .writer ∧ m.tally.doneWriters = 0 then
    let writers := match m.freeze with
      | .everyone => m.writerSlots.filter (· ≠ s)
      | .readersOnly => []
    forEach (writers ++ m.readerSlots) (Control.pausing trial)
  else []

/-- Takes the lock to deliver a report; not possible while another holds it. -/
def beginReport (m : Machine U S) (s : Slot) (trial done : Nat) : Option (Machine U S) :=
  match m.lock with
  | some _ => none
  | none =>
    let m := { m with lock := some (.worker s) }
    if m.tally.accepts s trial then
      some ({ m with tally := m.tally.mark s }.moveTo s
        (.freezing trial done (m.freezeOthers s trial)))
    else some (m.moveTo s .releasing)

/-- One step of the worker in a slot, other than its work. -/
def stepWorker (m : Machine U S) (s : Slot) : Option (Machine U S) :=
  match m.worker? s with
  | none => none
  | some w =>
    match w.point with
    | .report trial done => m.beginReport s trial done
    | .freezing trial done ((t, a) :: rest) =>
      some ((m.store t a).moveTo s (.freezing trial done rest))
    | .freezing _ done [] =>
      some ({ m with tally := m.tally.count m.clock s done, lock := none }.moveTo s .top)
    | .releasing => some ({ m with lock := none }.moveTo s .top)
    | p =>
      match p.next w.control with
      | none => none
      | some (c, p) => some (m.setWorker s { w with control := c, point := p })

/-- The unit of the worker in a slot returns. -/
def finishUnit (work : U → S → U × S) (m : Machine U S) (s : Slot) : Option (Machine U S) :=
  match m.worker? s with
  | none => none
  | some w =>
    match w.point with
    | .inUnit done =>
      let (unit, shared) := work w.unit m.shared
      some ({ m with shared := shared }.setWorker s
        { w with unit := unit, point := .publish (done + 1) })
    | _ => none

/-- The unit of the worker in a slot panics, which ends the thread. -/
def panicUnit (m : Machine U S) (s : Slot) : Option (Machine U S) :=
  match m.worker? s with
  | none => none
  | some w =>
    match w.point with
    | .inUnit _ => some (m.moveTo s .dead)
    | _ => none

/-! ## Steps of a caller -/

/-- A calling thread. -/
def caller (m : Machine U S) : Thread → Caller
  | .controlling => m.controlling
  | .other => m.other

/-- The machine with another state of a calling thread. -/
def setCaller (m : Machine U S) (t : Thread) (c : Caller) : Machine U S :=
  match t with
  | .controlling => { m with controlling := c }
  | .other => { m with other := c }

/-- A calling thread goes on with its operation. -/
def goOn (m : Machine U S) (t : Thread) (c : Call) : Machine U S :=
  m.setCaller t { call := c }

/-- A calling thread gets its answer. -/
def reply (m : Machine U S) (t : Thread) (a : Except TrialError Answer) : Machine U S :=
  m.setCaller t { answer := some a }

/-- A calling thread takes the lock and goes on; not possible while another holds it. -/
def takeLock (m : Machine U S) (t : Thread) (c : Call) : Option (Machine U S) :=
  match m.lock with
  | some _ => none
  | none => some ({ m with lock := some (.caller t) }.goOn t c)

/-- A calling thread lets go of the lock and gets its answer. -/
def unlock (m : Machine U S) (t : Thread) (a : Except TrialError Answer) : Machine U S :=
  { m with lock := none }.reply t a

/-- The quota of a reader: it works until it is frozen. -/
def unbounded : Nat := Numeric.maxWord

/-- Starts the next trial, with the lock held and the stop flag read. -/
def startTrial (m : Machine U S) (t : Thread) (total : Nat) : Machine U S :=
  if m.stopped then m.goOn t (.releasing (.error (.stopped m.tally.trial)))
  else match m.tally.phase with
    | .running => m.goOn t (.releasing (.error (.inFlight m.tally.trial)))
    | .complete => m.goOn t (.releasing (.error (.resetRequired m.tally.trial)))
    | .ready =>
      let quota := quotaPerWriter total m.writers.length
      let tally := m.tally.begun m.clock
      { m with tally := tally }.goOn t (.resuming quota
        (forEach m.writerSlots (Control.resuming quota tally.trial) ++
          forEach m.readerSlots (Control.resuming unbounded tally.trial)))

/-- Begins a reset, with the lock held: no worker is reset unless all are idle. -/
def startReset (m : Machine U S) (t : Thread) : Machine U S :=
  if m.tally.phase = .running then
    m.goOn t (.releasing (.error (.inFlight m.tally.trial)))
  else m.goOn t (.resetting 0
    (forEach m.slots Control.checkingIdle ++ forEach m.slots Control.resetting))

/-- Looks at the phase for a waiting thread. -/
def lookAtPhase (m : Machine U S) (t : Thread) (w : Waiting) : Option (Machine U S) :=
  match m.lock with
  | some _ => none
  | none => some (match m.tally.phase with
    | .ready => m.reply t (.error .noTrialInFlight)
    | .complete => m.reply t (.ok .done)
    | .running => m.goOn t (.waitAtFlag w m.tally.trial))

/-- The first slot whose thread is over. -/
def finishedSlot? (m : Machine U S) : Option Slot :=
  m.slots.find? fun s => ((m.worker? s).map fun w => w.point.isFinished).getD false

/-- Whether a wait is to be given up now. -/
def Waiting.isOver (w : Waiting) (now : Nat) : Option Nat :=
  match w.limit with
  | none => none
  | some limit => if limit ≤ now - w.since then some limit else none

/-- One step of the operation of a calling thread. -/
def stepCall (m : Machine U S) (t : Thread) : Option (Machine U S) :=
  match (m.caller t).call with
  | .idle => none
  | .runAtLock total => m.takeLock t (.runAtFlag total)
  | .runAtFlag total => some (m.startTrial t total)
  | .resuming quota [] => some (m.unlock t (.ok (.quota quota)))
  | .resuming quota ((s, a) :: rest) => some ((m.store s a).goOn t (.resuming quota rest))
  | .resetAtLock => m.takeLock t (.resetting 0 [])|>.map fun m => m.startReset t
  | .resetting _ [] => some ({ m with tally := m.tally.reset }.unlock t (.ok .done))
  | .resetting kept ((s, a) :: rest) =>
    some (match m.access kept s a with
      | .error b => m.goOn t (.releasing (.error (.workerBusy s b.completed b.quota)))
      | .ok (kept, m) => m.goOn t (.resetting kept rest))
  | .waitAtLock w => m.lookAtPhase t w
  | .waitAtFlag w trial =>
    some (if m.stopped then m.reply t (.error (.stopped trial))
      else m.goOn t (.waitAtThreads w trial))
  | .waitAtThreads w trial =>
    some (match m.finishedSlot? with
      | some s => m.reply t (.error (.workerExited s trial))
      | none => m.goOn t (.waitAtClock w trial))
  | .waitAtClock w trial =>
    some (match Waiting.isOver w m.clock with
      | some limit => m.reply t (.error (.timeout trial ⟨limit⟩))
      | none => m.goOn t (.waitAtLock w))
  | .stopAtFlag =>
    some ({ m with stopped := true }.goOn t (.stopping (forEach m.slots Control.stopping)))
  | .stopping [] => some (m.reply t (.ok .done))
  | .stopping ((s, a) :: rest) => some ((m.store s a).goOn t (.stopping rest))
  | .releasing answer => some (m.unlock t answer)

/-- A calling thread without an operation begins one.  The roster does not change after the
launch, so what depends on it alone is decided at once.  Before the launch there is nothing
to reset and no stop flag, only workers to stop. -/
def invoke (m : Machine U S) (t : Thread) (op : Operation) : Option (Machine U S) :=
  match (m.caller t).call with
  | .idle => some (match op with
    | .run total =>
      if !m.launched then m.reply t (.error .notLaunched)
      else if m.writers.isEmpty then m.reply t (.error .noWriters)
      else m.goOn t (.runAtLock total)
    | .wait limit =>
      if !m.launched then m.reply t (.error .notLaunched)
      else m.goOn t (.waitAtLock ⟨m.clock, limit⟩)
    | .reset => if !m.launched then m.reply t (.ok .done) else m.goOn t .resetAtLock
    | .stop =>
      if !m.launched then m.goOn t (.stopping (forEach m.slots Control.stopping))
      else m.goOn t .stopAtFlag)
  | _ => none

/-! ## Events -/

/-- One event of a machine. -/
inductive Event (U : Type) where
  /-- A step of a worker, other than its work. -/
  | worker (s : Slot)
  /-- The unit of a worker returns. -/
  | finish (s : Slot)
  /-- The unit of a worker panics. -/
  | panic (s : Slot)
  /-- A calling thread begins an operation. -/
  | invoke (t : Thread) (op : Operation)
  /-- A step of the operation of a calling thread. -/
  | call (t : Thread)
  /-- A worker is registered, while no operation is under way. -/
  | register (expected actual : Role) (unit : U)
  /-- The workers are launched, while no operation is under way. -/
  | launch
  /-- Time passes. -/
  | tick (nanos : Nat)

/-- Whether no operation is under way. -/
def isQuiet (m : Machine U S) : Bool :=
  match m.controlling.call, m.other.call with
  | .idle, .idle => true
  | _, _ => false

/-- One event; `none` if it is not possible now.  A registration or a launch that fails
changes nothing. -/
def step (work : U → S → U × S) (m : Machine U S) : Event U → Option (Machine U S)
  | .worker s => m.stepWorker s
  | .finish s => m.finishUnit work s
  | .panic s => m.panicUnit s
  | .invoke t op => m.invoke t op
  | .call t => m.stepCall t
  | .register expected actual unit =>
    if m.isQuiet then some (match m.register expected actual unit with
      | .ok (_, m) => m
      | .error _ => m)
    else none
  | .launch => if m.isQuiet then some (match m.launch with
      | .ok m => m
      | .error _ => m)
    else none
  | .tick nanos => some { m with clock := m.clock + nanos }

/-- A sequence of events, each possible after those before it. -/
def steps (work : U → S → U × S) (m : Machine U S) : List (Event U) → Option (Machine U S)
  | [] => some m
  | e :: es =>
    match m.step work e with
    | none => none
    | some m => m.steps work es

end Machine

end SpeedTrial.Trial
