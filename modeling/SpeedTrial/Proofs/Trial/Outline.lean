import SpeedTrial.Proofs.Trial.History
import SpeedTrial.Proofs.Trial.Move

/-!
# The outline of a machine

How workers and callers coordinate does not depend on what a unit of work does: no step looks at the
work of a worker or at what the work acts on.  The outline of a machine is all the rest of it, as a
machine whose work does nothing.

* `Machine.step_outline`: a step of a machine is one of its outline.
* `Run.outline`: so the outline of a run is a run, and what is known of all runs holds of it.
* `Machine.unit?_of_step` and `Machine.unit?_of_finish`: only the return of a unit does anything to
  the work.
-/

namespace SpeedTrial.Trial

variable {U S : Type}

/-- A worker without its work. -/
def Worker.outline (w : Worker U) : Worker Unit := ⟨w.control, w.point, ()⟩

namespace Machine

/-- A machine without the work of its workers and what they share. -/
def outline (m : Machine U S) : Machine Unit Unit where
  freeze := m.freeze
  launched := m.launched
  stopped := m.stopped
  lock := m.lock
  tally := m.tally
  writers := m.writers.map Worker.outline
  readers := m.readers.map Worker.outline
  controlling := m.controlling
  other := m.other
  clock := m.clock
  shared := ()

/-- An event without the work of a worker that is registered. -/
def Event.outline : Event U → Event Unit
  | .worker s => .worker s
  | .finish s => .finish s
  | .panic s => .panic s
  | .invoke t op => .invoke t op
  | .call t => .call t
  | .register expected actual _ => .register expected actual ()
  | .launch => .launch
  | .tick nanos => .tick nanos

variable (m : Machine U S) (s : Slot) (t : Thread)

/-! ## The roster -/

@[simp] theorem workers_outline (r : Role) :
    m.outline.workers r = (m.workers r).map Worker.outline := by
  cases r <;> rfl

@[simp] theorem worker?_outline : m.outline.worker? s = (m.worker? s).map Worker.outline := by
  simp [worker?]

@[simp] theorem length_writers_outline : m.outline.writers.length = m.writers.length := by
  simp [outline]

@[simp] theorem writerSlots_outline : m.outline.writerSlots = m.writerSlots := by
  simp [writerSlots]

@[simp] theorem readerSlots_outline : m.outline.readerSlots = m.readerSlots := by
  simp [readerSlots, outline]

@[simp] theorem slots_outline : m.outline.slots = m.slots := by
  simp [slots]

@[simp] theorem lock_outline : m.outline.lock = m.lock := rfl

@[simp] theorem tally_outline : m.outline.tally = m.tally := rfl

@[simp] theorem launched_outline : m.outline.launched = m.launched := rfl

@[simp] theorem stopped_outline : m.outline.stopped = m.stopped := rfl

@[simp] theorem clock_outline : m.outline.clock = m.clock := rfl

@[simp] theorem caller_outline : m.outline.caller t = m.caller t := by
  cases t <;> rfl

theorem setCaller_outline (c : Caller) : m.outline.setCaller t c = (m.setCaller t c).outline := by
  cases t <;> rfl

theorem setWorker_outline (w : Worker U) :
    m.outline.setWorker s w.outline = (m.setWorker s w).outline := by
  obtain ⟨r, i⟩ := s
  cases r <;> simp [setWorker, outline, List.map_set]

/-! ## Accesses and steps of a worker -/

theorem access_outline (kept : Nat) (a : Access) :
    m.outline.access kept s a =
      (m.access kept s a).map fun r => (r.1, r.2.outline) := by
  unfold access
  rw [worker?_outline]
  cases m.worker? s with
  | none => rfl
  | some w =>
    have hset (c : Control) : m.outline.setWorker s { w.outline with control := c } =
        (m.setWorker s { w with control := c }).outline :=
      m.setWorker_outline s { w with control := c }
    have hcontrol : w.outline.control = w.control := rfl
    simp only [Option.map_some, hcontrol]
    cases a.perform kept w.control with
    | error b => rfl
    | ok r => simp [Except.map, hset]

theorem store_outline (a : Access) : m.outline.store s a = (m.store s a).outline := by
  unfold store
  rw [access_outline]
  cases m.access 0 s a <;> rfl

theorem moveTo_outline (p : Point) : m.outline.moveTo s p = (m.moveTo s p).outline := by
  unfold moveTo
  rw [worker?_outline]
  cases m.worker? s with
  | none => rfl
  | some w => exact m.setWorker_outline s { w with point := p }

theorem freezeOthers_outline (trial : Nat) :
    m.outline.freezeOthers s trial = m.freezeOthers s trial := by
  simp [freezeOthers, outline, writerSlots, readerSlots]

theorem beginReport_outline (trial done : Nat) :
    m.outline.beginReport s trial done = (m.beginReport s trial done).map outline := by
  unfold beginReport
  rw [lock_outline]
  cases m.lock with
  | some _ => rfl
  | none =>
    by_cases hacc : m.tally.accepts s trial = true
    · simp only [tally_outline, hacc, if_true]
      have hothers := freezeOthers_outline { m with lock := some (.worker s) } s trial
      refine congrArg some (Eq.trans ?_
        (moveTo_outline { m with lock := some (.worker s), tally := m.tally.mark s } s _))
      rw [← hothers]
      rfl
    · simp only [tally_outline, hacc]
      exact congrArg some (moveTo_outline { m with lock := some (.worker s) } s .releasing)

theorem stepWorker_outline : m.outline.stepWorker s = (m.stepWorker s).map outline := by
  unfold stepWorker
  rw [worker?_outline]
  cases m.worker? s with
  | none => rfl
  | some w =>
    have hpoint : w.outline.point = w.point := rfl
    have hcontrol : w.outline.control = w.control := rfl
    simp only [Option.map_some, hpoint, hcontrol]
    cases w.point with
    | report trial done => exact m.beginReport_outline s trial done
    | freezing trial done todo =>
      cases todo with
      | nil =>
        exact congrArg some (moveTo_outline
          { m with tally := m.tally.count m.clock s done, lock := none } s .top)
      | cons x rest =>
        obtain ⟨t, a⟩ := x
        simp only [Option.map_some, ← moveTo_outline, ← store_outline]
    | releasing => exact congrArg some (moveTo_outline { m with lock := none } s .top)
    | _ =>
      -- everywhere else the worker acts on its own block, or not at all
      dsimp only
      generalize Point.next w.control _ = r
      obtain _ | ⟨c, p⟩ := r
      · rfl
      · exact congrArg some (m.setWorker_outline s { w with control := c, point := p })

theorem finishUnit_outline (work : U → S → U × S) :
    m.outline.finishUnit idleWork s = (m.finishUnit work s).map outline := by
  unfold finishUnit
  rw [worker?_outline]
  cases m.worker? s with
  | none => rfl
  | some w =>
    have hpoint : w.outline.point = w.point := rfl
    simp only [Option.map_some, hpoint]
    cases w.point with
    | inUnit done =>
      exact congrArg some (setWorker_outline { m with shared := (work w.unit m.shared).2 } s
        { w with unit := (work w.unit m.shared).1, point := .publish (done + 1) })
    | _ => rfl

theorem panicUnit_outline : m.outline.panicUnit s = (m.panicUnit s).map outline := by
  unfold panicUnit
  rw [worker?_outline]
  cases m.worker? s with
  | none => rfl
  | some w =>
    have hpoint : w.outline.point = w.point := rfl
    simp only [Option.map_some, hpoint]
    cases w.point with
    | inUnit done => exact congrArg some (m.moveTo_outline s .dead)
    | _ => rfl

/-! ## Steps of a caller -/

theorem goOn_outline (c : Call) : m.outline.goOn t c = (m.goOn t c).outline :=
  m.setCaller_outline t { call := c }

theorem reply_outline (a : Except TrialError Answer) : m.outline.reply t a = (m.reply t a).outline :=
  m.setCaller_outline t { answer := some a }

theorem takeLock_outline (c : Call) :
    m.outline.takeLock t c = (m.takeLock t c).map outline := by
  unfold takeLock
  rw [lock_outline]
  cases m.lock with
  | some _ => rfl
  | none => exact congrArg some (goOn_outline { m with lock := some (.caller t) } t c)

theorem unlock_outline (a : Except TrialError Answer) :
    m.outline.unlock t a = (m.unlock t a).outline :=
  reply_outline { m with lock := none } t a

theorem startTrial_outline (total : Nat) :
    m.outline.startTrial t total = (m.startTrial t total).outline := by
  unfold startTrial
  rw [stopped_outline, tally_outline]
  split
  · exact m.goOn_outline t _
  · cases m.tally.phase with
    | running => exact m.goOn_outline t _
    | complete => exact m.goOn_outline t _
    | ready =>
      simp only [length_writers_outline, writerSlots_outline, readerSlots_outline, clock_outline]
      exact goOn_outline { m with tally := m.tally.begun m.clock } t _

theorem startReset_outline : m.outline.startReset t = (m.startReset t).outline := by
  unfold startReset
  rw [tally_outline, slots_outline]
  split <;> exact m.goOn_outline t _

theorem lookAtPhase_outline (w : Waiting) :
    m.outline.lookAtPhase t w = (m.lookAtPhase t w).map outline := by
  unfold lookAtPhase
  rw [lock_outline, tally_outline]
  cases m.lock with
  | some _ => rfl
  | none =>
    cases m.tally.phase with
    | ready => exact congrArg some (m.reply_outline t _)
    | complete => exact congrArg some (m.reply_outline t _)
    | running => exact congrArg some (m.goOn_outline t _)

@[simp] theorem finishedSlot?_outline : m.outline.finishedSlot? = m.finishedSlot? := by
  simp [finishedSlot?, Worker.outline, Function.comp_def]

theorem stepCall_outline : m.outline.stepCall t = (m.stepCall t).map outline := by
  unfold stepCall
  rw [caller_outline]
  -- one lemma for each helper that the step consists of; none of them looks at the units or what they
  -- share
  cases (m.caller t).call with
  | idle => rfl
  | runAtLock total => exact m.takeLock_outline t _
  | runAtFlag total => exact congrArg some (m.startTrial_outline t total)
  | resuming quota todo =>
    cases todo with
    | nil => exact congrArg some (m.unlock_outline t _)
    | cons x rest =>
      simp only [Option.map_some, ← goOn_outline, ← store_outline]
  | resetAtLock =>
    simp only [takeLock_outline]
    cases m.takeLock t (.resetting 0 []) with
    | none => rfl
    | some m => exact congrArg some (m.startReset_outline t)
  | resetting kept todo =>
    cases todo with
    | nil => exact congrArg some (unlock_outline { m with tally := m.tally.reset } t _)
    | cons x rest =>
      obtain ⟨s, a⟩ := x
      simp only [access_outline]
      cases m.access kept s a with
      | error b => exact congrArg some (m.goOn_outline t _)
      | ok r => exact congrArg some (r.2.goOn_outline t _)
  | waitAtLock w => exact m.lookAtPhase_outline t w
  | waitAtFlag w trial =>
    by_cases hst : m.stopped = true
    · simp only [stopped_outline, hst, if_true]
      exact congrArg some (m.reply_outline t _)
    · simp only [stopped_outline, hst]
      exact congrArg some (m.goOn_outline t _)
  | waitAtThreads w trial =>
    simp only [finishedSlot?_outline]
    cases m.finishedSlot? with
    | none => exact congrArg some (m.goOn_outline t _)
    | some s => exact congrArg some (m.reply_outline t _)
  | waitAtClock w trial =>
    simp only [clock_outline]
    cases Waiting.isOver w m.clock with
    | none => exact congrArg some (m.goOn_outline t _)
    | some limit => exact congrArg some (m.reply_outline t _)
  | stopAtFlag =>
    simp only [slots_outline]
    exact congrArg some (goOn_outline { m with stopped := true } t _)
  | stopping todo =>
    cases todo with
    | nil => exact congrArg some (m.reply_outline t _)
    | cons x rest =>
      simp only [Option.map_some, ← goOn_outline, ← store_outline]
  | releasing answer => exact congrArg some (m.unlock_outline t answer)

theorem invoke_outline (op : Operation) :
    m.outline.invoke t op = (m.invoke t op).map outline := by
  have hempty : m.outline.writers.isEmpty = m.writers.isEmpty := by simp [outline]
  unfold invoke
  rw [caller_outline]
  cases (m.caller t).call with
  | idle =>
    by_cases hl : m.launched = true <;>
      simp only [launched_outline, hempty, slots_outline, clock_outline, hl]
    · cases op with
      | run total =>
        by_cases hw : m.writers.isEmpty = true <;> simp only [hw] <;>
          exact congrArg some (m.setCaller_outline t _)
      | _ => exact congrArg some (m.setCaller_outline t _)
    · cases op <;> exact congrArg some (m.setCaller_outline t _)
  | _ => rfl

/-! ## Events -/

theorem register_outline (expected actual : Role) (unit : U) :
    m.outline.register expected actual () =
      (m.register expected actual unit).map fun r => (r.1, r.2.outline) := by
  unfold register
  rw [launched_outline]
  split
  · rfl
  · split
    · rfl
    · cases expected <;> simp [outline, Except.map, Worker.outline]

theorem launch_outline : m.outline.launch = m.launch.map outline := by
  unfold launch
  rw [launched_outline]
  split
  · rfl
  · simp [outline, Except.map, Worker.outline, Function.comp_def]

/-- What an event does to a machine, it does to its outline. -/
theorem step_outline (work : U → S → U × S) (e : Event U) :
    m.outline.step idleWork e.outline = (m.step work e).map outline := by
  have hquiet : m.outline.isQuiet = m.isQuiet := rfl
  cases e with
  | worker s => exact m.stepWorker_outline s
  | finish s => exact m.finishUnit_outline s work
  | panic s => exact m.panicUnit_outline s
  | invoke t op => exact m.invoke_outline t op
  | call t => exact m.stepCall_outline t
  | register expected actual unit =>
    simp only [step, Event.outline, hquiet, register_outline m expected actual unit]
    cases m.isQuiet with
    | false => rfl
    | true => cases m.register expected actual unit <;> rfl
  | launch =>
    simp only [step, Event.outline, hquiet, launch_outline]
    cases m.isQuiet with
    | false => rfl
    | true => cases m.launch <;> rfl
  | tick nanos => rfl

end Machine

/-! ## Runs -/

/-- A moment without any work. -/
def Moment.outline (x : Moment U S) : Moment Unit Unit :=
  ⟨x.before.outline, x.event.outline, x.after.outline⟩

/-- The outline of a run is a run. -/
theorem Run.outline {work : U → S → U × S} {m₀ m : Machine U S} {h : History U S}
    (run : Run work m₀ h m) : Run idleWork m₀.outline (h.map Moment.outline) m.outline := by
  induction run with
  | start => exact .start
  | @next h m m' e run hs ih => exact ih.next (by rw [Machine.step_outline m work, hs]; rfl)

/-! ## The work -/

namespace Machine

variable {work : U → S → U × S} {m m' : Machine U S} {e : Event U} {s : Slot}

/-- The work of the worker in a slot. -/
def unit? (m : Machine U S) (s : Slot) : Option U := (m.worker? s).map Worker.unit

theorem unit?_onSlot (f : Worker U → Worker U) (hf : ∀ w, (f w).unit = w.unit) (t : Slot) :
    (m.onSlot s f).unit? t = m.unit? t := by
  have hunit (w : Worker U) : (if t = s then f w else w).unit = w.unit := by
    split
    · exact hf w
    · rfl
  simp [unit?, hunit, Function.comp_def]

@[simp] theorem unit?_onSlot_goTo (p : Point) (t : Slot) :
    (m.onSlot s (Worker.goTo p)).unit? t = m.unit? t :=
  unit?_onSlot (Worker.goTo p) (fun _ => rfl) t

@[simp] theorem unit?_onSlot_write (a : Access) (t : Slot) :
    (m.onSlot s (Worker.write a)).unit? t = m.unit? t :=
  unit?_onSlot (Worker.write a) (fun _ => rfl) t

@[simp] theorem unit?_onSlot_own (c : Control) (p : Point) (t : Slot) :
    (m.onSlot s fun w => { w with control := c, point := p }).unit? t = m.unit? t :=
  unit?_onSlot (fun w => { w with control := c, point := p }) (fun _ => rfl) t

@[simp] theorem unit?_setCaller (t : Thread) (c : Caller) (s : Slot) :
    (m.setCaller t c).unit? s = m.unit? s := by
  simp [unit?]

@[simp] theorem unit?_mk (fr : FreezeScope) (la st : Bool) (lk : Option Holder) (ta : Tally)
    (co ot : Caller) (cl : Nat) (sh : S) (s : Slot) :
    (Machine.mk fr la st lk ta m.writers m.readers co ot cl sh).unit? s = m.unit? s := rfl

@[simp] theorem unit?_sendAll (p : Point) (s : Slot) : (m.sendAll p).unit? s = m.unit? s := by
  simp [unit?, Worker.goTo, Function.comp_def]

@[simp] theorem shared_onSlot (f : Worker U → Worker U) : (m.onSlot s f).shared = m.shared := by
  unfold onSlot
  split <;> rfl

@[simp] theorem shared_setCaller (t : Thread) (c : Caller) : (m.setCaller t c).shared = m.shared := by
  cases t <;> rfl

/-- Nothing but the return of a unit does anything to the work, once all workers are registered. -/
theorem unit?_of_step (hs : m.step work e = some m') (hfinish : ∀ s, e ≠ .finish s)
    (hregister : ∀ expected actual unit, e ≠ .register expected actual unit) :
    m'.shared = m.shared ∧ ∀ t, m'.unit? t = m.unit? t := by
  cases Move.of_step hs with
  | finish => exact absurd rfl (hfinish _)
  | register => exact absurd rfl (hregister _ _ _)
  | launch => exact ⟨rfl, fun t => m.unit?_sendAll .top t⟩
  | fail => exact ⟨rfl, fun t => rfl⟩
  | _ => exact ⟨by simp, fun t => by simp⟩

/-- The return of a unit changes the work of its worker and what all share. -/
theorem unit?_of_finish (hs : m.step work (.finish s) = some m') :
    ∃ u, m.unit? s = some u ∧ m'.shared = (work u m.shared).2 ∧
      ∀ t, m'.unit? t = if t = s then some (work u m.shared).1 else m.unit? t := by
  cases Move.of_step hs with
  | @finish _ w done hw hp =>
    refine ⟨w.unit, by simp [unit?, hw], by simp, fun t => ?_⟩
    by_cases ht : t = s
    · subst ht
      simp [unit?, hw]
    · simp [unit?, ht]
  | fail he => rcases he with he | ⟨_, _, _, he⟩ <;> cases he
  | ask he => rcases he with he | ⟨_, he⟩ <;> cases he

end Machine

end SpeedTrial.Trial
