import SpeedTrial.Proofs.Trial.Roster

/-!
# What one event can do

`Move` lists every way in which an event changes a machine, with the condition under which it
does and the whole machine after it.  Main statement: `Move.of_step`, every step of a machine is
one of them.  Nothing that is proved of runs unfolds a step again.
-/

namespace SpeedTrial.Trial

/-- An operation that stands here holds the lock. -/
def Call.holds : Call → Bool
  | .runAtFlag _ => true
  | .resuming _ _ => true
  | .resetting _ _ => true
  | .releasing _ => true
  | _ => false

/-- An operation that stands here is a stop. -/
def Call.isStop : Call → Bool
  | .stopAtFlag => true
  | .stopping _ => true
  | _ => false

/-- An operation that stands here is a wait. -/
def Call.isWait : Call → Bool
  | .waitAtLock _ => true
  | .waitAtFlag _ _ => true
  | .waitAtThreads _ _ => true
  | .waitAtClock _ _ => true
  | _ => false

/-- An operation that may stand here before the launch. -/
def Call.isFree : Call → Bool
  | .idle => true
  | c => c.isStop

/-- A worker that stands here holds the lock. -/
def Point.holds : Point → Bool
  | .freezing _ _ _ => true
  | .releasing => true
  | _ => false

/-- A worker was found busy. -/
def IsBusy (a : Except TrialError Answer) : Prop :=
  ∃ s completed quota, a = .error (.workerBusy s completed quota)

namespace Machine

variable {U S : Type}

/-- What a start of a trial has to do to the blocks. -/
def resumeScript (m : Machine U S) (quota trial : Nat) : List (Slot × Access) :=
  forEach m.writerSlots (Control.resuming quota trial) ++
    forEach m.readerSlots (Control.resuming unbounded trial)

/-- What a reset has to do to the blocks. -/
def resetScript (m : Machine U S) : List (Slot × Access) :=
  forEach m.slots Control.checkingIdle ++ forEach m.slots Control.resetting

/-- What an event can do. -/
inductive Move (work : U → S → U × S) (m : Machine U S) : Event U → Machine U S → Prop where
  /-- A worker acts on its own block. -/
  | own {s : Slot} {w : Worker U} {c : Control} {p : Point} :
      m.worker? s = some w → w.point.next w.control = some (c, p) →
      Move work m (.worker s) (m.onSlot s fun w => { w with control := c, point := p })
  /-- A report is accepted. -/
  | accept {s : Slot} {w : Worker U} {trial done : Nat} :
      m.worker? s = some w → w.point = .report trial done → m.lock = none →
      m.tally.accepts s trial = true →
      Move work m (.worker s)
        ({ m with lock := some (.worker s), tally := m.tally.mark s }.onSlot s
          (Worker.goTo (.freezing trial done (m.freezeOthers s trial))))
  | refuse {s : Slot} {w : Worker U} {trial done : Nat} :
      m.worker? s = some w → w.point = .report trial done → m.lock = none →
      m.tally.accepts s trial = false →
      Move work m (.worker s)
        ({ m with lock := some (.worker s) }.onSlot s (Worker.goTo .releasing))
  /-- A worker that reports freezes another. -/
  | freeze {s t : Slot} {w : Worker U} {trial done : Nat} {a : Access}
      {todo : List (Slot × Access)} :
      m.worker? s = some w → w.point = .freezing trial done ((t, a) :: todo) →
      Move work m (.worker s)
        ((m.onSlot t (Worker.write a)).onSlot s (Worker.goTo (.freezing trial done todo)))
  /-- A report is counted. -/
  | count {s : Slot} {w : Worker U} {trial done : Nat} :
      m.worker? s = some w → w.point = .freezing trial done [] →
      Move work m (.worker s)
        ({ m with tally := m.tally.count m.clock s done, lock := none }.onSlot s
          (Worker.goTo .top))
  | release {s : Slot} {w : Worker U} :
      m.worker? s = some w → w.point = .releasing →
      Move work m (.worker s) ({ m with lock := none }.onSlot s (Worker.goTo .top))
  | finish {s : Slot} {w : Worker U} {done : Nat} :
      m.worker? s = some w → w.point = .inUnit done →
      Move work m (.finish s)
        ({ m with shared := (work w.unit m.shared).2 }.onSlot s fun w' =>
          { w' with unit := (work w.unit m.shared).1, point := .publish (done + 1) })
  | panic {s : Slot} {w : Worker U} {done : Nat} :
      m.worker? s = some w → w.point = .inUnit done →
      Move work m (.panic s) (m.onSlot s (Worker.goTo .dead))
  /-- A caller goes on, or gets its answer, without the lock. -/
  | ask {t : Thread} {e : Event U} {c : Caller} :
      (e = .call t ∨ ∃ op, e = .invoke t op) →
      (m.caller t).call.holds = false → c.call.holds = false →
      (∀ x todo, (m.caller t).call ≠ .stopping (x :: todo)) →
      (c.call.isStop = true → e = .invoke t .stop) →
      (m.launched = false → (m.caller t).call.isFree = true → c.call.isFree = true) →
      (∀ total, c.call = .runAtLock total → m.launched = true ∧ m.writers ≠ []) →
      (∀ todo, c.call = .stopping todo → todo = forEach m.slots Control.stopping) →
      (∀ a, c.answer = some a → ¬ IsBusy a) →
      Move work m e (m.setCaller t c)
  | lockRun {t : Thread} {total : Nat} :
      (m.caller t).call = .runAtLock total → m.lock = none →
      Move work m (.call t)
        ({ m with lock := some (.caller t) }.setCaller t { call := .runAtFlag total })
  | runRefused {t : Thread} {total : Nat} {e : TrialError} :
      (m.caller t).call = .runAtFlag total → ¬ IsBusy (.error e) →
      Move work m (.call t) (m.setCaller t { call := .releasing (.error e) })
  /-- A trial begins. -/
  | begin {t : Thread} {total : Nat} :
      (m.caller t).call = .runAtFlag total → m.stopped = false → m.tally.phase = .ready →
      Move work m (.call t)
        ({ m with tally := m.tally.begun m.clock }.setCaller t
          { call := .resuming (Plan.quotaPerWriter total m.writers.length)
              (m.resumeScript (Plan.quotaPerWriter total m.writers.length)
                (m.tally.trial + 1)) })
  /-- A start of a trial goes on to hand out quota. -/
  | hand {t : Thread} {quota : Nat} {s : Slot} {a : Access} {todo : List (Slot × Access)} :
      (m.caller t).call = .resuming quota ((s, a) :: todo) →
      Move work m (.call t)
        ((m.onSlot s (Worker.write a)).setCaller t { call := .resuming quota todo })
  | endRun {t : Thread} {quota : Nat} :
      (m.caller t).call = .resuming quota [] →
      Move work m (.call t)
        ({ m with lock := none }.setCaller t { answer := some (.ok (.quota quota)) })
  | resetRefused {t : Thread} :
      (m.caller t).call = .resetAtLock → m.lock = none → m.tally.phase = .running →
      Move work m (.call t)
        ({ m with lock := some (.caller t) }.setCaller t
          { call := .releasing (.error (.inFlight m.tally.trial)) })
  | startReset {t : Thread} :
      (m.caller t).call = .resetAtLock → m.lock = none → m.tally.phase ≠ .running →
      Move work m (.call t)
        ({ m with lock := some (.caller t) }.setCaller t
          { call := .resetting 0 m.resetScript })
  | clear {t : Thread} {kept : Nat} {s : Slot} {w : Worker U} {a : Access}
      {todo : List (Slot × Access)} :
      (m.caller t).call = .resetting kept ((s, a) :: todo) → m.worker? s = some w →
      ¬ (a = .requireIdle ∧ w.control.completed < kept) →
      Move work m (.call t)
        ((m.onSlot s (Worker.write a)).setCaller t
          { call := .resetting (a.keep kept w.control) todo })
  /-- A reset passes over a slot without a worker. -/
  | skip {t : Thread} {kept : Nat} {s : Slot} {a : Access} {todo : List (Slot × Access)} :
      (m.caller t).call = .resetting kept ((s, a) :: todo) → m.worker? s = none →
      Move work m (.call t) (m.setCaller t { call := .resetting kept todo })
  /-- A reset finds a busy worker. -/
  | busy {t : Thread} {kept : Nat} {s : Slot} {w : Worker U} {todo : List (Slot × Access)} :
      (m.caller t).call = .resetting kept ((s, .requireIdle) :: todo) →
      m.worker? s = some w → w.control.completed < kept →
      Move work m (.call t)
        (m.setCaller t
          { call := .releasing (.error (.workerBusy s w.control.completed kept)) })
  | endReset {t : Thread} {kept : Nat} :
      (m.caller t).call = .resetting kept [] →
      Move work m (.call t)
        ({ m with tally := m.tally.reset, lock := none }.setCaller t
          { answer := some (.ok .done) })
  | unlock {t : Thread} {a : Except TrialError Answer} :
      (m.caller t).call = .releasing a →
      Move work m (.call t) ({ m with lock := none }.setCaller t { answer := some a })
  /-- A stop raises the flag of the coordinator. -/
  | flag {t : Thread} :
      (m.caller t).call = .stopAtFlag →
      Move work m (.call t)
        ({ m with stopped := true }.setCaller t
          { call := .stopping (forEach m.slots Control.stopping) })
  /-- A stop goes on to stop the workers. -/
  | halt {t : Thread} {s : Slot} {a : Access} {todo : List (Slot × Access)} :
      (m.caller t).call = .stopping ((s, a) :: todo) →
      Move work m (.call t)
        ((m.onSlot s (Worker.write a)).setCaller t { call := .stopping todo })
  | register {expected actual : Role} {unit : U} :
      m.isQuiet = true → m.launched = false →
      Move work m (.register expected actual unit) (m.enrol expected unit)
  | launch :
      m.isQuiet = true → m.launched = false →
      Move work m .launch
        { m.sendAll .top with
          launched := true
          tally := Tally.fresh m.writers.length m.readers.length }
  /-- A registration or a launch fails. -/
  | fail {e : Event U} :
      (e = .launch ∨ ∃ expected actual unit, e = .register expected actual unit) →
      Move work m e m
  | tick {nanos : Nat} : Move work m (.tick nanos) { m with clock := m.clock + nanos }

variable {work : U → S → U × S} {m m' : Machine U S}

/-! ## Every step is a move -/

theorem Move.of_stepWorker {s : Slot} (hs : m.stepWorker s = some m') :
    Move work m (.worker s) m' := by
  unfold stepWorker at hs
  cases hw : m.worker? s with
  | none => simp [hw] at hs
  | some w =>
    simp only [hw] at hs
    cases hp : w.point with
    | report trial done =>
      simp only [hp, beginReport] at hs
      cases hl : m.lock with
      | some _ => simp [hl] at hs
      | none =>
        simp only [hl] at hs
        by_cases hacc : m.tally.accepts s trial = true
        · rw [if_pos hacc, moveTo_eq] at hs
          cases hs
          exact .accept hw hp hl hacc
        · rw [if_neg hacc, moveTo_eq] at hs
          cases hs
          exact .refuse hw hp hl (by simpa using hacc)
    | freezing trial done todo =>
      cases todo with
      | nil =>
        simp only [hp, moveTo_eq, Option.some.injEq] at hs
        subst hs
        exact .count hw hp
      | cons x rest =>
        simp only [hp, moveTo_eq, store_eq, Option.some.injEq] at hs
        subst hs
        exact .freeze hw hp
    | releasing =>
      simp only [hp, moveTo_eq, Option.some.injEq] at hs
      subst hs
      exact .release hw hp
    | _ =>
      -- everywhere else the worker acts on its own block, or not at all
      simp only [hp] at hs
      split at hs
      · cases hs
      · next c p hn =>
        cases hs
        rw [setWorker_eq_onSlot]
        rw [onSlot_congr (g := fun w => { w with control := c, point := p })]
        · exact .own hw (by rw [hp]; exact hn)
        · intro w' hw'
          cases hw.symm.trans hw'
          rfl

theorem Move.of_finishUnit {s : Slot} (hs : m.finishUnit work s = some m') :
    Move work m (.finish s) m' := by
  unfold finishUnit at hs
  cases hw : m.worker? s with
  | none => simp [hw] at hs
  | some w =>
    simp only [hw] at hs
    split at hs
    · next done hp =>
      cases hs
      rw [setWorker_eq_onSlot]
      rw [onSlot_congr (g := fun w' =>
        { w' with unit := (work w.unit m.shared).1, point := .publish (done + 1) })]
      · exact .finish hw hp
      · intro w' hw'
        cases hw.symm.trans (by simpa using hw')
        rfl
    · cases hs

theorem Move.of_panicUnit {s : Slot} (hs : m.panicUnit s = some m') :
    Move work m (.panic s) m' := by
  unfold panicUnit at hs
  cases hw : m.worker? s with
  | none => simp [hw] at hs
  | some w =>
    simp only [hw] at hs
    split at hs
    · next done hp =>
      rw [moveTo_eq] at hs
      cases hs
      exact .panic hw hp
    · cases hs

/-- A wait goes on, or ends with an answer. -/
theorem Move.of_wait {t : Thread} {c : Caller} (h : (m.caller t).call.isWait = true)
    (hc : c.call = .idle ∨ c.call.isWait = true) (ha : ∀ a, c.answer = some a → ¬ IsBusy a) :
    Move work m (.call t) (m.setCaller t c) := by
  -- a wait neither takes the lock nor stops anybody nor starts a trial
  have hbefore : (m.caller t).call.holds = false ∧ (m.caller t).call.isFree = false ∧
      ∀ x todo, (m.caller t).call ≠ .stopping (x :: todo) := by
    cases hcall : (m.caller t).call <;>
      simp [hcall, Call.isWait, Call.holds, Call.isFree, Call.isStop] at h ⊢
  have hafter : c.call.holds = false ∧ c.call.isStop = false ∧
      (∀ total, c.call ≠ .runAtLock total) ∧ ∀ todo, c.call ≠ .stopping todo := by
    cases hcall : c.call <;> simp [hcall, Call.isWait, Call.holds, Call.isStop] at hc ⊢
  obtain ⟨hholds, hfree, hstopping⟩ := hbefore
  obtain ⟨hholds', hstop, hrun, hstopping'⟩ := hafter
  exact .ask (.inl rfl) hholds hholds' hstopping (fun h => by simp [hstop] at h)
    (fun _ h => by simp [hfree] at h) (fun total h => absurd h (hrun total))
    (fun todo h => absurd h (hstopping' todo)) ha

/-- A caller that takes the lock has found it free. -/
theorem takeLock_eq_some {t : Thread} {c : Call} (hs : m.takeLock t c = some m') :
    m.lock = none ∧ m' = { m with lock := some (.caller t) }.goOn t c := by
  unfold takeLock at hs
  split at hs
  · cases hs
  · next hl => exact ⟨hl, (Option.some.inj hs).symm⟩

/-- A caller that looks at the phase has found the lock free. -/
theorem lookAtPhase_eq_some {t : Thread} {w : Waiting} (hs : m.lookAtPhase t w = some m') :
    m.lock = none ∧ m' = match m.tally.phase with
      | .ready => m.reply t (.error .noTrialInFlight)
      | .complete => m.reply t (.ok .done)
      | .running => m.goOn t (.waitAtFlag w m.tally.trial) := by
  unfold lookAtPhase at hs
  split at hs
  · cases hs
  · next hl => exact ⟨hl, (Option.some.inj hs).symm⟩

theorem Move.of_startTrial {t : Thread} {total : Nat}
    (hcall : (m.caller t).call = .runAtFlag total) :
    Move work m (.call t) (m.startTrial t total) := by
  unfold startTrial
  by_cases hstop : m.stopped = true
  · rw [if_pos hstop]
    exact .runRefused hcall (by simp [IsBusy])
  · rw [if_neg hstop]
    cases hph : m.tally.phase with
    | running => exact .runRefused hcall (by simp [IsBusy])
    | complete => exact .runRefused hcall (by simp [IsBusy])
    | ready => exact .begin hcall (by simpa using hstop) hph

theorem Move.of_startReset {t : Thread} (hcall : (m.caller t).call = .resetAtLock)
    (hl : m.lock = none) :
    Move work m (.call t)
      (({ m with lock := some (.caller t) }.goOn t (.resetting 0 [])).startReset t) := by
  unfold Machine.startReset
  by_cases hph : m.tally.phase = .running
  · rw [if_pos (by simpa [goOn] using hph)]
    simpa only [goOn, setCaller_setCaller, tally_setCaller] using .resetRefused hcall hl hph
  · rw [if_neg (by simpa [goOn] using hph)]
    simpa only [goOn, setCaller_setCaller, slots_setCaller] using .startReset hcall hl hph

/-- A reset goes on with one block. -/
theorem Move.of_resetting {t : Thread} {kept : Nat} {s : Slot} {a : Access}
    {todo : List (Slot × Access)} (hcall : (m.caller t).call = .resetting kept ((s, a) :: todo)) :
    Move work m (.call t) (match m.access kept s a with
      | .error b => m.goOn t (.releasing (.error (.workerBusy s b.completed b.quota)))
      | .ok (kept, m) => m.goOn t (.resetting kept todo)) := by
  rw [access_eq]
  cases hw : m.worker? s with
  | none => exact .skip hcall hw
  | some w =>
    by_cases hbusy : a = .requireIdle ∧ w.control.completed < kept
    · obtain ⟨rfl, hlt⟩ := hbusy
      simp only [hlt, and_self, if_true]
      exact .busy hcall hw hlt
    · simp only [hbusy, if_false]
      exact .clear hcall hw hbusy

theorem Move.of_stepCall {t : Thread} (hs : m.stepCall t = some m') :
    Move work m (.call t) m' := by
  unfold stepCall at hs
  cases hcall : (m.caller t).call with
  | idle => simp [hcall] at hs
  | runAtLock total =>
    simp only [hcall] at hs
    obtain ⟨hl, rfl⟩ := takeLock_eq_some hs
    exact .lockRun hcall hl
  | runAtFlag total =>
    simp only [hcall, Option.some.injEq] at hs
    subst hs
    exact .of_startTrial hcall
  | resuming quota todo =>
    cases todo with
    | nil =>
      simp only [hcall, Option.some.injEq] at hs
      subst hs
      exact .endRun hcall
    | cons x rest =>
      simp only [hcall, store_eq, Option.some.injEq] at hs
      subst hs
      exact .hand hcall
  | resetAtLock =>
    simp only [hcall] at hs
    obtain ⟨m₁, hlock, rfl⟩ := Option.map_eq_some_iff.mp hs
    obtain ⟨hl, rfl⟩ := takeLock_eq_some hlock
    exact .of_startReset hcall hl
  | resetting kept todo =>
    cases todo with
    | nil =>
      simp only [hcall, Option.some.injEq] at hs
      subst hs
      exact .endReset hcall
    | cons x rest =>
      simp only [hcall, Option.some.injEq] at hs
      subst hs
      exact .of_resetting hcall
  | waitAtLock w =>
    simp only [hcall] at hs
    obtain ⟨-, rfl⟩ := lookAtPhase_eq_some hs
    cases m.tally.phase <;>
      exact .of_wait (by simp [hcall, Call.isWait]) (by simp [Call.isWait]) (by simp [IsBusy])
  | waitAtFlag w trial =>
    simp only [hcall, Option.some.injEq] at hs
    subst hs
    split <;>
      exact .of_wait (by simp [hcall, Call.isWait]) (by simp [Call.isWait]) (by simp [IsBusy])
  | waitAtThreads w trial =>
    simp only [hcall, Option.some.injEq] at hs
    subst hs
    cases m.finishedSlot? <;>
      exact .of_wait (by simp [hcall, Call.isWait]) (by simp [Call.isWait]) (by simp [IsBusy])
  | waitAtClock w trial =>
    simp only [hcall, Option.some.injEq] at hs
    subst hs
    cases Waiting.isOver w m.clock <;>
      exact .of_wait (by simp [hcall, Call.isWait]) (by simp [Call.isWait]) (by simp [IsBusy])
  | stopAtFlag =>
    simp only [hcall, Option.some.injEq] at hs
    subst hs
    exact .flag hcall
  | stopping todo =>
    cases todo with
    | nil =>
      simp only [hcall, Option.some.injEq] at hs
      subst hs
      exact .ask (.inl rfl) (by simp [hcall, Call.holds]) (by simp [Call.holds])
        (by simp [hcall]) (by simp [Call.isStop]) (by simp [Call.isFree]) (by simp) (by simp)
        (by simp [IsBusy])
    | cons x rest =>
      simp only [hcall, store_eq, Option.some.injEq] at hs
      subst hs
      exact .halt hcall
  | releasing answer =>
    simp only [hcall, Option.some.injEq] at hs
    subst hs
    exact .unlock hcall

/-- An idle caller begins an operation. -/
theorem Move.of_begun {t : Thread} {op : Operation} (c : Call)
    (hidle : (m.caller t).call = .idle) (hh : c.holds = false)
    (hstop : c.isStop = true → op = .stop) (hfree : m.launched = false → c.isFree = true)
    (hrun : ∀ total, c = .runAtLock total → m.launched = true ∧ m.writers ≠ [])
    (htodo : ∀ todo, c = .stopping todo → todo = forEach m.slots Control.stopping) :
    Move work m (.invoke t op) (m.goOn t c) :=
  .ask (.inr ⟨op, rfl⟩) (by simp [hidle, Call.holds]) hh (by simp [hidle])
    (fun h => by rw [hstop h]) (fun h _ => hfree h) hrun htodo (by simp)

/-- An idle caller gets its answer at once. -/
theorem Move.of_replied {t : Thread} {op : Operation} (a : Except TrialError Answer)
    (hidle : (m.caller t).call = .idle) (ha : ¬ IsBusy a) :
    Move work m (.invoke t op) (m.reply t a) :=
  .ask (.inr ⟨op, rfl⟩) (by simp [hidle, Call.holds]) rfl (by simp [hidle])
    (by simp [Call.isStop]) (by simp [Call.isFree]) (by simp) (by simp) (by simpa using ha)

theorem Move.of_invoke {t : Thread} {op : Operation} (hs : m.invoke t op = some m') :
    Move work m (.invoke t op) m' := by
  unfold invoke at hs
  cases hcall : (m.caller t).call with
  | idle =>
    simp only [hcall, Option.some.injEq] at hs
    subst hs
    cases hl : m.launched with
    | false =>
      -- before the launch everything but a stop is answered at once
      cases op with
      | run => exact .of_replied _ hcall (by simp [IsBusy])
      | wait => exact .of_replied _ hcall (by simp [IsBusy])
      | reset => exact .of_replied _ hcall (by simp [IsBusy])
      | stop =>
        exact .of_begun (.stopping (forEach m.slots Control.stopping)) hcall rfl (by simp)
          (by simp [Call.isFree, Call.isStop]) (by simp) (by simp)
    | true =>
      cases op with
      | run total =>
        by_cases hw : m.writers = []
        · simp only [hw, List.isEmpty_nil, Bool.not_true, Bool.false_eq_true, if_false, if_true]
          exact .of_replied _ hcall (by simp [IsBusy])
        · simp only [List.isEmpty_iff, hw, Bool.not_true, Bool.false_eq_true, if_false]
          exact .of_begun _ hcall rfl (by simp [Call.isStop]) (by simp [hl]) (by simp [hl, hw])
            (by simp)
      | wait =>
        exact .of_begun _ hcall rfl (by simp [Call.isStop]) (by simp [hl]) (by simp) (by simp)
      | reset =>
        exact .of_begun _ hcall rfl (by simp [Call.isStop]) (by simp [hl]) (by simp) (by simp)
      | stop => exact .of_begun _ hcall rfl (by simp) (by simp [hl]) (by simp) (by simp)
  | _ => simp [hcall] at hs

theorem Move.of_register {expected actual : Role} {unit : U}
    (hs : m.step work (.register expected actual unit) = some m') :
    Move work m (.register expected actual unit) m' := by
  simp only [step] at hs
  split at hs
  · next hq =>
    cases hs
    unfold Machine.register
    by_cases hl : m.launched = true
    · rw [if_pos hl]
      exact .fail (.inr ⟨_, _, _, rfl⟩)
    · rw [if_neg hl]
      -- a worker of another role than it is registered for is refused
      by_cases hr : actual ≠ expected
      · rw [if_pos hr]
        exact .fail (.inr ⟨_, _, _, rfl⟩)
      · rw [if_neg hr]
        have hmove : Move work m (.register expected actual unit) (m.enrol expected unit) :=
          .register hq (by simpa using hl)
        cases expected <;> exact hmove
  · cases hs

theorem Move.of_launch (hs : m.step work .launch = some m') : Move work m .launch m' := by
  simp only [step] at hs
  split at hs
  · next hq =>
    cases hs
    unfold Machine.launch
    by_cases hl : m.launched = true
    · rw [if_pos hl]
      exact .fail (.inl rfl)
    · rw [if_neg hl]
      exact .launch hq (by simpa using hl)
  · cases hs

/-- Every step of a machine is a move. -/
theorem Move.of_step {e : Event U} (hs : m.step work e = some m') : Move work m e m' := by
  cases e with
  | worker s => exact .of_stepWorker hs
  | finish s => exact .of_finishUnit hs
  | panic s => exact .of_panicUnit hs
  | invoke t op => exact .of_invoke hs
  | call t => exact .of_stepCall hs
  | register expected actual unit => exact .of_register hs
  | launch => exact .of_launch hs
  | tick nanos =>
    cases hs
    exact .tick

end Machine

end SpeedTrial.Trial
