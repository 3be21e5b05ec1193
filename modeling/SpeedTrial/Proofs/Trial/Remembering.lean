import SpeedTrial.Proofs.Trial.Calls
import SpeedTrial.Proofs.Trial.Completion
import SpeedTrial.Proofs.Trial.Halting

/-!
# Which stops are remembered

A stop that is called after the launch raises the flag of the coordinator, and from then on no trial
is started.  A stop that is called before the launch reaches the blocks of the workers that are
registered by then and nothing else: the coordinator of the launch knows nothing of it.

* `Run.stopped_iff`: the flag tells of every stop since the launch, and of no other.
* `RunCourse`: how far the call of a start is, by what it will be answered.
* `stop_is_remembered_once_launched`: what a start is answered when nobody else calls anything.
* `stop_before_launch_is_forgotten`: a start that succeeds although the workers have been stopped.
-/

namespace SpeedTrial.Trial

open SpeedTrial.Plan

variable {U S : Type} {work : U → S → U × S} {freeze : FreezeScope} {shared : S}
  {h g : History U S} {m m' : Machine U S} {e : Machine.Event U} {t : Thread} {total : Nat}

/-! ## The flag and the history -/

/-- Only after the launch a stop begins with the flag of the coordinator. -/
theorem Machine.stopAtFlag_of_step (hs : m.step work e = some m')
    (hcall : (m'.caller t).call = .stopAtFlag) :
    (m.caller t).call = .stopAtFlag ∨ e = .invoke t .stop ∧ m.launched = true := by
  cases Machine.Move.of_step hs with
  | @ask t' _ c he _ _ _ hstop =>
    by_cases ht : t = t'
    · subst ht
      simp only [Machine.caller_setCaller, if_true] at hcall
      obtain rfl := hstop (by rw [hcall]; rfl)
      refine .inr ⟨rfl, ?_⟩
      cases hl : m.launched with
      | true => rfl
      | false =>
        -- before the launch it begins with the workers
        simp only [Machine.step, Machine.invoke, hl] at hs
        split at hs
        · have hcaller := congrArg (fun m' => (Machine.caller m' t).call) (Option.some.inj hs)
          simp [Machine.goOn, hcall] at hcaller
        · cases hs
    · exact .inl (by simpa [ht] using hcall)
  | own | accept | refuse | freeze | count | release | finish | panic | register | launch | tick =>
    exact .inl (by simpa using hcall)
  | fail => exact .inl hcall
  | @lockRun t' | @runRefused t' | @begin t' | @hand t' | @endRun t' | @resetRefused t'
  | @startReset t' | @clear t' | @skip t' | @busy t' | @endReset t' | @unlock t' | @flag t'
  | @halt t' =>
    by_cases ht : t = t'
    · simp [ht] at hcall
    · exact .inl (by simpa [ht] using hcall)

/-- The flag is raised by a stop that is about to. -/
theorem Machine.stopped_of_step (hs : m.step work e = some m') (hst : m'.stopped = true) :
    m.stopped = true ∨ ∃ t, (m.caller t).call = .stopAtFlag := by
  cases Machine.Move.of_step hs with
  | flag hcall => exact .inr ⟨_, hcall⟩
  | _ => exact .inl (by simpa using hst)

/-- A stop that is about to raise the flag does so, or still is. -/
theorem Machine.stopped_of_stopAtFlag (hs : m.step work e = some m')
    (hcall : (m.caller t).call = .stopAtFlag) :
    m'.stopped = true ∨ (m'.caller t).call = .stopAtFlag := by
  by_cases he : e = .call t
  · subst he
    simp only [Machine.step, Machine.stepCall, hcall, Option.some.injEq] at hs
    subst hs
    exact .inl (by simp [Machine.goOn])
  · refine .inr ?_
    rw [Machine.caller_of_step hs he, hcall]
    rintro op rfl
    simp [Machine.step, Machine.invoke, hcall] at hs

/-- The flag is raised exactly if a stop was called since the launch, but for one that is just about
to raise it. -/
theorem Run.stopped_iff (run : Run work (.empty freeze shared) h m) :
    (m.stopped = true ∨ ∃ t, (m.caller t).call = .stopAtFlag) ↔
      ∃ x ∈ h, x.stops = true ∧ x.before.launched = true := by
  -- by induction on the run; a stop raises the flag in a step of its own
  induction run with
  | start =>
    have hidle : ∀ t, ((Machine.empty freeze shared : Machine U S).caller t).call = .idle :=
      fun t => by cases t <;> rfl
    have hflag : (Machine.empty freeze shared : Machine U S).stopped = false := rfl
    simp [hidle, hflag]
  | @next h m m' e run hs ih =>
    rw [List.exists_mem_cons_iff, ← ih]
    constructor
    · rintro (hst | ⟨t, hcall⟩)
      · exact .inr (Machine.stopped_of_step hs hst)
      · rcases Machine.stopAtFlag_of_step hs hcall with hcall | ⟨rfl, hl⟩
        · exact .inr (.inr ⟨t, hcall⟩)
        · exact .inl ⟨rfl, hl⟩
    · rintro (⟨hstops, hl⟩ | hst | ⟨t, hcall⟩)
      · obtain ⟨t, rfl⟩ : ∃ t, e = .invoke t .stop := by
          unfold Moment.stops at hstops
          split at hstops
          · next t he => exact ⟨t, he⟩
          · cases hstops
        exact .inr ⟨t, Machine.call_of_stop hl hs⟩
      · exact .inl ((Machine.Move.of_step hs).stopped hst)
      · exact (Machine.stopped_of_stopAtFlag hs hcall).imp_right fun hcall => ⟨t, hcall⟩

/-! ## One caller -/

/-- A thread that has called nothing is in no call. -/
theorem Run.idle_of_no_invoke (run : Run work (.empty freeze shared) h m)
    (hno : ∀ x ∈ h, x.asks? t = none) : (m.caller t).call = .idle := by
  induction run with
  | start => cases t <;> rfl
  | @next h m m' e run hs ih =>
    have hidle := ih fun x hx => hno x (List.mem_cons_of_mem _ hx)
    rw [Machine.caller_of_step hs ?_ ?_, hidle]
    · rintro rfl
      simp [Machine.step, Machine.stepCall, hidle] at hs
    · rintro op rfl
      simpa [Moment.asks?] using hno _ (List.mem_cons_self ..)

/-- While nobody is in a call the flag tells of every stop since the launch. -/
theorem Run.stopped_iff_of_idle (run : Run work (.empty freeze shared) h m)
    (hone : ∀ x ∈ h, x.asks? .other = none)
    (hidle : (m.caller .controlling).call = .idle) :
    m.stopped = true ↔ ∃ x ∈ h, x.stops = true ∧ x.before.launched = true := by
  have hother := run.idle_of_no_invoke hone
  have hno : ∀ t, (m.caller t).call ≠ .stopAtFlag := by
    intro t
    cases t <;> simp [hidle, hother]
  simpa [hno] using run.stopped_iff

/-! ## The course of a start -/

/-- What the call of a start depends on is still as it was when it began, but for a trial that has
been completed since. -/
structure Machine.Persists (m₀ m : Machine U S) : Prop where
  launched : m.launched = m₀.launched
  stopped : m.stopped = m₀.stopped
  writers : m.writers.length = m₀.writers.length
  trial : m.tally.trial = m₀.tally.trial
  phase : m.tally.phase = m₀.tally.phase ∨
    m₀.tally.phase = .running ∧ m.tally.phase = .complete

/-- What a start may be answered that is called on a machine. -/
inductive Machine.RunAnswer (m : Machine U S) (total : Nat) : Except TrialError Answer → Prop where
  | notLaunched : m.launched = false → RunAnswer m total (.error .notLaunched)
  | noWriters : m.launched = true → m.writers = [] → RunAnswer m total (.error .noWriters)
  | stopped : m.launched = true → m.writers ≠ [] → m.stopped = true →
      RunAnswer m total (.error (.stopped m.tally.trial))
  | inFlight : m.launched = true → m.writers ≠ [] → m.stopped = false →
      m.tally.phase = .running → RunAnswer m total (.error (.inFlight m.tally.trial))
  | resetRequired : m.launched = true → m.writers ≠ [] → m.stopped = false →
      m.tally.phase ≠ .ready → RunAnswer m total (.error (.resetRequired m.tally.trial))
  | started : m.launched = true → m.writers ≠ [] → m.stopped = false → m.tally.phase = .ready →
      RunAnswer m total (.ok (.quota (quotaPerWriter total m.writers.length)))

/-- How far the call of a start is that began on a machine. -/
inductive RunCourse (m₀ : Machine U S) (t : Thread) (total : Nat) (m : Machine U S) : Prop where
  | waiting : m₀.launched = true → m₀.writers ≠ [] → m₀.Persists m →
      (m.caller t).call = .runAtLock total ∨ (m.caller t).call = .runAtFlag total →
      RunCourse m₀ t total m
  | refusing {err : TrialError} : (m.caller t).call = .releasing (.error err) →
      m₀.RunAnswer total (.error err) → RunCourse m₀ t total m
  | handing {quota : Nat} {todo : List (Slot × Access)} :
      (m.caller t).call = .resuming quota todo → m₀.RunAnswer total (.ok (.quota quota)) →
      RunCourse m₀ t total m
  | answered {a : Except TrialError Answer} : m.caller t = ⟨.idle, some a⟩ →
      m₀.RunAnswer total a → RunCourse m₀ t total m

/-- Nothing that others do matters to a start, unless they complete the trial. -/
theorem Machine.Persists.others {m₀ : Machine U S} (hp : m₀.Persists m) (hc : m.Coherent)
    (hs : m.step work e = some m') (he : e.isWorkers = true ∨ ∃ nanos, e = .tick nanos) :
    m₀.Persists m' := by
  obtain ⟨hlaunched, hstopped, hwriters, htrial, hph⟩ := hp
  rcases he with he | ⟨nanos, rfl⟩
  · cases Machine.Move.of_step hs with
    | @count s w trial done hw hp =>
      -- the report may be the last one
      have hrunning := hc.running_of_freezing hw hp
      have hph' : m.tally.phase = .running → m₀.tally.phase = .running := by
        intro h
        rcases hph with heq | ⟨hrun, -⟩
        · exact heq ▸ h
        · exact hrun
      refine ⟨by simpa, by simpa, by simpa, by simpa, ?_⟩
      simp only [Machine.tally_onSlot]
      rcases m.tally.phase_count_or m.clock s done with heq | hcomplete
      · rw [heq]
        exact hph
      · exact .inr ⟨hph' hrunning, hcomplete⟩
    | own | accept | refuse | freeze | release | finish | panic =>
      exact ⟨by simpa, by simpa, by simpa, by simpa, by simpa using hph⟩
    | ask h => rcases h with rfl | ⟨_, rfl⟩ <;> cases he
    | fail h => rcases h with rfl | ⟨_, _, _, rfl⟩ <;> cases he
    | _ => cases he
  · obtain rfl := Option.some.inj hs
    exact ⟨hlaunched, hstopped, hwriters, htrial, hph⟩

/-- A thread that takes a step of its own without a store leaves everything as it is. -/
theorem Machine.Persists.goOn {m₀ : Machine U S} (hp : m₀.Persists m) (c : Call) :
    m₀.Persists (m.goOn t c) := by
  obtain ⟨hlaunched, hstopped, hwriters, htrial, hph⟩ := hp
  cases t <;> exact ⟨hlaunched, hstopped, hwriters, htrial, hph⟩

theorem RunCourse.others {m₀ : Machine U S} (hr : RunCourse m₀ t total m) (hc : m.Coherent)
    (hs : m.step work e = some m') (he : e.isWorkers = true ∨ ∃ nanos, e = .tick nanos) :
    RunCourse m₀ t total m' := by
  have hcaller : m'.caller t = m.caller t := Machine.caller_of_others hs he
  cases hr with
  | waiting hl hw hp hcall => exact .waiting hl hw (hp.others hc hs he) (by rwa [hcaller])
  | refusing hcall ha => exact .refusing (by rwa [hcaller]) ha
  | handing hcall ha => exact .handing (by rwa [hcaller]) ha
  | answered hcall ha => exact .answered (hcaller.trans hcall) ha

/-- With the lock held the flag and the phase decide. -/
theorem RunCourse.of_startTrial {m₀ : Machine U S} (hl : m₀.launched = true)
    (hw : m₀.writers ≠ []) (hp : m₀.Persists m) :
    RunCourse m₀ t total (m.startTrial t total) := by
  unfold Machine.startTrial
  split
  · next hst =>
    refine .refusing (by rw [Machine.caller_goOn]) ?_
    rw [hp.trial]
    exact .stopped hl hw (hp.stopped ▸ hst)
  · next hst =>
    have hno : m₀.stopped = false := by simpa [hp.stopped] using hst
    -- a trial may have been completed since the call began, but none was begun or reset
    cases hph : m.tally.phase with
    | running =>
      refine .refusing (by rw [Machine.caller_goOn]) ?_
      rw [hp.trial]
      refine .inFlight hl hw hno ?_
      rcases hp.phase with heq | ⟨hrunning, -⟩
      · rw [← heq, hph]
      · exact hrunning
    | complete =>
      refine .refusing (by rw [Machine.caller_goOn]) ?_
      rw [hp.trial]
      refine .resetRequired hl hw hno fun hready => ?_
      rcases hp.phase with heq | ⟨hrunning, -⟩
      · simp [← heq, hph] at hready
      · simp [hrunning] at hready
    | ready =>
      refine .handing (by rw [Machine.caller_goOn]) ?_
      rw [hp.writers]
      refine .started hl hw hno ?_
      rcases hp.phase with heq | ⟨-, hcomplete⟩
      · rw [← heq, hph]
      · simp [hph] at hcomplete

theorem RunCourse.own {m₀ : Machine U S} (hr : RunCourse m₀ t total m)
    (hs : m.step work (.call t) = some m') : RunCourse m₀ t total m' := by
  cases hr with
  | waiting hl hw hp hcall =>
    rcases hcall with hcall | hcall
    · -- it gets the lock
      simp only [Machine.step, Machine.stepCall, hcall] at hs
      obtain ⟨-, rfl⟩ := Machine.takeLock_eq_some hs
      refine .waiting hl hw ?_ (.inr (by rw [Machine.caller_goOn]))
      exact Machine.Persists.goOn (m := { m with lock := some (.caller t) })
        ⟨hp.launched, hp.stopped, hp.writers, hp.trial, hp.phase⟩ _
    · simp only [Machine.step, Machine.stepCall, hcall, Option.some.injEq] at hs
      subst hs
      exact .of_startTrial hl hw hp
  | refusing hcall ha =>
    simp only [Machine.step, Machine.stepCall, hcall, Option.some.injEq] at hs
    subst hs
    exact .answered (Machine.caller_unlock ..) ha
  | @handing quota todo hcall ha =>
    cases todo with
    | nil =>
      simp only [Machine.step, Machine.stepCall, hcall, Option.some.injEq] at hs
      subst hs
      exact .answered (Machine.caller_unlock ..) ha
    | cons x rest =>
      simp only [Machine.step, Machine.stepCall, hcall, Option.some.injEq] at hs
      subst hs
      exact .handing (by rw [Machine.caller_goOn]) ha
  | answered hcall => simp [Machine.step, Machine.stepCall, hcall] at hs

/-- How far a start is, at every moment of its call. -/
theorem Run.runCourse (run : Run work (.empty freeze shared) h m)
    (hcalls : m.Calls work t (.run total) g m') : RunCourse m t total m' := by
  induction hcalls with
  | begin hs =>
    -- Whether there is a launch and a writer is decided when the start is called.
    simp only [Machine.step, Machine.invoke] at hs
    split at hs
    · obtain rfl := Option.some.inj hs
      cases hl : m.launched with
      | false => exact .answered (Machine.caller_reply ..) (.notLaunched hl)
      | true =>
        by_cases hw : m.writers = []
        · simp only [hw, List.isEmpty_nil, Bool.not_true, Bool.false_eq_true, if_false, if_true]
          exact .answered (Machine.caller_reply ..) (.noWriters hl hw)
        · simp only [List.isEmpty_iff, hw, Bool.not_true, Bool.false_eq_true, if_false]
          refine .waiting hl hw ?_ (.inl (by rw [Machine.caller_goOn]))
          exact Machine.Persists.goOn ⟨rfl, rfl, rfl, rfl, .inl rfl⟩ _
    · cases hs
  | next hcalls he hs ih =>
    rcases he with rfl | he
    · exact ih.own hs
    · exact ih.others (run.trans hcalls.run).coherent hs he

/-! ## A start is answered -/

namespace Machine

/-- A thread comes to an answer by steps of its own. -/
def Answers (work : U → S → U × S) (t : Thread) (m : Machine U S) : Prop :=
  ∃ m' a, Advances work t m m' ∧ m'.caller t = ⟨.idle, some a⟩

theorem Answers.step (hs : m.step work (.call t) = some m') (hrest : Answers work t m') :
    Answers work t m := by
  obtain ⟨m₂, a, hadv, hans⟩ := hrest
  exact ⟨m₂, a, .step hs hadv, hans⟩

theorem answers_unlock (m : Machine U S) (t : Thread) (a : Except TrialError Answer) :
    Answers work t (m.unlock t a) :=
  ⟨_, _, .refl _, caller_unlock ..⟩

theorem answers_releasing (m : Machine U S) (t : Thread) (a : Except TrialError Answer) :
    Answers work t (m.goOn t (.releasing a)) := by
  have hs : (m.goOn t (.releasing a)).step work (.call t) =
      some ((m.goOn t (.releasing a)).unlock t a) := by
    simp [step, stepCall, caller_goOn]
  exact .step hs (answers_unlock ..)

/-- A start that has begun its trial hands out all quota and is answered. -/
theorem answers_resuming {quota : Nat} {todo : List (Slot × Access)}
    (hcall : (m.caller t).call = .resuming quota todo) : Answers work t m := by
  -- by induction on the accesses that are left
  induction todo generalizing m with
  | nil =>
    have hs : m.step work (.call t) = some (m.unlock t (.ok (.quota quota))) := by
      simp [step, stepCall, hcall]
    exact .step hs (answers_unlock ..)
  | cons x todo ih =>
    have hs : m.step work (.call t) = some ((m.store x.1 x.2).goOn t (.resuming quota todo)) := by
      simp [step, stepCall, hcall]
    exact .step hs (ih (by rw [caller_goOn]))

theorem answers_startTrial (m : Machine U S) (t : Thread) (total : Nat) :
    Answers work t (m.startTrial t total) := by
  unfold startTrial
  split
  · exact answers_releasing ..
  · cases m.tally.phase with
    | running => exact answers_releasing ..
    | complete => exact answers_releasing ..
    | ready => exact answers_resuming (by rw [caller_goOn])

/-- A start that finds the lock free is answered. -/
theorem answers_runAtLock (hcall : (m.caller t).call = .runAtLock total) (hfree : m.lock = none) :
    Answers work t m := by
  have hlock : m.step work (.call t) =
      some ({ m with lock := some (.caller t) }.goOn t (.runAtFlag total)) := by
    simp [step, stepCall, hcall, takeLock, hfree]
  refine .step hlock ?_
  generalize hm' : { m with lock := some (.caller t) }.goOn t (.runAtFlag total) = m'
  have hcall' : (m'.caller t).call = .runAtFlag total := by
    rw [← hm', caller_goOn]
  have hflag : m'.step work (.call t) = some (m'.startTrial t total) := by
    simp [step, stepCall, hcall']
  exact .step hflag (m'.answers_startTrial t total)

end Machine

/-- A thread does not move while workers do. -/
theorem Machine.caller_of_steps {s : Slot} {n : Nat}
    (hs : m.steps work (List.replicate n (.worker s)) = some m') : m'.caller t = m.caller t := by
  induction n generalizing m with
  | zero =>
    obtain rfl := Option.some.inj hs
    rfl
  | succ n ih =>
    rw [List.replicate_succ] at hs
    cases hs₁ : m.step work (.worker s) with
    | none => simp [Machine.steps, hs₁] at hs
    | some m₁ =>
      rw [Machine.steps_cons hs₁] at hs
      rw [ih hs, Machine.caller_of_others hs₁ (.inl rfl)]

/-- If nobody else is in a call a start is answered, once a worker that has the lock has given it
back. -/
theorem Run.start_answered (run : Run work (.empty freeze shared) h m)
    (hidle : ∀ t, (m.caller t).call = .idle) (t : Thread) (total : Nat) :
    ∃ g m' a, m.Calls work t (.run total) g m' ∧ m'.caller t = ⟨.idle, some a⟩ := by
  obtain ⟨m₁, hs⟩ : ∃ m₁, m.step work (.invoke t (.run total)) = some m₁ := by
    simp [Machine.step, Machine.invoke, hidle t]
  have hbegin : m.Calls work t (.run total) _ m₁ := .begin hs
  have hfirst : (∃ a, m₁.caller t = ⟨.idle, some a⟩) ∨ m₁ = m.goOn t (.runAtLock total) := by
    simp only [Machine.step, Machine.invoke, hidle t, Option.some.injEq] at hs
    subst hs
    split
    · exact .inl ⟨_, Machine.caller_reply ..⟩
    · split
      · exact .inl ⟨_, Machine.caller_reply ..⟩
      · exact .inr rfl
  rcases hfirst with ⟨a, hans⟩ | rfl
  · exact ⟨_, _, a, hbegin, hans⟩
  have hcall : ((m.goOn t (.runAtLock total)).caller t).call = .runAtLock total := by
    rw [Machine.caller_goOn]
  cases hl : (m.goOn t (.runAtLock total)).lock with
  | none =>
    obtain ⟨m', a, hadv, hans⟩ := Machine.answers_runAtLock hcall hl
    obtain ⟨g, hcalls⟩ := hbegin.advances hadv
    exact ⟨g, m', a, hcalls, hans⟩
  | some holder =>
    cases holder with
    | caller t' =>
      -- nobody else is in a call
      have hholds := (run.coherent.lock_caller t').mp (by simpa [Machine.goOn] using hl)
      rw [hidle t'] at hholds
      cases hholds
    | worker s =>
      -- the worker delivers its report first
      obtain ⟨n, m₂, hsteps, hfree, -⟩ := (run.next hs).worker_unlocks hl
      have hcalls₂ := hbegin.of_steps
        (fun e he => .inr (.inl (List.eq_of_mem_replicate he ▸ rfl))) hsteps
      have hcall₂ : (m₂.caller t).call = .runAtLock total := by
        rw [Machine.caller_of_steps hsteps, hcall]
      obtain ⟨m', a, hadv, hans⟩ := Machine.answers_runAtLock hcall₂ hfree
      obtain ⟨g, hcalls⟩ := hcalls₂.advances hadv
      exact ⟨g, m', a, hcalls, hans⟩

/-! ## What a start is answered -/

/-- What a start is answered that the only caller of a coordinator calls, and that it is.  Once a
stop has been called after the launch it is refused for that; a stop that was called before the
launch makes no difference. -/
theorem stop_is_remembered_once_launched (run : Run work (.empty freeze shared) h m)
    (hone : ∀ x ∈ h, x.asks? .other = none)
    (hidle : (m.caller .controlling).call = .idle) (total : Nat) :
    (∃ g m' a, m.Calls work .controlling (.run total) g m' ∧
      m'.caller .controlling = ⟨.idle, some a⟩) ∧
    ∀ g m' a, m.Calls work .controlling (.run total) g m' →
      m'.caller .controlling = ⟨.idle, some a⟩ →
      (m.launched = false → a = .error .notLaunched) ∧
      (m.launched = true → m.writers = [] → a = .error .noWriters) ∧
      (m.launched = true → m.writers ≠ [] →
        ((∃ x ∈ h, x.stops = true ∧ x.before.launched = true) →
          a = .error (.stopped m.tally.trial)) ∧
        ((∀ x ∈ h, x.stops = true → x.before.launched = false) →
          (m.tally.phase = .ready →
            a = .ok (.quota (quotaPerWriter total m.writers.length))) ∧
          (m.tally.phase ≠ .ready → a = .error (.inFlight m.tally.trial) ∨
            a = .error (.resetRequired m.tally.trial)))) := by
  have hother := run.idle_of_no_invoke hone
  have hflag := run.stopped_iff_of_idle hone hidle
  refine ⟨run.start_answered (fun t => by cases t <;> assumption) _ total,
    fun g m' a hcalls hans => ?_⟩
  have ha : m.RunAnswer total a := by
    cases run.runCourse hcalls with
    | answered hcall ha =>
      rw [hans] at hcall
      cases hcall
      exact ha
    | waiting _ _ _ hcall => simp [hans] at hcall
    | refusing hcall | handing hcall => simp [hans] at hcall
  have hno : m.stopped = false → ¬ ∃ x ∈ h, x.stops = true ∧ x.before.launched = true := by
    intro hst hex
    rw [← hflag, hst] at hex
    cases hex
  have hex : m.stopped = true → ¬ ∀ x ∈ h, x.stops = true → x.before.launched = false := by
    intro hst hall
    obtain ⟨x, hx, hstops, hl⟩ := hflag.mp hst
    rw [hall x hx hstops] at hl
    cases hl
  -- the flag and the phase leave one answer each
  cases ha with
  | notLaunched hl => simp [hl]
  | noWriters hl hw => simp [hl, hw]
  | stopped hl hw hst => simp [hl, hw, hex hst]
  | inFlight hl hw hst hph => simp [hl, hw, hno hst, hph]
  | resetRequired hl hw hst hph => simp [hl, hw, hno hst, hph]
  | started hl hw hst hph => simp [hl, hw, hno hst, hph]

/-- A single writer is registered, stopped and launched. -/
def earlyStop : List (Machine.Event Unit) := List.flatten [
  [.register .writer .writer (), .invoke .controlling .stop],
  .replicate 3 (.call .controlling),
  [.launch]]

/-- A single writer is registered, launched and stopped. -/
def lateStop : List (Machine.Event Unit) := List.flatten [
  [.register .writer .writer (), .launch, .invoke .controlling .stop],
  .replicate 4 (.call .controlling)]

/-- After `lateStop` a start is refused. -/
theorem stop_is_remembered_once_launched_lateStop :
    let h := (Machine.empty .readersOnly ()).historyFrom idleWork [] lateStop
    ∃ m g m', Run idleWork (.empty .readersOnly ()) h m ∧
      m.Calls idleWork .controlling (.run 1) g m' ∧
      m'.caller .controlling = ⟨.idle, some (.error (.stopped 0))⟩ := by
  intro h
  have hend : ((Machine.empty .readersOnly ()).steps idleWork lateStop).map
      (fun m => (m.controlling, m.launched, m.writers.length, m.tally.trial)) =
        some (⟨.idle, some (.ok .done)⟩, true, 1, 0) := rfl
  obtain ⟨m, run, heq⟩ := Run.exists_of_map hend
  simp only [Prod.mk.injEq] at heq
  obtain ⟨hcaller, hlaunched, hlength, htrial⟩ := heq
  have hidle : (m.caller .controlling).call = .idle := congrArg Caller.call hcaller
  have hwriters : m.writers ≠ [] := List.ne_nil_of_length_pos (by simp [hlength])
  have hstop : ∃ x ∈ h, x.stops = true ∧ x.before.launched = true := by decide
  obtain ⟨⟨g, m', a, hcalls, hans⟩, hall⟩ :=
    stop_is_remembered_once_launched run (by decide) hidle 1
  obtain ⟨-, -, hboth⟩ := hall g m' a hcalls hans
  rw [(hboth hlaunched hwriters).1 hstop, htrial] at hans
  exact ⟨m, g, m', run, hcalls, hans⟩

/-- After `earlyStop` a start succeeds: the stop has been forgotten. -/
theorem stop_before_launch_is_forgotten :
    let h := (Machine.empty .readersOnly ()).historyFrom idleWork [] earlyStop
    ∃ m g m', Run idleWork (.empty .readersOnly ()) h m ∧ (∀ x ∈ h, x.asks? .other = none) ∧
      (∃ x ∈ h, x.stops = true) ∧ m.launched = true ∧ m.writers ≠ [] ∧
      m.Calls idleWork .controlling (.run 1) g m' ∧
      m'.caller .controlling = ⟨.idle, some (.ok (.quota 1))⟩ := by
  intro h
  -- the lock, the flag, two accesses to the writer, and the lock again
  let es : List (Machine.Event Unit) := List.replicate 5 (.call .controlling)
  have hes : ∀ e ∈ es, e.During .controlling := fun e he => .inl (List.eq_of_mem_replicate he)
  exact ⟨_, _, _, .of_steps .start rfl, by decide, by decide, rfl, List.cons_ne_nil _ _,
    Machine.Calls.of_steps (.begin rfl) hes rfl, rfl⟩

end SpeedTrial.Trial
