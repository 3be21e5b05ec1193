import SpeedTrial.Proofs.Trial.Balance
import SpeedTrial.Proofs.Trial.Totals

/-!
# The course of trials

Trials are started, run and reset in turn.  `Course` says what one event does to that: it starts a
trial, tells a thread that it has, ends a reset, or leaves all as it is.

* `Run.course`: every event of a run is one of these.
* `Run.trial_eq`: the number of the trial is the number of trials that were run.
* `Run.reset_between`: between two trials there is a reset that finds the first one complete.
* `tally_between_reports`: what a tally that nobody is changing says, and how its time is taken.
-/

namespace SpeedTrial.Trial

variable {U S : Type} {work : U → S → U × S} {freeze : FreezeScope} {shared : S}
  {h h' : History U S} {m m' : Machine U S} {e : Machine.Event U} {x : Moment U S}

/-! ## What a history tells of trials -/

/-- A thread is told the quota of the trial that it has started. -/
def Moment.ranTrial (x : Moment U S) : Bool :=
  match x.event with
  | .call t =>
    match (x.after.caller t).answer with
    | some (.ok (.quota _)) => true
    | _ => false
  | _ => false

/-- A trial was run since the last reset. -/
def RanSinceReset : History U S → Prop
  | [] => False
  | x :: h => x.ranTrial = true ∨ ¬ x.Resets ∧ RanSinceReset h

/-- The report of the last writer is counted, which takes the time of the trial. -/
def Moment.takesTime (x : Moment U S) : Bool :=
  match x.event with
  | .worker s =>
    match (x.before.worker? s).map Worker.point with
    | some (.freezing _ _ []) =>
      s.role = .writer && x.after.tally.doneWriters = x.after.writers.length
    | _ => false
  | _ => false

/-! ## Who is told a quota -/

/-- A caller that is told a quota has just handed it out, or was about to be told. -/
theorem quota_of_stepCall {t : Thread} {quota : Nat} (hs : m.stepCall t = some m')
    (ha : (m'.caller t).answer = some (.ok (.quota quota))) :
    (m.caller t).call = .resuming quota [] ∨
      (m.caller t).call = .releasing (.ok (.quota quota)) := by
  unfold Machine.stepCall at hs
  cases hcall : (m.caller t).call with
  | resuming q todo =>
    cases todo with
    | nil =>
      simp only [hcall, Option.some.injEq] at hs
      subst hs
      simpa [Machine.unlock, Machine.reply] using ha
    | cons x todo =>
      simp only [hcall, Option.some.injEq] at hs
      subst hs
      simp [Machine.goOn] at ha
  | releasing a =>
    simp only [hcall, Option.some.injEq] at hs
    subst hs
    simpa [Machine.unlock, Machine.reply] using ha
  | _ =>
    -- every other answer is an error or says that all is done
    simp only [hcall] at hs
    grind [Machine.takeLock, Machine.startTrial, Machine.startReset, Machine.lookAtPhase,
      Machine.goOn, Machine.reply, Machine.unlock, Machine.caller_setCaller]

/-- Whoever lets go of the lock with its answer known has failed. -/
theorem Run.releasing_error (run : Run work (.empty freeze shared) h m) {t : Thread}
    {a : Except TrialError Answer} (hcall : (m.caller t).call = .releasing a) :
    ∃ err, a = .error err := by
  induction run generalizing a with
  | start => cases t <;> cases hcall
  | next run hs ih =>
    cases Machine.Move.of_step hs with
    | @ask t' _ c _ _ hh =>
      by_cases ht : t = t'
      · -- a caller without the lock does not let go of it
        rw [Machine.caller_setCaller, if_pos ht] at hcall
        rw [hcall] at hh
        cases hh
      · exact ih (by simpa [ht] using hcall)
    | @runRefused t' total err hcall' | @resetRefused t' hcall' | @busy t' kept s w todo hcall' =>
      by_cases ht : t = t'
      · simp only [Machine.caller_setCaller, if_pos ht, Call.releasing.injEq] at hcall
        exact ⟨_, hcall.symm⟩
      · exact ih (by simpa [ht] using hcall)
    | fail => exact ih hcall
    | lockRun | begin | hand | endRun | startReset | clear | skip | endReset | unlock | flag
    | halt =>
      simp only [Machine.caller_setCaller] at hcall
      split at hcall
      · cases hcall
      · exact ih (by simpa using hcall)
    | _ => exact ih (by simpa using hcall)

/-- A trial was run exactly if a thread that has handed out all quota lets go of the lock. -/
theorem Run.ranTrial_iff (run : Run work (.empty freeze shared) h m)
    (hs : m.step work e = some m') :
    Moment.ranTrial ⟨m, e, m'⟩ = true ↔
      ∃ t quota, e = .call t ∧ (m.caller t).call = .resuming quota [] := by
  constructor
  · intro hx
    unfold Moment.ranTrial at hx
    split at hx
    · next t he =>
      split at hx
      · next quota ha =>
        obtain rfl : e = .call t := he
        -- an answer with a quota could also have been set aside, but only errors are
        rcases quota_of_stepCall hs ha with hcall | hcall
        · exact ⟨t, quota, rfl, hcall⟩
        · obtain ⟨err, herr⟩ := run.releasing_error hcall
          cases herr
      · cases hx
    · cases hx
  · rintro ⟨t, quota, rfl, hcall⟩
    simp only [Machine.step, Machine.stepCall, hcall, Option.some.injEq] at hs
    simp [Moment.ranTrial, ← hs, Machine.unlock, Machine.reply]

/-! ## The course of trials -/

/-- The operation is handing out quota. -/
def Call.starts : Call → Nat
  | .resuming _ _ => 1
  | _ => 0

/-- The threads that are handing out quota; there is one at most. -/
def Machine.starting (m : Machine U S) : Nat := m.controlling.call.starts + m.other.call.starts

theorem Call.starts_of_not_holds {c : Call} (h : c.holds = false) : c.starts = 0 := by
  cases c <;> first | rfl | cases h

namespace Machine

@[simp] theorem starting_onSlot (m : Machine U S) (s : Slot) (f : Worker U → Worker U) :
    (m.onSlot s f).starting = m.starting := by
  unfold onSlot; split <;> rfl

@[simp] theorem starting_enrol (m : Machine U S) (r : Role) (unit : U) :
    (m.enrol r unit).starting = m.starting := by
  cases r <;> rfl

@[simp] theorem starting_mk (m : Machine U S) (fr : FreezeScope) (la st : Bool)
    (lk : Option Holder) (ta : Tally) (ws rs : List (Worker U)) (cl : Nat) (sh : S) :
    (Machine.mk fr la st lk ta ws rs m.controlling m.other cl sh).starting = m.starting := rfl

theorem starting_setCaller (m : Machine U S) (t : Thread) (c : Caller) :
    (m.setCaller t c).starting + (m.caller t).call.starts = m.starting + c.call.starts := by
  cases t <;> simp only [starting, setCaller, caller] <;> omega

theorem starting_setCaller_of_eq {m : Machine U S} {t : Thread} {c : Caller}
    (h : (m.caller t).call.starts = c.call.starts) : (m.setCaller t c).starting = m.starting := by
  have hsum := m.starting_setCaller t c
  omega

/-- Whoever hands out quota holds the lock. -/
theorem exists_holds_of_starting {m : Machine U S} (hst : m.starting ≠ 0) :
    ∃ t, (m.caller t).call.holds = true := by
  by_contra hnone
  push Not at hnone
  have hzero : ∀ t, (m.caller t).call.starts = 0 :=
    fun t => Call.starts_of_not_holds (by simpa using hnone t)
  have hcontrolling := hzero .controlling
  have hother := hzero .other
  simp only [caller] at hcontrolling hother
  rw [starting, hcontrolling, hother] at hst
  exact hst rfl

theorem Coherent.starting_of_free (hc : m.Coherent) (hl : m.lock = none) : m.starting = 0 := by
  by_contra hst
  obtain ⟨t, ht⟩ := exists_holds_of_starting hst
  rw [(hc.lock_caller t).mpr ht] at hl
  cases hl

/-- Nobody but the holder of the lock hands out quota. -/
theorem Coherent.starting_of_holds (hc : m.Coherent) {t : Thread}
    (hcall : (m.caller t).call.holds = true) : m.starting = (m.caller t).call.starts := by
  have hnone : ∀ t', t' ≠ t → (m.caller t').call.starts = 0 := by
    intro t' ht
    apply Call.starts_of_not_holds
    rw [← Bool.not_eq_true, ← hc.lock_caller t', (hc.lock_caller t).mpr hcall]
    simpa using Ne.symm ht
  cases t with
  | controlling =>
    have hother := hnone .other (by simp)
    simp only [caller] at hother ⊢
    rw [starting, hother, Nat.add_zero]
  | other =>
    have hcontrolling := hnone .controlling (by simp)
    simp only [caller] at hcontrolling ⊢
    rw [starting, hcontrolling, Nat.zero_add]

/-- When the holder of the lock goes on, it alone decides whether anybody hands out quota. -/
theorem Coherent.starting_next (hc : m.Coherent) {t : Thread}
    (hcall : (m.caller t).call.holds = true) (hm : ∀ t, m'.caller t = m.caller t) (c : Caller) :
    (m'.setCaller t c).starting = c.call.starts := by
  have hsum := m'.starting_setCaller t c
  have hsame : m'.starting = m.starting := by
    have hcontrolling := hm .controlling
    have hother := hm .other
    simp only [caller] at hcontrolling hother
    rw [starting, starting, hcontrolling, hother]
  rw [hm t, hsame, hc.starting_of_holds hcall] at hsum
  omega

end Machine

/-- What an event does to the course of trials. -/
inductive Course (m : Machine U S) (e : Machine.Event U) (m' : Machine U S) : Prop where
  | keeps : Moment.ranTrial ⟨m, e, m'⟩ = false → ¬ Moment.Resets ⟨m, e, m'⟩ →
      m'.starting = m.starting → m'.tally.trial = m.tally.trial →
      (m'.tally.phase = .ready ↔ m.tally.phase = .ready) → Course m e m'
  | begins : Moment.ranTrial ⟨m, e, m'⟩ = false → ¬ Moment.Resets ⟨m, e, m'⟩ →
      m.starting = 0 → m'.starting = 1 → m'.tally.trial = m.tally.trial + 1 →
      m.tally.phase = .ready → m'.tally.phase = .running → Course m e m'
  | runs : Moment.ranTrial ⟨m, e, m'⟩ = true → ¬ Moment.Resets ⟨m, e, m'⟩ →
      m.starting = 1 → m'.starting = 0 → m'.tally = m.tally → m.tally.phase = .running →
      Course m e m'
  | resets : Moment.ranTrial ⟨m, e, m'⟩ = false → Moment.Resets ⟨m, e, m'⟩ →
      m.starting = 0 → m'.starting = 0 → m'.tally = m.tally.reset → Course m e m'

/-- Only the beginning of a trial gives it a number of its own. -/
theorem Machine.Move.of_trial_succ (hm : Machine.Move work m e m')
    (ht : m'.tally.trial = m.tally.trial + 1) :
    m.stopped = false ∧ m'.tally = m.tally.begun m.clock := by
  cases hm with
  | begin _ hst => exact ⟨hst, by simp⟩
  | launch => simp [Tally.fresh] at ht
  | _ => simp at ht

/-- An event that leaves the course of trials as it is: no thread takes the last step of a start or
of a reset. -/
theorem Run.keeps (run : Run work (.empty freeze shared) h m) (hs : m.step work e = some m')
    (hcall : ∀ t, (e = .call t ∨ ∃ op, e = .invoke t op) →
      (∀ quota, (m.caller t).call ≠ .resuming quota []) ∧
        ∀ kept, (m.caller t).call ≠ .resetting kept [])
    (hstarting : m'.starting = m.starting) (htrial : m'.tally.trial = m.tally.trial)
    (hph : m'.tally.phase = .ready ↔ m.tally.phase = .ready) : Course m e m' := by
  refine .keeps ?_ ?_ hstarting htrial hph
  · rw [← Bool.not_eq_true, run.ranTrial_iff hs]
    rintro ⟨t, quota, he, hr⟩
    exact (hcall t (.inl he)).1 quota hr
  · rintro ⟨t, kept, hr, he, -⟩
    exact (hcall t he).2 kept hr

theorem Run.course (run : Run work (.empty freeze shared) h m) (hs : m.step work e = some m') :
    Course m e m' := by
  have hc := run.coherent
  cases Machine.Move.of_step hs with
  | own | accept | refuse | freeze | release | finish | panic | tick =>
    exact run.keeps hs (by simp) (by simp) (by simp) (by simp)
  | @count s w trial done hw hp =>
    -- a trial that a count completes was running
    have hph := hc.running_of_freezing hw hp
    refine run.keeps hs (by simp) (by simp) (by simp) ?_
    rw [Machine.tally_onSlot]
    rcases m.tally.phase_count_or m.clock s done with h | h <;> simp [h, hph]
  | register => exact run.keeps hs (by simp) (by simp) (by simp) (by simp)
  | launch _ hl =>
    have htally := (hc.unborn hl).1
    exact run.keeps hs (by simp) rfl (by simp [htally, Tally.fresh])
      (by simp [htally, Tally.fresh])
  | fail he =>
    refine run.keeps hs ?_ rfl rfl .rfl
    rcases he with rfl | ⟨_, _, _, rfl⟩ <;> simp
  | @ask t _ c he hh hh' =>
    have hown : ∀ t', (e = .call t' ∨ ∃ op, e = .invoke t' op) → t' = t := by
      rcases he with rfl | ⟨op, rfl⟩ <;> grind
    refine run.keeps hs ?_ ?_ (by simp) (by simp)
    · -- a caller without the lock neither starts a trial nor resets
      intro t' ht
      obtain rfl := hown t' ht
      constructor <;> rintro _ hr <;> simp [hr, Call.holds] at hh
    · apply Machine.starting_setCaller_of_eq
      rw [Call.starts_of_not_holds hh, Call.starts_of_not_holds hh']
  | @begin t total hcall _ hph =>
    have hholds : (m.caller t).call.holds = true := by rw [hcall]; rfl
    have hbefore := hc.starting_of_holds hholds
    rw [hcall] at hbefore
    refine .begins ?_ ?_ hbefore (hc.starting_next hholds (by simp) _) (by simp) hph (by simp)
    · rw [← Bool.not_eq_true, run.ranTrial_iff hs]
      rintro ⟨t', quota, he, hr⟩
      cases he
      simp [hcall] at hr
    · rintro ⟨t', kept, hr, he | ⟨op, he⟩, -⟩
      · cases he
        simp [hcall] at hr
      · cases he
  | @endRun t quota hcall =>
    have hholds : (m.caller t).call.holds = true := by rw [hcall]; rfl
    have hbefore := hc.starting_of_holds hholds
    rw [hcall] at hbefore
    refine .runs ?_ ?_ hbefore (hc.starting_next hholds (by simp) _) (by simp)
      (hc.resuming _ _ _ hcall)
    · rw [run.ranTrial_iff hs]
      exact ⟨t, quota, rfl, hcall⟩
    · rintro ⟨t', kept, hr, he | ⟨op, he⟩, -⟩
      · cases he
        simp [hcall] at hr
      · cases he
  | @endReset t kept hcall =>
    have hholds : (m.caller t).call.holds = true := by rw [hcall]; rfl
    have hbefore := hc.starting_of_holds hholds
    rw [hcall] at hbefore
    refine .resets ?_ ⟨t, kept, hcall, .inl rfl, by simp⟩ hbefore
      (hc.starting_next hholds (by simp) _) (by simp)
    rw [← Bool.not_eq_true, run.ranTrial_iff hs]
    rintro ⟨t', quota, he, hr⟩
    cases he
    simp [hcall] at hr
  | lockRun hcall | runRefused hcall | hand hcall | resetRefused hcall | startReset hcall
  | clear hcall | skip hcall | busy hcall | unlock hcall | flag hcall | halt hcall =>
    -- a caller that goes on, in the middle of a start or of something else
    refine run.keeps hs ?_ ?_ (by simp) (by simp)
    · rintro t' (he | ⟨op, he⟩)
      · cases he
        simp [hcall]
      · cases he
    · exact (Machine.starting_setCaller_of_eq (by simp [hcall, Call.starts])).trans (by simp)

/-! ## Which trials were run -/

/-- The trials that began are those that were run and the one that is just being started. -/
theorem Run.trial_eq (run : Run work (.empty freeze shared) h m) :
    m.tally.trial = h.countP Moment.ranTrial + m.starting := by
  induction run with
  | start => rfl
  | @next h m m' e run hs ih =>
    rw [List.countP_cons]
    cases run.course hs with
    | keeps hran hreset hst htrial hph =>
      simp [hran, hst, htrial, ih]
    | begins hran hreset hst hst' htrial hph hph' =>
      simp [hran, hst', htrial, ih, hst]
    | runs hran hreset hst hst' htally hph =>
      simp [hran, hst', htally, ih, hst]
    | resets hran hreset hst hst' htally =>
      simp [hran, hst', htally, ih, hst]

/-- A trial is running or complete exactly if one was run since the last reset, or is just being
started. -/
theorem Run.phase_ne_ready_iff (run : Run work (.empty freeze shared) h m) :
    m.tally.phase ≠ .ready ↔ RanSinceReset h ∨ m.starting = 1 := by
  induction run with
  | start => simp [Machine.empty, RanSinceReset, Machine.starting, Call.starts]
  | @next h m m' e run hs ih =>
    rw [RanSinceReset]
    cases run.course hs with
    | keeps hran hreset hst htrial hph =>
      simpa [hran, hreset, hst, hph] using ih
    | begins hran hreset hst hst' htrial hph hph' =>
      simp [hph', hst']
    | runs hran hreset hst hst' htally hph =>
      simp [hran, htally, hph]
    | resets hran hreset hst hst' htally =>
      simp [hran, hreset, hst', htally]

/-- What is reset is not running. -/
theorem Run.not_running_of_resets (run : Run work (.empty freeze shared) h m)
    (hx : Moment.Resets ⟨m, e, m'⟩) : m.tally.phase ≠ .running := by
  obtain ⟨t, kept, hcall, -⟩ := hx
  exact run.not_running_of_resetting hcall

/-- From a trial that is running or complete on, there is no other one before a reset that finds it
complete. -/
theorem Run.reset_or_same (run : Run work (.empty freeze shared) h m)
    (hph : m.tally.phase ≠ .ready) (rest : Run work m h' m') :
    (∃ z ∈ h', z.Resets ∧ z.before.tally.phase = .complete) ∨
      m'.tally.phase ≠ .ready ∧ m'.tally.trial = m.tally.trial := by
  -- by induction on what happens after the first trial has begun
  induction rest with
  | start => exact .inr ⟨hph, rfl⟩
  | @next h' m₁ m₂ e rest hs ih =>
    rcases ih with ⟨z, hz, hreset⟩ | ⟨hph₁, htrial₁⟩
    · exact .inl ⟨z, List.mem_cons_of_mem _ hz, hreset⟩
    · have run₁ := run.trans rest
      cases run₁.course hs with
      | keeps hran hreset hst htrial hph₂ =>
        exact .inr ⟨by simpa [hph₂] using hph₁, by rw [htrial, htrial₁]⟩
      | begins hran hreset hst hst' htrial hready => exact absurd hready hph₁
      | runs hran hreset hst hst' htally hph₂ =>
        exact .inr ⟨by simpa [htally] using hph₁, by rw [htally, htrial₁]⟩
      | resets hran hreset =>
        refine .inl ⟨_, List.mem_cons_self .., hreset, ?_⟩
        cases hph₂ : m₁.tally.phase with
        | ready => exact absurd hph₂ hph₁
        | running => exact absurd hph₂ (run₁.not_running_of_resets hreset)
        | complete => rfl

/-- Between two trials that were run there is a reset which finds the first one complete. -/
theorem Run.reset_between {h₁ h₂ h₃ : History U S} {x y : Moment U S}
    (run : Run work (.empty freeze shared) (h₁ ++ x :: (h₂ ++ y :: h₃)) m)
    (hx : x.ranTrial = true) (hy : y.ranTrial = true) :
    ∃ z ∈ h₂, z.Resets ∧ z.before.tally.phase = .complete := by
  obtain ⟨runx, hsx⟩ := run.of_append
  obtain ⟨m₁, runy, rest⟩ := runx.split
  obtain ⟨run₀, hsy, rfl⟩ := runy.next_inv
  -- after the first of the two its trial is running, and nobody hands out quota
  have hcy := run₀.course hsy
  have hrunning : y.after.tally.phase ≠ .ready := by
    rw [runy.phase_ne_ready_iff, RanSinceReset]
    exact .inl (.inl hy)
  rcases runy.reset_or_same hrunning rest with hz | ⟨-, htrial⟩
  · exact hz
  · -- but before the second one that is started has a number of its own
    have hst : y.after.starting = 0 := by
      cases hcy with
      | runs _ _ _ hst' => exact hst'
      | keeps hran | begins hran | resets hran => cases hy.symm.trans hran
    have hst' : x.before.starting = 1 := by
      cases runx.course hsx with
      | runs _ _ hst => exact hst
      | keeps hran | begins hran | resets hran => cases hx.symm.trans hran
    rw [runx.trial_eq, runy.trial_eq, hst, hst', List.countP_append] at htrial
    omega

/-! ## When the time is taken -/

/-- What is behind a moment that takes the time of a trial. -/
theorem Moment.cause_of_takesTime (hx : x.takesTime = true) :
    ∃ s w trial done, x.event = .worker s ∧ x.before.worker? s = some w ∧
      w.point = .freezing trial done [] ∧ s.role = .writer ∧
      x.after.tally.doneWriters = x.after.writers.length := by
  unfold Moment.takesTime at hx
  split at hx
  · next s he =>
    split at hx
    · next trial done hp =>
      obtain ⟨w, hw, hpt⟩ := Option.map_eq_some_iff.mp hp
      simp only [Bool.and_eq_true, decide_eq_true_eq] at hx
      exact ⟨s, w, trial, done, he, hw, hpt, hx⟩
    · cases hx
  · cases hx

/-- The count of the last writer comes when no time is taken yet, and takes it. -/
theorem Run.time_taken (run : Run work (.empty freeze shared) h m) (hs : m.step work e = some m')
    (hx : Moment.takesTime ⟨m, e, m'⟩ = true) :
    m.tally.elapsed = none ∧
      ∃ start, m.tally.start = some start ∧ m'.tally.elapsed = some (m.clock - start) := by
  obtain ⟨s, w, trial, done, rfl, hw, hp, hr, hlast⟩ := Moment.cause_of_takesTime hx
  have hc := run.coherent
  have hb := run.balanced
  have hph : m.tally.phase = .running := hc.running_of_freezing hw hp
  have hne : m.tally.phase ≠ .ready := by simp [hph]
  constructor
  · -- the writer itself is not counted yet
    have hlt := hc.doneOf_lt hw hp
    rw [hr] at hlt
    cases hel : m.tally.elapsed with
    | none => rfl
    | some d =>
      obtain ⟨-, hall⟩ := hb.timed.mp (by simp [hel])
      omega
  · obtain ⟨start, hstart⟩ := Option.isSome_iff_exists.mp (hb.started hne)
    refine ⟨start, hstart, ?_⟩
    have hlen := hc.length_flags (hc.staffed hne).1 .writer
    simp only [Machine.step, Machine.stepWorker, hw, hp, Option.some.injEq] at hs
    subst hs
    rw [Machine.moveTo_eq] at hlast ⊢
    simp only [Machine.tally_onSlot, Machine.length_writers_onSlot] at hlast ⊢
    rw [Tally.elapsed_count, if_pos ⟨hr, hlast.trans hlen.symm⟩, hstart]
    rfl

/-- Every other event leaves the time as it is, unless it ends a reset. -/
theorem Run.time_kept (run : Run work (.empty freeze shared) h m) (hs : m.step work e = some m')
    (hx : Moment.takesTime ⟨m, e, m'⟩ = false) (hr : ¬ Moment.Resets ⟨m, e, m'⟩) :
    m'.tally.elapsed = m.tally.elapsed := by
  have hc := run.coherent
  cases Machine.Move.of_step hs with
  | @count s w trial done hw hp =>
    have hph := hc.running_of_freezing hw hp
    have hlen := hc.length_flags (hc.staffed (by simp [hph])).1 .writer
    rw [Machine.tally_onSlot, Tally.elapsed_count, if_neg]
    rintro ⟨hrole, hlast⟩
    simp only [Moment.takesTime, hw, Option.map_some, hp] at hx
    simp [hrole] at hx
    exact hx (hlast.trans hlen)
  | begin _ _ hph =>
    -- no time is taken between trials
    cases hel : m.tally.elapsed with
    | none => simp
    | some d => exact absurd hph (run.balanced.timed.mp (by simp [hel])).1
  | endReset hcall => exact absurd ⟨_, _, hcall, .inl rfl, by simp⟩ hr
  | launch _ hl => simp [(hc.unborn hl).1, Tally.fresh]
  | fail => rfl
  | _ => simp

/-- In each trial the time is taken once, or not yet. -/
theorem Run.countP_takesTime (run : Run work (.empty freeze shared) h m)
    (hph : m.tally.phase ≠ .ready) :
    (current h).countP Moment.takesTime = if m.tally.elapsed.isSome then 1 else 0 := by
  induction run with
  | start => exact absurd rfl hph
  | @next h m m' e run hs ih =>
    -- the count starts again with a trial, and in a trial the time is taken only while there is none
    cases hb : Moment.begins? ⟨m, e, m'⟩ with
    | some b =>
      obtain ⟨-, -, -, rfl, -⟩ := tally_of_begins? hs hb
      rw [current_cons_of_some h hb]
      simp
    | none =>
      have hne : m.tally.phase ≠ .ready :=
        fun hready => hph (phase_of_ready run.coherent hs hb hready)
      rw [current_cons_of_none h hb, List.countP_cons, ih hne]
      cases hx : Moment.takesTime ⟨m, e, m'⟩ with
      | true =>
        obtain ⟨hnone, start, -, hsome⟩ := run.time_taken hs hx
        simp [hnone, hsome]
      | false =>
        have hr : ¬ Moment.Resets ⟨m, e, m'⟩ := fun hr => hph (phase_of_resets hs hr)
        simp [run.time_kept hs hx hr]

/-- A time that is taken stays until the next reset. -/
theorem Run.elapsed_eq (run : Run work (.empty freeze shared) h m) {d : Nat}
    (hd : m.tally.elapsed = some d) (rest : Run work m h' m') (hr : ∀ x ∈ h', ¬ x.Resets) :
    m'.tally.elapsed = some d := by
  induction rest with
  | start => exact hd
  | @next h' m₁ m₂ e rest hs ih =>
    have hd₁ := ih fun x hx => hr x (List.mem_cons_of_mem _ hx)
    have run₁ := run.trans rest
    cases hx : Moment.takesTime ⟨m₁, e, m₂⟩ with
    | true =>
      -- it is not taken again
      rw [(run₁.time_taken hs hx).1] at hd₁
      cases hd₁
    | false => rw [run₁.time_kept hs hx (hr _ (List.mem_cons_self ..)), hd₁]

/-! ## Writers before readers -/

/-- Without a stop, and unless a reader has performed all the units that it is given, no reader is
counted before a writer is. -/
theorem Run.writer_counted (run : Run work (.empty freeze shared) h m) (hl : m.lock = none)
    (hstop : ∀ x ∈ h, x.stops = false)
    (hunits : ∀ i < m.readers.length, returned ⟨.reader, i⟩ h < Machine.unbounded)
    (hd : 0 < m.tally.doneReaders) : 0 < m.tally.doneWriters := by
  have hc := run.coherent
  have hcount := fun r => (run.doneOf_eq hl r).symm
  have hne : m.tally.phase ≠ .ready := by
    intro hready
    have hzero : m.tally.doneReaders = 0 := run.balanced.ready hready .reader
    omega
  have hledger := run.ledger hne
  -- some reader has reported
  have hlen : 0 < (acceptances .reader h).length := by
    rw [hledger.length_accepted, hcount]
    exact hd
  obtain ⟨s, hs⟩ := List.exists_mem_of_length_pos hlen
  obtain ⟨hr, w, hw⟩ := hledger.accepted_worker .reader s hs
  have hrep : m.tally.hasReported s = true := (hledger.marked s w hw).mpr (by rw [hr]; exact hs)
  have hnf : ∀ trial done todo, (m.view s w).point ≠ .freezing trial done todo := by
    intro trial done todo hp
    have hlock := hc.lock_of_freezing hw hp
    rw [hl] at hlock
    cases hlock
  obtain ⟨n, -, hsettles⟩ := (run.accounted s w hw).settled hne hrep hnf
  -- it has units left, so that it was frozen, which only a writer that has reported does
  obtain ⟨b, hb, -⟩ := hledger.latest
  have hquota : (account s h).quota = Machine.unbounded := by rw [account_quota s hb, hr]; rfl
  have hlt : n < (account s h).quota := by
    obtain ⟨rs, i⟩ := s
    obtain rfl : rs = .reader := hr
    have hi := (Machine.mem_slots_iff m _).mp (Machine.mem_slots_of_worker? hw)
    rw [hsettles.units, account_units, hquota]
    exact hunits i hi
  have hfrozen : .frozen ∈ (account s h).episode := by
    by_contra hf
    exact Nat.ne_of_lt hlt ((hsettles.eq_quota_iff hf).mpr (run.not_cut hstop s))
  obtain ⟨-, f, hfirst, -⟩ := hledger.frozen s hfrozen
  have hmem := List.length_pos_of_mem (List.mem_of_getLast? hfirst)
  rw [hledger.length_accepted, hcount] at hmem
  exact hmem

/-! ## The tally between reports -/

/-- What the tally says while nobody has the lock. -/
structure Machine.AtRest (h : History U S) (m : Machine U S) : Prop where
  flags : ∀ r, (m.tally.flags r).length = (m.workers r).length
  /-- As many workers of each role are counted as have reported. -/
  counted : ∀ r, m.tally.doneOf r = (m.tally.flags r).count true
  le_roster : ∀ r, m.tally.doneOf r ≤ (m.workers r).length
  complete : m.tally.phase = .complete ↔
    RanSinceReset h ∧ ∀ r, ∀ f ∈ m.tally.flags r, f = true
  timed : m.tally.elapsed.isSome = true ↔ m.tally.doneWriters = m.writers.length
  /-- The number of the trial grows by one with each trial that is run. -/
  trial : m.tally.trial = h.countP Moment.ranTrial
  /-- Readers go on until a writer has reported. -/
  writer_first : (∀ x ∈ h, x.stops = false) →
    (∀ i < m.readers.length, returned ⟨.reader, i⟩ h < Machine.unbounded) →
    0 < m.tally.doneReaders → 0 < m.tally.doneWriters

/-- The time is taken exactly if all writers are counted. -/
theorem Run.timed_iff (run : Run work (.empty freeze shared) h m) (hl : m.launched = true)
    (hw : m.writers ≠ []) :
    m.tally.elapsed.isSome = true ↔ m.tally.doneWriters = m.writers.length := by
  have hlen : (m.tally.flags .writer).length = m.writers.length :=
    run.coherent.length_flags hl .writer
  rw [run.balanced.timed, hlen]
  refine ⟨fun hall => hall.2, fun hall => ⟨fun hready => ?_, hall⟩⟩
  -- between trials nobody is counted, and there is somebody to count
  have hzero : m.tally.doneWriters = 0 := run.balanced.ready hready .writer
  have hpos := List.length_pos_of_ne_nil hw
  omega

theorem Run.atRest (run : Run work (.empty freeze shared) h m) (hl : m.launched = true)
    (hw : m.writers ≠ []) (hfree : m.lock = none) : m.AtRest h := by
  have hc := run.coherent
  have hst := hc.starting_of_free hfree
  have hflags := hc.length_flags hl
  have hcount := run.doneOf_eq hfree
  refine ⟨hflags, hcount, fun r => ?_, ?_, run.timed_iff hl hw, ?_, run.writer_counted hfree⟩
  · rw [hcount, ← hflags]
    exact List.count_le_length
  · have hran := run.phase_ne_ready_iff
    simp only [hst, Nat.zero_ne_one, or_false] at hran
    rw [run.balanced.complete, hran]
    refine and_congr_right fun _ => forall_congr' fun r => ?_
    rw [hcount, List.count_eq_length]
    simp [eq_comm (a := true)]
  · rw [run.trial_eq, hst, Nat.add_zero]

/-- The tally of a launched coordinator with a writer: while nobody has the lock it is what the
reports make it; in each trial its time is taken once, by the report of the last writer, and stays
until the next reset; and before the next trial is run the last one is complete and then reset. -/
theorem tally_between_reports (run : Run work (.empty freeze shared) h m)
    (hl : m.launched = true) (hw : m.writers ≠ []) :
    (m.lock = none → m.AtRest h) ∧
      (RanSinceReset h → (current h).countP Moment.takesTime =
        if m.tally.doneWriters = m.writers.length then 1 else 0) ∧
      (∀ x ∈ h,
        (x.takesTime = true → x.before.tally.elapsed = none ∧ ∃ start,
          x.before.tally.start = some start ∧
            x.after.tally.elapsed = some (x.before.clock - start)) ∧
        (x.Resets → x.after.tally.elapsed = none) ∧
        (x.takesTime = false → ¬ x.Resets → x.after.tally.elapsed = x.before.tally.elapsed)) ∧
      (∀ d h' m', m.tally.elapsed = some d → Run work m h' m' → (∀ x ∈ h', ¬ x.Resets) →
        m'.tally.elapsed = some d) ∧
      ∀ h₁ x h₂ y h₃, h = h₁ ++ x :: (h₂ ++ y :: h₃) → x.ranTrial = true → y.ranTrial = true →
        ∃ z ∈ h₂, z.Resets ∧ z.before.tally.phase = .complete := by
  refine ⟨run.atRest hl hw, fun hran => ?_, fun x hx => ?_, fun d h' m' hd rest hr => ?_, ?_⟩
  · -- the time is taken by the report that makes the last writer done
    rw [run.countP_takesTime (run.phase_ne_ready_iff.mpr (.inl hran))]
    simp [run.timed_iff hl hw]
  · obtain ⟨h₀, run₀, hs⟩ := run.of_mem hx
    refine ⟨run₀.time_taken hs, fun hr => ?_, run₀.time_kept hs⟩
    cases run₀.course hs with
    | resets _ _ _ _ htally => rw [htally, Tally.elapsed_reset]
    | keeps _ hno | begins _ hno | runs _ hno => exact absurd hr hno
  · exact run.elapsed_eq hd rest hr
  · rintro h₁ x h₂ y h₃ rfl hx hy
    exact run.reset_between hx hy

/-- A single writer performs a trial, is reset, and performs another one. -/
def twoTrials : List (Machine.Event Unit) := List.flatten [
  soloTrial,
  [.invoke .controlling .reset],
  .replicate 9 (.call .controlling),
  [.invoke .controlling (.run 1)],
  .replicate 5 (.call .controlling),
  .replicate 5 (.worker ⟨.writer, 0⟩),
  [.finish ⟨.writer, 0⟩],
  .replicate 8 (.worker ⟨.writer, 0⟩)]

theorem tally_between_reports_twoTrials :
    let h := (Machine.empty .everyone ()).historyFrom idleWork [] twoTrials
    ∃ m, Run idleWork (.empty .everyone ()) h m ∧ m.launched = true ∧ m.writers ≠ [] ∧
      m.lock = none ∧ m.tally.trial = 2 ∧ h.countP Moment.ranTrial = 2 ∧ RanSinceReset h ∧
      (∀ r, ∀ f ∈ m.tally.flags r, f = true) ∧ (current h).countP Moment.takesTime = 1 := by
  intro h
  have hend : ((Machine.empty .everyone ()).steps idleWork twoTrials).map
      (fun m => (m.launched, m.writers.length, m.lock, m.tally.phase, m.tally.trial,
        m.tally.doneWriters)) = some (true, 1, none, .complete, 2, 1) := rfl
  obtain ⟨m, run, heq⟩ := Run.exists_of_map hend
  simp only [Prod.mk.injEq] at heq
  obtain ⟨hl, hW, hfree, hph, htrial, hdone⟩ := heq
  have hw : m.writers ≠ [] := by
    rw [← List.length_pos_iff, hW]
    exact Nat.one_pos
  obtain ⟨hrest, htime, -⟩ := tally_between_reports run hl hw
  have hrest := hrest hfree
  obtain ⟨hran, hall⟩ := hrest.complete.mp hph
  refine ⟨m, run, hl, hw, hfree, htrial, ?_, hran, hall, ?_⟩
  · rw [← hrest.trial, htrial]
  · rw [htime hran, hdone, hW, if_pos rfl]

end SpeedTrial.Trial
