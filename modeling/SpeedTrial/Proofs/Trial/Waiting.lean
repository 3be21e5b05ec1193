import SpeedTrial.Proofs.Trial.Calls
import SpeedTrial.Proofs.Trial.Casualty
import SpeedTrial.Proofs.Trial.Halting

/-!
# Whom a wait blames

A wait goes round by round: it looks at the phase, at the stop flag of the coordinator, for a thread
that is over, and at the clock, and others act between these looks.

* `Run.last_step`: where a thread stands is where its last step has led.
* `Run.passed`: what a wait has found in the round in which it stands.
* `Run.dead_since`, `Run.ended_since`: why the thread of a worker is over.
* `blamed_worker_panicked_or_was_stopped`: what a wait is answered, and why.
* `stopped_worker_is_blamed`: a wait that finds fault with a worker which a stop has stopped.
-/

namespace SpeedTrial.Trial

variable {U S : Type} {work : U → S → U × S} {freeze : FreezeScope} {shared : S}
  {h g : History U S} {m m' : Machine U S} {e : Machine.Event U} {x : Moment U S} {s : Slot}
  {t : Thread} {trial : Nat} {w : Waiting}

/-! ## The last step of a thread -/

/-- The event is a step of a thread, or the beginning of an operation of it. -/
def Machine.Event.IsBy (e : Machine.Event U) (t : Thread) : Prop :=
  e = .call t ∨ ∃ op, e = .invoke t op

/-- A thread stands where its last step has led it. -/
theorem Run.last_step (run : Run work (.empty freeze shared) h m)
    (hbusy : (m.caller t).call ≠ .idle) :
    ∃ g f g', h = g ++ f :: g' ∧ f.event.IsBy t ∧ f.after.caller t = m.caller t ∧
      ∀ z ∈ g, ¬ z.event.IsBy t := by
  induction run with
  | start => cases t <;> exact absurd rfl hbusy
  | @next h m m' e run hs ih =>
    by_cases he : e.IsBy t
    · exact ⟨[], _, h, rfl, he, rfl, by simp⟩
    · -- others do not move it
      have hcaller : m'.caller t = m.caller t :=
        Machine.caller_of_step hs (fun hc => he (.inl hc)) fun op hi => he (.inr ⟨op, hi⟩)
      rw [hcaller] at hbusy ⊢
      obtain ⟨g, f, g', rfl, hf, hafter, hno⟩ := ih hbusy
      refine ⟨_ :: g, f, g', rfl, hf, hafter, fun z hz => ?_⟩
      rcases List.mem_cons.mp hz with rfl | hz
      · exact he
      · exact hno z hz

/-! ## The rounds of a wait -/

/-- A wait finds a trial running. -/
structure Moment.FindsRunning (x : Moment U S) (t : Thread) (trial : Nat) : Prop where
  event : x.event = .call t
  call : ∃ w, (x.before.caller t).call = .waitAtLock w
  running : x.before.tally.phase = .running
  trial_eq : x.before.tally.trial = trial

/-- A wait finds the stop flag down and goes on with a trial. -/
structure Moment.PassesFlag (x : Moment U S) (t : Thread) (trial : Nat) : Prop where
  event : x.event = .call t
  call : ∃ w, (x.before.caller t).call = .waitAtFlag w trial
  lowered : x.before.stopped = false

/-- In the round of its wait a thread has found the trial running and then the stop flag down, and
since then, which is `g`, it has not moved. -/
def Passed (t : Thread) (trial : Nat) (g h : History U S) : Prop :=
  ∃ f k p h', h = g ++ f :: (k ++ p :: h') ∧ f.PassesFlag t trial ∧ p.FindsRunning t trial ∧
    ∀ z ∈ g ++ k, ¬ z.event.IsBy t

/-- What a step of a wait does to its thread, from where it stands. -/
inductive WaitStep (m : Machine U S) : Call → Caller → Prop where
  | noTrial {w : Waiting} : m.tally.phase = .ready →
      WaitStep m (.waitAtLock w) ⟨.idle, some (.error .noTrialInFlight)⟩
  | complete {w : Waiting} : m.tally.phase = .complete →
      WaitStep m (.waitAtLock w) ⟨.idle, some (.ok .done)⟩
  | running {w : Waiting} : m.tally.phase = .running →
      WaitStep m (.waitAtLock w) ⟨.waitAtFlag w m.tally.trial, none⟩
  | stopped {w : Waiting} {trial : Nat} : m.stopped = true →
      WaitStep m (.waitAtFlag w trial) ⟨.idle, some (.error (.stopped trial))⟩
  | lowered {w : Waiting} {trial : Nat} : m.stopped = false →
      WaitStep m (.waitAtFlag w trial) ⟨.waitAtThreads w trial, none⟩
  | exited {w : Waiting} {trial : Nat} {s : Slot} : m.finishedSlot? = some s →
      WaitStep m (.waitAtThreads w trial) ⟨.idle, some (.error (.workerExited s trial))⟩
  | alive {w : Waiting} {trial : Nat} : m.finishedSlot? = none →
      WaitStep m (.waitAtThreads w trial) ⟨.waitAtClock w trial, none⟩
  | timeout {w : Waiting} {trial limit : Nat} : Machine.Waiting.isOver w m.clock = some limit →
      WaitStep m (.waitAtClock w trial) ⟨.idle, some (.error (.timeout trial ⟨limit⟩))⟩
  | again {w : Waiting} {trial : Nat} : Machine.Waiting.isOver w m.clock = none →
      WaitStep m (.waitAtClock w trial) ⟨.waitAtLock w, none⟩

theorem waitStep_of_stepCall (limit : Option Nat) (hs : m.stepCall t = some m')
    (hserves : (m.caller t).call.Serves m.tally (.wait limit)) :
    WaitStep m (m.caller t).call (m'.caller t) := by
  unfold Machine.stepCall at hs
  generalize (m.caller t).call = c at hs hserves
  -- each look decides by what it finds, and the next one comes only if it found nothing
  cases hserves with
  | waitAtLock =>
    obtain ⟨-, rfl⟩ := Machine.lookAtPhase_eq_some hs
    cases hph : m.tally.phase with
    | ready => exact Machine.caller_reply .. ▸ .noTrial hph
    | complete => exact Machine.caller_reply .. ▸ .complete hph
    | running => exact Machine.caller_goOn .. ▸ .running hph
  | waitAtFlag =>
    cases hs
    cases hst : m.stopped with
    | true => exact Machine.caller_reply .. ▸ .stopped hst
    | false => exact Machine.caller_goOn .. ▸ .lowered hst
  | waitAtThreads =>
    cases hs
    cases hfin : m.finishedSlot? with
    | some s => exact Machine.caller_reply .. ▸ .exited hfin
    | none => exact Machine.caller_goOn .. ▸ .alive hfin
  | @waitAtClock _ w _ =>
    cases hs
    cases hover : Machine.Waiting.isOver w m.clock with
    | some limit => exact Machine.caller_reply .. ▸ .timeout hover
    | none => exact Machine.caller_goOn .. ▸ .again hover
  | releasing href => cases href

theorem WaitStep.to_flag {c : Call} {c' : Caller} (hstep : WaitStep m c c')
    (hc : c'.call = .waitAtFlag w trial) :
    c = .waitAtLock w ∧ m.tally.phase = .running ∧ m.tally.trial = trial := by
  cases hstep with
  | running hph => simp_all
  | _ => simp at hc

theorem WaitStep.to_threads {c : Call} {c' : Caller} (hstep : WaitStep m c c')
    (hc : c'.call = .waitAtThreads w trial) : c = .waitAtFlag w trial ∧ m.stopped = false := by
  cases hstep with
  | lowered hst => simp_all
  | _ => simp at hc

/-- An operation that stands here is in the middle of a round of a wait. -/
def Call.inRound : Call → Bool
  | .waitAtFlag _ _ => true
  | .waitAtThreads _ _ => true
  | .waitAtClock _ _ => true
  | _ => false

/-- No operation begins in the middle of a round. -/
theorem Machine.inRound_of_invoke {op : Operation} (hs : m.invoke t op = some m') :
    (m'.caller t).call.inRound = false := by
  unfold invoke at hs
  split at hs
  · cases hs
    cases hl : m.launched with
    | false => cases op <;> simp [caller_reply, caller_goOn, Call.inRound]
    | true =>
      cases op with
      | run total => cases m.writers <;> simp [caller_reply, caller_goOn, Call.inRound]
      | _ => simp [caller_goOn, Call.inRound]
  · cases hs

/-- What leads into the middle of a round is a step of the wait. -/
theorem Run.waitStep (run : Run work (.empty freeze shared) h m) (hs : m.step work e = some m')
    (he : e.IsBy t) (hround : (m'.caller t).call.inRound = true) :
    e = .call t ∧ WaitStep m (m.caller t).call (m'.caller t) := by
  rcases he with rfl | ⟨op, rfl⟩
  · have hbusy : (m.caller t).call ≠ .idle := by
      intro hidle
      simp [Machine.step, Machine.stepCall, hidle] at hs
    obtain ⟨op, -, hserves⟩ := run.serves t hbusy
    rcases Machine.serves_stepCall hs hserves with ⟨a, ha, -⟩ | ⟨-, hserves'⟩
    · rw [ha] at hround
      cases hround
    · -- only a wait leads there
      obtain ⟨limit, rfl⟩ : ∃ limit, op = .wait limit := by
        generalize (m'.caller t).call = c at hround hserves'
        cases hserves' <;> first | exact ⟨_, rfl⟩ | cases hround
      exact ⟨rfl, waitStep_of_stepCall _ hs hserves⟩
  · rw [Machine.inRound_of_invoke hs] at hround
    cases hround

/-- A wait that is about to look for a thread that is over has found the flag down before, and the
trial running before that. -/
theorem Run.passed (run : Run work (.empty freeze shared) h m)
    (hcall : (m.caller t).call = .waitAtThreads w trial) : ∃ g, Passed t trial g h := by
  obtain ⟨g, f, g', rfl, hf, hafter, hg⟩ := run.last_step (by rw [hcall]; simp)
  obtain ⟨run₁, hs₁⟩ := run.of_append
  rw [← hafter] at hcall
  obtain ⟨he₁, hstep₁⟩ := run₁.waitStep hs₁ hf (by rw [hcall]; rfl)
  obtain ⟨hcall₁, hst⟩ := hstep₁.to_threads hcall
  -- and one step further back
  obtain ⟨k, p, h', rfl, hp, hafter, hk⟩ := run₁.last_step (by rw [hcall₁]; simp)
  obtain ⟨run₂, hs₂⟩ := run₁.of_append
  have hcall₂ := hcall₁
  rw [← hafter] at hcall₂
  obtain ⟨he₂, hstep₂⟩ := run₂.waitStep hs₂ hp (by rw [hcall₂]; rfl)
  obtain ⟨hcall₃, hph, htrial⟩ := hstep₂.to_flag hcall₂
  refine ⟨g, f, k, p, h', rfl, ⟨he₁, ⟨w, hcall₁⟩, hst⟩, ⟨he₂, ⟨w, hcall₃⟩, hph, htrial⟩, ?_⟩
  intro z hz
  exact (List.mem_append.mp hz).elim (hg z) (hk z)

/-! ## Why a thread is over -/

/-- The worker in a slot is stopped. -/
def Machine.IsStopped (m : Machine U S) (s : Slot) : Prop :=
  ∃ w, m.worker? s = some w ∧ w.control.stopped = true

@[simp] theorem Machine.isStopped_setCaller (c : Caller) :
    (m.setCaller t c).IsStopped s ↔ m.IsStopped s := by
  simp [IsStopped]

theorem Machine.isStopped_of_onSlot {s₀ : Slot} {f : Worker U → Worker U}
    (hf : ∀ w, m.worker? s₀ = some w → (f w).control.stopped = w.control.stopped)
    (hst : (m.onSlot s₀ f).IsStopped s) : m.IsStopped s := by
  obtain ⟨w', hw', hst⟩ := hst
  rw [worker?_onSlot] at hw'
  obtain ⟨w, hw, rfl⟩ := Option.map_eq_some_iff.mp hw'
  refine ⟨w, hw, ?_⟩
  by_cases hs : s = s₀
  · subst hs
    simpa [hf w hw] using hst
  · simpa [hs] using hst

/-- A worker never raises its own stop flag. -/
theorem Point.stopped_of_next {c c' : Control} {p p' : Point} (hn : p.next c = some (c', p')) :
    c'.stopped = c.stopped := by
  cases p <;> grind [Point.next, exchange]

/-- Nobody but a stop stops a worker. -/
theorem Run.isStopped_of_step (run : Run work (.empty freeze shared) h m)
    (hs : m.step work e = some m') (hst : m'.IsStopped s) :
    m.IsStopped s ∨ ∃ t todo, (m.caller t).call = .stopping todo := by
  have hc := run.coherent
  cases Machine.Move.of_step hs with
  | @halt t _ _ _ hcall => exact .inr ⟨t, _, hcall⟩
  | @own s₀ w c p hw hn =>
    refine .inl (Machine.isStopped_of_onSlot (fun w' hw' => ?_) hst)
    obtain rfl : w = w' := Option.some.inj (hw.symm.trans hw')
    exact Point.stopped_of_next hn
  | @freeze s₀ s₁ w trial done a todo hw hp =>
    have hst' := Machine.isStopped_of_onSlot (f := Worker.goTo _) (fun _ _ => rfl) hst
    refine .inl (Machine.isStopped_of_onSlot (fun w' _ => ?_) hst')
    rcases hc.frozen_access hw hp with rfl | rfl <;> rfl
  | @hand t quota s₀ a todo hcall =>
    rw [Machine.isStopped_setCaller] at hst
    refine .inl (Machine.isStopped_of_onSlot (fun w hw => ?_) hst)
    -- quota is handed out, or a report asked for
    have hu := hc.underLock_eq hcall rfl
    have hdue : (m.view s₀ w).due = a :: forSlot s₀ todo := by
      simp [Machine.view, hu, Call.handing]
    obtain ⟨-, -, ⟨rfl, -⟩ | ⟨-, -, -, quota, rfl⟩⟩ := (run.orderly s₀ w hw).due.of_cons hdue <;>
      rfl
  | @clear t kept s₀ w a todo hcall hw =>
    rw [Machine.isStopped_setCaller] at hst
    refine .inl (Machine.isStopped_of_onSlot (fun w' hw' => ?_) hst)
    -- a reset leaves the flag as it is
    rcases run.write_of_resetting hcall hw' with h | h | h | h <;>
      rw [Worker.write_control, h]
  | register =>
    obtain ⟨w, hw, hst⟩ := hst
    rcases m.worker?_enrol _ _ hw with hw | ⟨-, rfl⟩
    · exact .inl ⟨w, hw, hst⟩
    · cases hst
  | launch =>
    obtain ⟨w, hw, hst⟩ := hst
    obtain ⟨w₀, hw₀, rfl⟩ := Option.map_eq_some_iff.mp (by simpa using hw)
    exact .inl ⟨w₀, hw₀, hst⟩
  | fail => exact .inl hst
  | accept | refuse | count | release | panic =>
    have hst' := Machine.isStopped_of_onSlot (f := Worker.goTo _) (fun _ _ => rfl) hst
    exact .inl (by simpa [Machine.IsStopped] using hst')
  | finish =>
    have hst' := Machine.isStopped_of_onSlot (fun _ _ => by rfl) hst
    exact .inl (by simpa [Machine.IsStopped] using hst')
  | _ => exact .inl (by simpa [Machine.IsStopped] using hst)

theorem Machine.Move.launched (hm : Machine.Move work m e m') (hl : m.launched = true) :
    m'.launched = true := by
  cases hm <;> simp [hl]

/-- Before the launch nothing was launched. -/
theorem Run.not_launched_of_mem {m₀ : Machine U S} (run : Run work m₀ h m)
    (hl : m.launched = false) (hx : x ∈ h) : x.before.launched = false := by
  induction run with
  | start => cases hx
  | @next h m m' e run hs ih =>
    have hl₀ : m.launched = false := by
      rw [← Bool.not_eq_true] at hl ⊢
      exact fun hl₀ => hl ((Machine.Move.of_step hs).launched hl₀)
    rcases List.mem_cons.mp hx with rfl | hx
    · exact hl₀
    · exact ih hl₀ hx

/-- A stop that goes from worker to worker has raised the flag, or began before the launch. -/
theorem Run.stop_begun (run : Run work (.empty freeze shared) h m) {todo : List (Slot × Access)}
    (hcall : (m.caller t).call = .stopping todo) :
    m.stopped = true ∨ ∃ x ∈ h, x.stops = true ∧ x.before.launched = false := by
  cases hl : m.launched with
  | true =>
    obtain ⟨g, r, g', rfl, hr, -⟩ := run.stopping_since hl hcall
    obtain ⟨m₁, run₁, rest⟩ := run.split
    obtain ⟨-, hs, rfl⟩ := run₁.next_inv
    exact .inl (rest.stopped (stopped_of_raises hs hr).1)
  | false =>
    by_contra hno
    push Not at hno
    have hidle := run.no_stop (fun x hx => ?_) t
    · rw [hcall] at hidle
      cases hidle
    · rw [← Bool.not_eq_true]
      exact fun hx' => hno.2 x hx hx' (run.not_launched_of_mem hl hx)

namespace View

variable {v v' : View} {y : Happening}

/-- A worker leaves its loop only if it is stopped. -/
theorem Step.stopped_of_ended (hs : Step v y v')
    (h : v.point = .ended → v.control.stopped = true) (hend : v'.point = .ended) :
    v'.control.stopped = true := by
  have hwrite : ∀ (a : Access) (c : Control), c.stopped = true → (a.write c).stopped = true := by
    intro a c hc
    cases a <;> simp [Access.write, hc]
  cases hs with
  | own s₀ hn =>
    cases hpt : v.point <;> simp only [hpt, Point.next, reduceCtorEq] at hn <;>
      grind [Point.afterQuota, exchange]
  | hand | clear => exact hwrite _ _ (h hend)
  | raise => rfl
  | launch | returned | panicked | accept | refuse | freeze | count | release => cases hend
  | _ => exact h hend

/-- A thread dies only when its unit panics. -/
theorem Step.dead_or_panicked (hs : Step v y v') (hd : v'.point = .dead) :
    v.point = .dead ∨ y = .panicked := by
  cases hs with
  | own s₀ hn =>
    cases hpt : v.point <;> simp only [hpt, Point.next, reduceCtorEq] at hn <;>
      grind [Point.afterQuota, exchange]
  | panicked => exact .inr rfl
  | launch | returned | accept | refuse | freeze | count | release => cases hd
  | _ => exact .inl hd

end View

/-- What the history tells of a worker that is stopped, or whose thread is over. -/
structure Explained (h : History U S) (m : Machine U S) (s : Slot) (w : Worker U) : Prop where
  stopped : w.control.stopped = true →
    m.stopped = true ∨ ∃ x ∈ h, x.stops = true ∧ x.before.launched = false
  /-- A worker leaves its loop only if it is stopped. -/
  ended : w.point = .ended → w.control.stopped = true
  dead : w.point = .dead → ∃ x ∈ h, x.event = .panic s

theorem Run.explained (run : Run work (.empty freeze shared) h m) :
    ∀ s w, m.worker? s = some w → Explained h m s w := by
  induction run with
  | start => simp
  | @next h m m' e run hs ih =>
    intro s w' hw'
    rcases run.step_view hs hw' with ⟨w, hw, hstep⟩ | ⟨-, -, unit, rfl⟩
    · -- the worker was stopped or had panicked before, or it is so by this step
      obtain ⟨hstopped, hended, hdead⟩ := ih s w hw
      have hkeep : (m.stopped = true ∨ ∃ x ∈ h, x.stops = true ∧ x.before.launched = false) →
          m'.stopped = true ∨ ∃ x ∈ (⟨m, e, m'⟩ : Moment U S) :: h,
            x.stops = true ∧ x.before.launched = false := by
        rintro (hst | ⟨x, hx, hstops⟩)
        · exact .inl ((Machine.Move.of_step hs).stopped hst)
        · exact .inr ⟨x, List.mem_cons_of_mem _ hx, hstops⟩
      refine ⟨fun hst => hkeep ?_, hstep.stopped_of_ended hended, fun hd => ?_⟩
      · rcases run.isStopped_of_step hs ⟨w', hw', hst⟩ with ⟨w₁, hw₁, hst₁⟩ | ⟨t, todo, hcall⟩
        · obtain rfl : w = w₁ := Option.some.inj (hw.symm.trans hw₁)
          exact hstopped hst₁
        · exact run.stop_begun hcall
      · rcases hstep.dead_or_panicked hd with hd | hpanicked
        · obtain ⟨x, hx, he⟩ := hdead hd
          exact ⟨x, List.mem_cons_of_mem _ hx, he⟩
        · exact ⟨_, List.mem_cons_self .., Moment.cause_of hpanicked⟩
    · exact ⟨by simp, by simp, by simp⟩

/-- Whoever is found over is on the roster. -/
theorem Machine.finished_of_finishedSlot? (hs : m.finishedSlot? = some s) :
    ∃ w, m.worker? s = some w ∧ (w.point = .ended ∨ w.point = .dead) := by
  have hfin := List.find?_some hs
  cases hw : m.worker? s with
  | none => simp [hw] at hfin
  | some w =>
    refine ⟨w, rfl, ?_⟩
    cases hp : w.point <;> simp [hw, hp, Point.isFinished] at hfin ⊢

/-- The flag is raised by a stop. -/
theorem Run.raised_since {m₀ : Machine U S} (rest : Run work m₀ h m) (hdown : m₀.stopped = false)
    (hup : m.stopped = true) : ∃ z ∈ h, ∃ t, z.raises t = true := by
  induction rest with
  | start =>
    rw [hdown] at hup
    cases hup
  | @next h m m' e rest hs ih =>
    cases hst : m.stopped with
    | true =>
      obtain ⟨z, hz, hraise⟩ := ih hst
      exact ⟨z, List.mem_cons_of_mem _ hz, hraise⟩
    | false =>
      refine ⟨_, List.mem_cons_self .., ?_⟩
      cases Machine.Move.of_step hs with
      | @flag t hcall => exact ⟨t, by simp [Moment.raises, hcall]⟩
      | _ => simp_all

/-! ## What a wait is answered -/

theorem WaitStep.to_exited {c : Call}
    (hstep : WaitStep m c ⟨.idle, some (.error (.workerExited s trial))⟩) :
    (∃ w, c = .waitAtThreads w trial) ∧ m.finishedSlot? = some s := by
  cases hstep with
  | exited hfin => exact ⟨⟨_, rfl⟩, hfin⟩

/-- After the launch a wait gets its answer by a step of its own. -/
theorem Run.waitStep_of_answers (run : Run work (.empty freeze shared) h m)
    (hs : m.step work e = some m') (hl : m.launched = true) {limit : Option Nat}
    (hask : asked? t (⟨m, e, m'⟩ :: h) = some (.wait limit)) {a : Except TrialError Answer}
    (ha : Moment.Answers ⟨m, e, m'⟩ t a) : WaitStep m (m.caller t).call ⟨.idle, some a⟩ := by
  obtain ⟨rfl | ⟨op, rfl⟩, hcaller⟩ := ha
  · have hbusy : (m.caller t).call ≠ .idle := by
      intro hidle
      simp [Machine.step, Machine.stepCall, hidle] at hs
    obtain ⟨op, hop, hserves⟩ := run.serves t hbusy
    rw [asked?_cons_of_none rfl, hop] at hask
    obtain rfl := Option.some.inj hask
    exact hcaller ▸ waitStep_of_stepCall _ hs hserves
  · -- it does not get one when it begins
    rw [asked?_cons_of_some (show Moment.asks? _ t = some op by simp [Moment.asks?])] at hask
    obtain rfl := Option.some.inj hask
    simp only [Machine.step, Machine.invoke, hl] at hs
    split at hs <;> cases hs
    simp [Machine.caller_goOn] at hcaller

/-- A worker that is stopped when a wait has found the flag down: the stop came before the launch, or
has raised the flag since. -/
theorem Run.stopped_in_between (run : Run work (.empty freeze shared) h m)
    (hpassed : Passed t trial g h) {w : Worker U} (hw : m.worker? s = some w)
    (hst : w.control.stopped = true) :
    (∃ z ∈ g, ∃ t', z.raises t' = true) ∨ ∃ z ∈ h, z.stops = true ∧ z.before.launched = false := by
  rcases (run.explained s w hw).stopped hst with hup | hearly
  · left
    obtain ⟨f, k, p, h', rfl, hf, -, -⟩ := hpassed
    obtain ⟨m₁, run₁, rest⟩ := run.split
    obtain ⟨run₂, hs, rfl⟩ := run₁.next_inv
    -- the look at the flag does not raise it
    have hdown : f.after.stopped = false := by
      rw [← Bool.not_eq_true]
      intro hst'
      obtain ⟨w, hcall⟩ := hf.call
      have hone : Run work f.before [f] f.after := Run.start.next hs
      obtain ⟨z, hz, t', hraise⟩ := hone.raised_since hf.lowered hst'
      obtain rfl := List.mem_singleton.mp hz
      simp [Moment.raises, hf.event, hcall] at hraise
    exact rest.raised_since hdown hup
  · exact .inr hearly

/-- A thread that is in an operation does not begin another one. -/
theorem Machine.event_of_isBy (hs : m.step work e = some m') (hbusy : (m.caller t).call ≠ .idle)
    (he : e.IsBy t) : e = .call t := by
  rcases he with he | ⟨op, rfl⟩
  · exact he
  · have hask := asks?_of_busy hs hbusy
    simp [Moment.asks?] at hask

/-- A wait that is about to look at the phase while the flag is up stays before its next look at the
flag until it is answered. -/
theorem Run.waits_for_flag {m₀ : Machine U S} (rest : Run work m₀ g m)
    (hcall : (m₀.caller t).call = .waitAtLock w) (hst : m₀.stopped = true)
    (hno : ∀ z ∈ g, ∀ a, ¬ z.Answers t a) :
    m.stopped = true ∧
      ((m.caller t).call = .waitAtLock w ∨ ∃ trial, (m.caller t).call = .waitAtFlag w trial) := by
  induction rest with
  | start => exact ⟨hst, .inl hcall⟩
  | @next g m m' e rest hs ih =>
    obtain ⟨hup, hor⟩ := ih fun z hz => hno z (List.mem_cons_of_mem _ hz)
    refine ⟨(Machine.Move.of_step hs).stopped hup, ?_⟩
    by_cases he : e.IsBy t
    · obtain rfl : e = .call t := by
        refine Machine.event_of_isBy hs ?_ he
        rcases hor with hor | ⟨trial, hor⟩ <;> simp [hor]
      -- an answer would end the wait, and there is none so far
      have hquiet : ∀ a, m'.caller t ≠ ⟨.idle, some a⟩ := fun a ha =>
        hno _ (List.mem_cons_self ..) a ⟨.inl rfl, ha⟩
      rcases hor with hor | ⟨trial, hor⟩
      · have hstep := waitStep_of_stepCall none hs (by rw [hor]; exact .waitAtLock)
        rw [hor] at hstep
        generalize m'.caller t = c at hstep hquiet
        cases hstep with
        | running => exact .inr ⟨_, rfl⟩
        | noTrial | complete => exact absurd rfl (hquiet _)
      · have hstep := waitStep_of_stepCall none hs (by rw [hor]; exact .waitAtFlag)
        rw [hor] at hstep
        generalize m'.caller t = c at hstep hquiet
        cases hstep with
        | stopped => exact absurd rfl (hquiet _)
        | lowered hdown =>
          rw [hup] at hdown
          cases hdown
    · rwa [Machine.caller_of_step hs (fun hc => he (.inl hc)) fun op hi => he (.inr ⟨op, hi⟩)]

/-- What a wait may be told once the flag is up. -/
inductive StopVerdict (m : Machine U S) : Except TrialError Answer → Prop where
  | complete : m.tally.phase = .complete → StopVerdict m (.ok .done)
  | noTrial : m.tally.phase = .ready → StopVerdict m (.error .noTrialInFlight)
  | stopped (trial : Nat) : m.stopped = true → StopVerdict m (.error (.stopped trial))

/-- A wait that is about to look at the phase while the flag is up is told so, or that the trial is
complete or there is none. -/
theorem Run.stopVerdict {m₀ : Machine U S} (rest : Run work m₀ (x :: g) m)
    (hcall : (m₀.caller t).call = .waitAtLock w) (hst : m₀.stopped = true)
    (hno : ∀ z ∈ g, ∀ a, ¬ z.Answers t a) {a : Except TrialError Answer} (ha : x.Answers t a) :
    StopVerdict x.before a := by
  obtain ⟨before, hs, rfl⟩ := rest.next_inv
  obtain ⟨hup, hor⟩ := before.waits_for_flag hcall hst hno
  have he : x.event = .call t := by
    refine Machine.event_of_isBy hs ?_ ha.1
    rcases hor with hor | ⟨trial, hor⟩ <;> simp [hor]
  rw [he] at hs
  rcases hor with hor | ⟨trial, hor⟩
  · have hstep := waitStep_of_stepCall none hs (by rw [hor]; exact .waitAtLock)
    rw [hor, ha.2] at hstep
    cases hstep with
    | noTrial hph => exact .noTrial hph
    | complete hph => exact .complete hph
  · have hstep := waitStep_of_stepCall none hs (by rw [hor]; exact .waitAtFlag)
    rw [hor, ha.2] at hstep
    cases hstep with
    | stopped => exact .stopped trial hup

/-- Such a wait gets its answer as soon as the lock is free. -/
theorem Machine.answers_of_stopped (hcall : (m.caller t).call = .waitAtLock w)
    (hst : m.stopped = true) (hl : m.lock = none) :
    ∃ m' a, Advances work t m m' ∧ m'.caller t = ⟨.idle, some a⟩ := by
  have hs : m.step work (.call t) = m.lookAtPhase t w := by simp [step, stepCall, hcall]
  cases hph : m.tally.phase with
  | ready | complete =>
    simp only [lookAtPhase, hl, hph] at hs
    exact ⟨_, _, .step hs (.refl _), caller_reply ..⟩
  | running =>
    simp only [lookAtPhase, hl, hph] at hs
    have hs' : (m.goOn t (.waitAtFlag w m.tally.trial)).step work (.call t) =
        some ((m.goOn t (.waitAtFlag w m.tally.trial)).reply t
          (.error (.stopped m.tally.trial))) := by
      have hst' : (m.goOn t (.waitAtFlag w m.tally.trial)).stopped = true := by simp [goOn, hst]
      simp [step, stepCall, caller_goOn, hst']
    exact ⟨_, _, .step hs (.step hs' (.refl _)), caller_reply ..⟩

/-- A wait of a launched coordinator that blames a worker has, in the same round, found the trial
running and then the stop flag down.  The unit of that worker has panicked; or the worker was stopped
and has left its loop, and then the stop has raised the flag after the wait had looked at it, or came
before the launch and has not raised it at all.  A wait that is about to look at the phase while the
flag is up does not come as far as that: it is told of the stop, or that the trial is complete or
there is none, as soon as the lock is free. -/
theorem blamed_worker_panicked_or_was_stopped (run : Run work (.empty freeze shared) h m) :
    (∀ h₁ y h₂ t limit s trial, h = h₁ ++ y :: h₂ → y.before.launched = true →
      asked? t (y :: h₂) = some (.wait limit) → y.Answers t (.error (.workerExited s trial)) →
      ∃ g w, Passed t trial g h₂ ∧ y.before.worker? s = some w ∧
        (w.point = .dead ∧ (∃ x ∈ h₂, x.event = .panic s) ∨
          w.point = .ended ∧ w.control.stopped = true ∧
            ((∃ z ∈ g, ∃ t', z.raises t' = true) ∨
              ∃ z ∈ h₂, z.stops = true ∧ z.before.launched = false))) ∧
    ∀ t w, (m.caller t).call = .waitAtLock w → m.stopped = true →
      (∀ g y m' a, Run work m (y :: g) m' → (∀ z ∈ g, ∀ b, ¬ z.Answers t b) → y.Answers t a →
        StopVerdict y.before a) ∧
      (m.lock = none → ∃ m' a, Machine.Advances work t m m' ∧ m'.caller t = ⟨.idle, some a⟩) := by
  refine ⟨?_, fun t w hcall hst => ⟨fun g y m' a rest hno ha => ?_, fun hl => ?_⟩⟩
  · rintro h₁ y h₂ t limit s trial rfl hl hask ha
    obtain ⟨run₂, hs⟩ := run.of_append
    obtain ⟨⟨w₀, hcall⟩, hfin⟩ := (run₂.waitStep_of_answers hs hl hask ha).to_exited
    obtain ⟨g, hpassed⟩ := run₂.passed hcall
    obtain ⟨w, hw, hend | hdead⟩ := Machine.finished_of_finishedSlot? hfin
    · have hst := (run₂.explained s w hw).ended hend
      exact ⟨g, w, hpassed, hw, .inr ⟨hend, hst, run₂.stopped_in_between hpassed hw hst⟩⟩
    · exact ⟨g, w, hpassed, hw, .inl ⟨hdead, (run₂.explained s w hw).dead hdead⟩⟩
  · exact rest.stopVerdict hcall hst hno ha
  · exact Machine.answers_of_stopped hcall hst hl

/-- The unit of the only writer panics in its trial, and a wait blames the writer. -/
def panickedWait : List (Machine.Event Unit) := List.flatten [
  [.register .writer .writer (), .launch, .invoke .controlling (.run 1)],
  .replicate 5 (.call .controlling),
  .replicate 5 (.worker ⟨.writer, 0⟩),
  [.panic ⟨.writer, 0⟩, .invoke .controlling (.wait none)],
  .replicate 3 (.call .controlling)]

theorem blamed_worker_panicked_or_was_stopped_panickedWait :
    let h := (Machine.empty .everyone ()).historyFrom idleWork [] panickedWait
    ∃ m y h', Run idleWork (.empty .everyone ()) h m ∧ h = y :: h' ∧
      y.Answers .controlling (.error (.workerExited ⟨.writer, 0⟩ 1)) ∧
      (∃ g, Passed .controlling 1 g h') ∧ ∃ x ∈ h', x.event = .panic ⟨.writer, 0⟩ := by
  intro h
  have hend : ((Machine.empty .everyone ()).steps idleWork panickedWait).map
      (fun m => m.tally.phase) = some .running := rfl
  obtain ⟨m, run, -⟩ := Run.exists_of_map hend
  have hlen : 0 < h.length := by decide
  have hsplit : h = [] ++ h[0] :: h.tail := by
    rw [List.nil_append, ← List.drop_one, ← List.drop_eq_getElem_cons, List.drop_zero]
  have hanswers : h[0].Answers .controlling (.error (.workerExited ⟨.writer, 0⟩ 1)) :=
    ⟨.inl rfl, rfl⟩
  obtain ⟨g, w, hpassed, hw, hor⟩ := (blamed_worker_panicked_or_was_stopped run).1 [] h[0] h.tail
    .controlling none _ 1 hsplit rfl rfl hanswers
  refine ⟨m, h[0], h.tail, run, hsplit, hanswers, ⟨g, hpassed⟩, ?_⟩
  rcases hor with ⟨-, hpanic⟩ | ⟨hended, -⟩
  · exact hpanic
  · -- this writer has not left its loop by itself
    have hworker : h[0].before.worker? ⟨.writer, 0⟩ = some ⟨⟨1, 0, 1, false⟩, .dead, ()⟩ := rfl
    rw [hworker, Option.some.injEq] at hw
    subst hw
    cases hended

/-- The wait looks at the flag; another thread stops all workers, and the only writer leaves its
loop; then the wait looks for a thread that is over. -/
def overtakenWait : List (Machine.Event Unit) := List.flatten [
  [.register .writer .writer (), .launch, .invoke .controlling (.run 1)],
  .replicate 5 (.call .controlling),
  [.invoke .controlling (.wait none)],
  .replicate 2 (.call .controlling),
  [.invoke .other .stop],
  .replicate 4 (.call .other),
  [.worker ⟨.writer, 0⟩, .call .controlling]]

/-- The only writer is stopped before the launch; its trial is started all the same, and a wait finds
that it has left its loop. -/
def earlyStopWait : List (Machine.Event Unit) := List.flatten [
  [.register .writer .writer (), .invoke .other .stop],
  .replicate 3 (.call .other),
  [.launch, .invoke .controlling (.run 1)],
  .replicate 5 (.call .controlling),
  [.worker ⟨.writer, 0⟩, .invoke .controlling (.wait none)],
  .replicate 3 (.call .controlling)]

/-- A unit panics at a moment. -/
def Moment.panics (x : Moment U S) : Bool :=
  match x.event with
  | .panic _ => true
  | _ => false

/-- A worker that a stop has stopped is blamed for having left its loop, although no unit has
panicked: when the stop comes between two looks of one round, and when it came before the launch. -/
theorem stopped_worker_is_blamed :
    (let h := (Machine.empty .everyone ()).historyFrom idleWork [] overtakenWait
      ∃ m y h' w, Run idleWork (.empty .everyone ()) h m ∧ h = y :: h' ∧
        y.before.launched = true ∧ asked? .controlling h = some (.wait none) ∧
        y.Answers .controlling (.error (.workerExited ⟨.writer, 0⟩ 1)) ∧
        y.before.worker? ⟨.writer, 0⟩ = some w ∧ w.point = .ended ∧ w.control.stopped = true ∧
        y.before.stopped = true ∧ ∀ x ∈ h, x.panics = false) ∧
    (let h := (Machine.empty .everyone ()).historyFrom idleWork [] earlyStopWait
      ∃ m y h' w, Run idleWork (.empty .everyone ()) h m ∧ h = y :: h' ∧
        y.before.launched = true ∧ asked? .controlling h = some (.wait none) ∧
        y.Answers .controlling (.error (.workerExited ⟨.writer, 0⟩ 1)) ∧
        y.before.worker? ⟨.writer, 0⟩ = some w ∧ w.point = .ended ∧ w.control.stopped = true ∧
        (∃ x ∈ h, x.stops = true) ∧ ∀ x ∈ h, x.panics = false) := by
  constructor
  · intro h
    have hend : ((Machine.empty .everyone ()).steps idleWork overtakenWait).map
        (fun m => m.tally.phase) = some .running := rfl
    obtain ⟨m, run, -⟩ := Run.exists_of_map hend
    exact ⟨m, _, _, _, run, rfl, rfl, rfl, ⟨.inl rfl, rfl⟩, rfl, rfl, rfl, rfl, by decide⟩
  · intro h
    have hend : ((Machine.empty .everyone ()).steps idleWork earlyStopWait).map
        (fun m => m.tally.phase) = some .running := rfl
    obtain ⟨m, run, -⟩ := Run.exists_of_map hend
    exact ⟨m, _, _, _, run, rfl, rfl, rfl, ⟨.inl rfl, rfl⟩, rfl, rfl, rfl, by decide, by decide⟩

end SpeedTrial.Trial
