import SpeedTrial.Profile.Session
import SpeedTrial.Proofs.Trial.Outline
import SpeedTrial.Proofs.Trial.Runs

/-!
# Sessions and what they tell

A session goes on by events: a trial is asked for, the thread that runs the trials goes on, or
something happens among the workers and the other threads.  A run is a sequence of such events, in
any order that the session allows, together with its history, newest first.

* `Run.outline`: the coordination of the workers in a run of a session is a run of their machine, so
  that whatever holds in all runs of machines holds of it.
* `sinceEmptied` and `sinceBegun` are the parts of a history that belong to the trial that was asked
  for last.
-/

namespace SpeedTrial.Profile

open SpeedTrial.Trial SpeedTrial.Sketch

variable {E : Type} [Accumulator E]

/-! ## The start -/

/-- The workers of a profile that have just been started. -/
def Workshop.started (s : Settings) : Workshop E where
  freeze := s.freeze
  launched := true
  tally := Tally.fresh s.writers s.readers
  writers := (List.range s.writers).map fun i => { point := .top, unit := writerUnit s i }
  readers := List.replicate s.readers { point := .top, unit := .reader s.readerInterval }
  shared := Shared.empty

namespace Session

/-- A profile before its first trial. -/
def opening (s : Settings) : Session E :=
  { workshop := Workshop.started s, limit := s.trialTimeout }

/-! ## Events -/

/-- Something that happens in a session. -/
inductive Event (E : Type) where
  /-- A trial is asked for. -/
  | trial (updates : Nat)
  /-- The thread that runs the trials goes on. -/
  | goOn
  /-- An event among the workers and the other threads. -/
  | machine (e : Machine.Event (WorkUnit E))

/-- Whether an event can happen besides the trials.  The roster is closed, and the other threads
only wait and stop. -/
def isOpen : Machine.Event (WorkUnit E) → Bool
  | .invoke .other (.wait _) => true
  | .invoke .other .stop => true
  | .invoke _ _ => false
  | .register _ _ _ => false
  | .launch => false
  | _ => true

/-- One event; `none` if it is not possible now. -/
def step (s : Session E) : Event E → Option (Session E)
  | .trial updates => s.ask updates
  | .goOn => s.goOn
  | .machine e =>
    if isOpen e then (Machine.step WorkUnit.work s.workshop e).map fun w => { s with workshop := w }
    else none

/-- A sequence of events, each possible after those before it. -/
def steps (s : Session E) : List (Event E) → Option (Session E)
  | [] => some s
  | e :: es => (s.step e).bind fun s' => s'.steps es

/-! ## Runs -/

/-- One event of a run, with the session before and after it. -/
structure Moment (E : Type) where
  before : Session E
  event : Event E
  after : Session E

/-- What happened in a run, newest first. -/
abbrev History (E : Type) := List (Moment E)

/-- The runs of a session, each with its history. -/
inductive Run (s₀ : Session E) : History E → Session E → Prop where
  /-- Nothing has happened. -/
  | start : Run s₀ [] s₀
  /-- One more event that is possible. -/
  | next {h : History E} {s s' : Session E} {e : Event E} :
      Run s₀ h s → s.step e = some s' → Run s₀ (⟨s, e, s'⟩ :: h) s'

/-- The history of a sequence of events, put before what happened already. -/
def historyFrom (h : History E) (s : Session E) : List (Event E) → History E
  | [] => h
  | e :: es =>
    match s.step e with
    | none => h
    | some s' => s'.historyFrom (⟨s, e, s'⟩ :: h) es

/-- A sequence of events that is possible is a run. -/
theorem Run.of_steps {s₀ s s' : Session E} {h : History E} (run : Run s₀ h s) {es : List (Event E)}
    (hes : s.steps es = some s') : Run s₀ (s.historyFrom h es) s' := by
  induction es generalizing s h with
  | nil =>
    obtain rfl : s = s' := Option.some.inj hes
    exact run
  | cons e es ih =>
    obtain ⟨s₁, hs, hes⟩ := Option.bind_eq_some_iff.mp hes
    simp only [historyFrom, hs]
    exact ih (run.next hs) hes

theorem Run.next_inv {s₀ s : Session E} {x : Moment E} {h : History E} (run : Run s₀ (x :: h) s) :
    Run s₀ h x.before ∧ x.before.step x.event = some x.after ∧ x.after = s := by
  cases run with
  | next run hs => exact ⟨run, hs, rfl⟩

/-- A run is one to any moment of it and one from there on. -/
theorem Run.split {s₀ s : Session E} {h₁ h₂ : History E} (run : Run s₀ (h₁ ++ h₂) s) :
    ∃ s₂, Run s₀ h₂ s₂ ∧ Run s₂ h₁ s := by
  induction h₁ generalizing s with
  | nil => exact ⟨s, run, .start⟩
  | cons x h₁ ih =>
    obtain ⟨run₁, hs, rfl⟩ := run.next_inv
    obtain ⟨s₂, run₂, rest⟩ := ih run₁
    exact ⟨s₂, run₂, rest.next hs⟩

/-- Every moment of a run ends a shorter run. -/
theorem Run.of_mem {s₀ s : Session E} {x : Moment E} {h : History E} (run : Run s₀ h s)
    (hx : x ∈ h) :
    ∃ h', Run s₀ h' x.before ∧ x.before.step x.event = some x.after := by
  induction run with
  | start => cases hx
  | next run hs ih =>
    rcases List.mem_cons.mp hx with rfl | hx
    · exact ⟨_, run, hs⟩
    · exact ih hx

/-! ## Trials -/

/-- The updates of a trial that is asked for at a moment. -/
def Moment.asks? (x : Moment E) : Option Nat :=
  match x.event with
  | .trial updates => some updates
  | _ => none

/-- What a moment is to the coordination of the workers.  The thread that runs the trials begins its
operations as it goes on. -/
def Moment.trace? (x : Moment E) : Option (Machine.Event Unit) :=
  match x.event with
  | .trial _ => some (.invoke .controlling .reset)
  | .machine e => some e.outline
  | .goOn =>
    match x.before.stage, x.after.stage with
    | .clearing updates, .starting => some (.invoke .controlling (.run updates))
    | .starting, .waiting _ =>
      some (.invoke .controlling (.wait (x.before.limit.map Time.Span.nanos)))
    | _, _ => none

omit [Accumulator E] in
/-- The coordination of the workers sees what happens among them, and what the thread that runs the
trials begins. -/
theorem Moment.event_of_trace? {x : Moment E} {e : Machine.Event Unit} (hx : x.trace? = some e) :
    (∃ me, x.event = .machine me ∧ me.outline = e) ∨
      ∃ op, e = .invoke .controlling op ∧ op ≠ .stop := by
  unfold trace? at hx
  split at hx
  · cases hx
    exact .inr ⟨_, rfl, by simp⟩
  · next me he =>
    cases hx
    exact .inl ⟨me, he, rfl⟩
  · split at hx <;> cases hx <;> exact .inr ⟨_, rfl, by simp⟩

/-- A moment as one of the outline of the workers. -/
def Moment.outline? (x : Moment E) : Option (Trial.Moment Unit Unit) :=
  x.trace?.map fun e => ⟨Machine.outline x.before.workshop, e, Machine.outline x.after.workshop⟩

/-- A history of the outline of the workers. -/
def trace (h : History E) : Trial.History Unit Unit := h.filterMap Moment.outline?

/-- How a trial begins at a moment, if one does. -/
def Moment.begins? (x : Moment E) : Option Beginning := x.outline?.bind Trial.Moment.begins?

/-- What happened since the sketch was emptied. -/
def sinceEmptied (h : History E) : History E := h.takeWhile fun x => x.asks?.isNone

/-- What happened since the current or last trial began. -/
def sinceBegun (h : History E) : History E := h.takeWhile fun x => x.begins?.isNone

/-! ## The thread that runs the trials -/

/-- A trial begins with an emptied sketch and with the workers being taken back. -/
theorem ask_eq_some {s s' : Session E} {updates : Nat} (hs : s.ask updates = some s') :
    s.stage = .resting ∧ ∃ w,
      Machine.invoke (Workshop.emptied s.workshop) .controlling .reset = some w ∧
      s' = ⟨w, s.limit, .clearing updates, none⟩ := by
  unfold ask at hs
  split at hs
  · next hst =>
    obtain ⟨w, hw, rfl⟩ := Option.map_eq_some_iff.mp hs
    exact ⟨hst, w, hw, rfl⟩
  · cases hs

/-- An event among the workers and the other threads is one of their machine, and leaves the thread
that runs the trials where it is. -/
theorem machine_eq_some {s s' : Session E} {e : Machine.Event (WorkUnit E)}
    (hs : s.step (.machine e) = some s') :
    isOpen e = true ∧ ∃ w, Machine.step WorkUnit.work s.workshop e = some w ∧
      s' = { s with workshop := w } := by
  simp only [step] at hs
  split at hs
  · next he =>
    obtain ⟨w, hw, rfl⟩ := Option.map_eq_some_iff.mp hs
    exact ⟨he, w, hw, rfl⟩
  · cases hs

/-- How the thread goes on when it has its answer. -/
inductive Goes (s : Session E) : Session E → Prop where
  | fail {err : TrialError} : s.stage ≠ .resting → Machine.answer? s.workshop = some (.error err) →
      Goes s (s.conclude (.error err))
  | run {updates : Nat} {a : Answer} {w : Workshop E} : s.stage = .clearing updates →
      Machine.answer? s.workshop = some (.ok a) →
      Machine.invoke s.workshop .controlling (.run updates) = some w →
      Goes s { s with workshop := w, stage := .starting }
  | wait {quota : Nat} {a : Answer} {w : Workshop E} : s.stage = .starting →
      Machine.answer? s.workshop = some (.ok a) →
      Machine.invoke s.workshop .controlling (.wait (s.limit.map Time.Span.nanos)) = some w →
      Goes s { s with workshop := w, stage := .waiting quota }
  | finish {quota : Nat} {a : Answer} : s.stage = .waiting quota →
      Machine.answer? s.workshop = some (.ok a) →
      Goes s (s.conclude (.ok (Workshop.sample s.workshop)))

omit [Accumulator E] in
theorem Goes.of_goOn {s s' : Session E} (hs : s.goOn = some s') : Goes s s' := by
  unfold goOn at hs
  split at hs
  · cases hs
  · cases hs
  · next e ha hrest =>
    cases hs
    exact .fail hrest ha
  · next updates a hst ha =>
    obtain ⟨w, hw, rfl⟩ := Option.map_eq_some_iff.mp hs
    exact .run hst ha hw
  · next units hst ha =>
    obtain ⟨w, hw, rfl⟩ := Option.map_eq_some_iff.mp hs
    exact .wait hst ha hw
  · next hst ha =>
    obtain ⟨w, hw, rfl⟩ := Option.map_eq_some_iff.mp hs
    exact .wait hst ha hw
  · next hst ha =>
    cases hs
    exact .finish hst ha

/-! ## The outline of a run -/

section trace

variable {s₀ s s' : Session E} {e : Event E} {h : History E}

theorem outline_emptied (w : Workshop E) :
    Machine.outline (Workshop.emptied w) = Machine.outline w := rfl

/-- What an event is to the coordination of the workers is a step of their outline. -/
theorem step_trace (hs : s.step e = some s') :
    match (⟨s, e, s'⟩ : Moment E).trace? with
    | some e' => (Machine.outline s.workshop).step idleWork e' = some (Machine.outline s'.workshop)
    | none => Machine.outline s'.workshop = Machine.outline s.workshop := by
  cases e with
  | trial updates =>
    obtain ⟨-, w, hw, rfl⟩ := ask_eq_some hs
    show (Machine.outline s.workshop).invoke .controlling .reset = some (Machine.outline w)
    rw [← outline_emptied, Machine.invoke_outline, hw]
    rfl
  | machine e =>
    show (Machine.outline s.workshop).step idleWork e.outline = some (Machine.outline s'.workshop)
    obtain ⟨-, w, hw, rfl⟩ := machine_eq_some hs
    rw [Machine.step_outline s.workshop WorkUnit.work, hw]
    rfl
  | goOn =>
    cases Goes.of_goOn hs with
    | fail hst ha => cases hstage : s.stage <;> simp [Moment.trace?, hstage, conclude]
    -- the thread goes on by asking for the next operation, or leaves the workers alone
    | finish hst ha => simp [Moment.trace?, hst, conclude]
    | run hst ha hw =>
      simp only [Moment.trace?, hst, Machine.step, Machine.invoke_outline, hw]
      rfl
    | wait hst ha hw =>
      simp only [Moment.trace?, hst, Machine.step, Machine.invoke_outline, hw]
      rfl

/-- The coordination of the workers in a run of a session goes on from where it was. -/
theorem Run.outline (run : Run s₀ h s) {m₀ : Machine Unit Unit} {g : Trial.History Unit Unit}
    (run₀ : Trial.Run idleWork m₀ g (Machine.outline s₀.workshop)) :
    Trial.Run idleWork m₀ (trace h ++ g) (Machine.outline s.workshop) := by
  induction run with
  | start => exact run₀
  | @next h s s' e run hs ih =>
    have hstep := step_trace hs
    cases ht : (⟨s, e, s'⟩ : Moment E).trace? with
    | some e' =>
      rw [ht] at hstep
      simpa [trace, Moment.outline?, ht] using ih.next hstep
    | none =>
      rw [ht] at hstep
      simpa [trace, Moment.outline?, ht, hstep] using ih

end trace

end Session

/-! ## How the workers come to be -/

namespace Workshop

variable {w w' : Workshop E} {h : Trial.History (WorkUnit E) (Shared E)}

omit [Accumulator E] in
/-- The workers are registered behind each other. -/
theorem registerAll_eq (role : Role) (units : List (WorkUnit E)) (hl : Machine.launched w = false) :
    registerAll role units w = .ok (match role with
      | .writer => { w with writers := w.writers ++ units.map fun unit => { unit := unit } }
      | .reader => { w with readers := w.readers ++ units.map fun unit => { unit := unit } }) := by
  induction units generalizing w with
  | nil => cases role <;> simp [registerAll]
  | cons unit units ih =>
    cases role <;> simp [registerAll, Machine.register, hl, ih]

/-- The workers of a profile are registered and launched without an error. -/
theorem launch_registered (s : Settings) :
    (registered s >>= Machine.launch : Except TrialError (Workshop E)) = .ok (started s) := by
  have hall : (registered s : Except TrialError (Workshop E)) = .ok
      { freeze := s.freeze
        writers := (List.range s.writers).map fun i => { unit := writerUnit s i }
        readers := List.replicate s.readers { unit := .reader s.readerInterval }
        shared := Shared.empty } := by
    rw [registered, registerAll_eq .writer _ rfl]
    show registerAll .reader _ _ = _
    rw [registerAll_eq .reader _ rfl]
    simp [Function.comp_def]
  rw [hall]
  simp [bind, Except.bind, Machine.launch, started, Function.comp_def]

/-- A worker that is registered is so by an event. -/
theorem run_registerAll {m₀ : Workshop E} {role : Role} {units : List (WorkUnit E)}
    (run : Trial.Run WorkUnit.work m₀ h w) (hquiet : Machine.isQuiet w = true)
    (hw : registerAll role units w = .ok w') :
    ∃ h', Trial.Run WorkUnit.work m₀ (h' ++ h) w' ∧ (∀ x ∈ h', ∀ t op, x.event ≠ .invoke t op) ∧
      Machine.isQuiet w' = true := by
  induction units generalizing w h with
  | nil =>
    cases hw
    exact ⟨[], run, by simp, hquiet⟩
  | cons unit units ih =>
    rw [registerAll] at hw
    cases hr : Machine.register w role role unit with
    | error e => simp [hr] at hw
    | ok r =>
      obtain ⟨i, w₁⟩ := r
      simp only [hr] at hw
      -- Registering is an event of its own, and the roster is not closed by it.
      have hs : Machine.step WorkUnit.work w (.register role role unit) = some w₁ := by
        simp [Machine.step, hquiet, hr]
      have hquiet₁ : Machine.isQuiet w₁ = true := by
        unfold Machine.register at hr
        split at hr
        · cases hr
        · cases role <;> simp at hr <;> exact hr.2 ▸ hquiet
      obtain ⟨h', run', hnone, hquiet'⟩ := ih (run.next hs) hquiet₁ hw
      refine ⟨h' ++ [⟨w, .register role role unit, w₁⟩], by simpa using run', fun x hx => ?_,
        hquiet'⟩
      rcases List.mem_append.mp hx with hx | hx
      · exact hnone x hx
      · rw [List.mem_singleton.mp hx]
        simp

/-- The workers of a profile that have just been started are where a run has led to, in which nobody
has called the coordinator yet. -/
theorem exists_run_started (s : Settings) :
    ∃ h, Trial.Run WorkUnit.work (.empty s.freeze Shared.empty) h (started s : Workshop E) ∧
      ∀ x ∈ h, ∀ t op, x.event ≠ .invoke t op := by
  have hstarted := launch_registered (E := E) s
  unfold registered at hstarted
  -- the writers are registered, then the readers, and then all are launched
  cases hwriters : registerAll .writer ((List.range s.writers).map (writerUnit s))
      ({ freeze := s.freeze, shared := Shared.empty } : Workshop E) with
  | error e => simp [hwriters, bind, Except.bind] at hstarted
  | ok w₁ =>
    cases hreaders :
        registerAll .reader (List.replicate s.readers (.reader s.readerInterval)) w₁ with
    | error e => simp [hwriters, hreaders, bind, Except.bind] at hstarted
    | ok w₂ =>
      obtain ⟨h₁, run₁, hnone₁, hquiet₁⟩ := run_registerAll .start rfl hwriters
      obtain ⟨h₂, run₂, hnone₂, hquiet₂⟩ := run_registerAll run₁ hquiet₁ hreaders
      have hlaunch : Machine.launch w₂ = .ok (started s) := by
        simpa [hwriters, hreaders, bind, Except.bind] using hstarted
      have hs : Machine.step WorkUnit.work w₂ .launch = some (started s) := by
        simp [Machine.step, hquiet₂, hlaunch]
      refine ⟨_, run₂.next hs, fun x hx => ?_⟩
      rcases List.mem_cons.mp hx with rfl | hx
      · simp
      · simp only [List.append_nil, List.mem_append] at hx
        exact hx.elim (hnone₂ x) (hnone₁ x)

theorem exists_run_outline_started (s : Settings) :
    ∃ g, Trial.Run idleWork (.empty s.freeze ()) g (Machine.outline (started s : Workshop E)) ∧
      ∀ x ∈ g, ∀ t op, x.event ≠ .invoke t op := by
  obtain ⟨h, run, hnone⟩ := exists_run_started (E := E) s
  refine ⟨h.map Trial.Moment.outline, run.outline, fun x hx t op he => ?_⟩
  obtain ⟨y, hy, rfl⟩ := List.mem_map.mp hx
  cases hye : y.event with
  | invoke t' op' => exact hnone y hy t' op' hye
  | _ => simp [Trial.Moment.outline, hye, Machine.Event.outline] at he

end Workshop

end SpeedTrial.Profile
