import SpeedTrial.Proofs.Profile.History
import SpeedTrial.Proofs.Trial.Requests

/-!
# The course of a trial in a session

The thread that runs the trials of a session empties the sketch, has the workers taken back, starts
them and waits for them.  Nobody else starts or resets them.  So between two trials that are asked
for at most one begins, and it begins with the updates that were asked for.

* `Run.attends`: what the thread does belongs to the stage that its trial has reached.
* `Run.course`: whether the trial has begun, by the stage; if it succeeded, it has, and is complete.
-/

namespace SpeedTrial.Trial

/-- A thread that starts a trial is handing out quota, or has done so. -/
def Caller.hands (c : Caller) : Bool :=
  match c.call, c.answer with
  | .resuming _ _, _ => true
  | .idle, some (.ok _) => true
  | _, _ => false

namespace Machine

variable {U S : Type} {work : U → S → U × S} {m m' : Machine U S} {e : Event U} {t : Thread}

/-! ## Answers -/

theorem answer?_eq_some {a : Except TrialError Answer} (ha : m.answer? = some a) :
    m.caller .controlling = ⟨.idle, some a⟩ := by
  unfold answer? at ha
  show m.controlling = _
  generalize m.controlling = c at ha
  obtain ⟨call, answer⟩ := c
  cases call <;> simp_all

theorem answer?_congr (hm : m'.caller .controlling = m.caller .controlling) :
    m'.answer? = m.answer? := by
  have hc : m'.controlling = m.controlling := hm
  rw [answer?, answer?, hc]

/-! ## Steps of a start and of a wait -/

/-- A start begins its trial when it begins to hand out quota. -/
theorem hands_of_run {total : Nat} (hs : m.stepCall t = some m')
    (hserves : (m.caller t).call.Serves m.tally (.run total)) :
    (∃ b, Moment.begins? ⟨m, .call t, m'⟩ = some b ∧ b.total = total ∧
      (m.caller t).hands = false ∧ (m'.caller t).hands = true) ∨
    Moment.begins? ⟨m, .call t, m'⟩ = none ∧ (m'.caller t).hands = (m.caller t).hands := by
  unfold stepCall at hs
  -- only the step that reads the stop flag, at a ready tally, begins a trial; all others keep `hands`
  generalize hcall : (m.caller t).call = c at hs hserves
  cases hserves with
  | runAtLock =>
    obtain ⟨-, rfl⟩ := takeLock_eq_some hs
    exact .inr (by simp [Moment.begins?, hcall, Caller.hands, caller_goOn])
  | runAtFlag =>
    cases hs
    unfold startTrial
    split
    · exact .inr (by simp [Moment.begins?, hcall, Caller.hands, caller_goOn])
    · cases m.tally.phase with
      | ready => exact .inl (by simp [Moment.begins?, hcall, Caller.hands, caller_goOn])
      | _ => exact .inr (by simp [Moment.begins?, hcall, Caller.hands, caller_goOn])
  | @resuming _ quota todo =>
    refine .inr ?_
    cases todo <;> cases hs <;>
      simp [Moment.begins?, hcall, Caller.hands, caller_goOn, caller_unlock]
  | releasing href =>
    cases hs
    exact .inr (by simp [Moment.begins?, hcall, Caller.hands, caller_unlock])

theorem hands_invoke_run {total : Nat} (hs : m.invoke t (.run total) = some m') :
    (m'.caller t).hands = false := by
  unfold invoke at hs
  split at hs
  · cases hs
    by_cases hl : m.launched = true
    · by_cases hw : m.writers = [] <;> simp [hl, hw, caller_reply, caller_goOn, Caller.hands]
    · simp [hl, caller_reply, Caller.hands]
  · cases hs

/-- A wait succeeds only when it finds the trial complete. -/
theorem complete_of_wait {limit : Option Nat} {r : Answer}
    (hs : m.stepCall .controlling = some m')
    (hserves : (m.caller .controlling).call.Serves m.tally (.wait limit))
    (ha : m'.answer? = some (.ok r)) : m'.tally.phase = .complete := by
  have hanswer := answer?_eq_some ha
  unfold stepCall at hs
  generalize (m.caller .controlling).call = c at hs hserves
  cases hserves with
  | waitAtLock =>
    obtain ⟨-, rfl⟩ := lookAtPhase_eq_some hs
    cases hph : m.tally.phase with
    | complete => simpa [reply] using hph
    | ready => simp [hph, caller_reply] at hanswer
    | running => simp [hph, caller_goOn] at hanswer
  | waitAtFlag | waitAtThreads | waitAtClock =>
    cases hs
    split at hanswer <;> simp [caller_reply, caller_goOn] at hanswer
  | releasing href => cases href

theorem answer?_invoke_wait {limit : Option Nat} {r : Answer}
    (hs : m.invoke .controlling (.wait limit) = some m') : m'.answer? ≠ some (.ok r) := by
  intro ha
  have hanswer := answer?_eq_some ha
  unfold invoke at hs
  split at hs
  · cases hs
    by_cases hl : m.launched = true <;> simp [hl, caller_reply, caller_goOn] at hanswer
  · cases hs

/-! ## Complete trials -/

/-- A trial that is complete stays so unless somebody resets it. -/
theorem Coherent.complete_of_complete (hc : m.Coherent) (hs : m.step work e = some m')
    (hph : m.tally.phase = .complete)
    (hreset : ∀ t kept todo, (m.caller t).call ≠ .resetting kept todo) :
    m'.tally.phase = .complete := by
  -- whoever could change the phase finds the trial running or not begun, or resets it
  cases Move.of_step hs with
  | count hw hp =>
    have hrun := hc.running_of_freezing hw hp
    rw [hph] at hrun
    cases hrun
  | begin _ _ hready =>
    rw [hph] at hready
    cases hready
  | launch _ hl =>
    have hlaunched := (hc.staffed (by simp [hph])).1
    rw [hl] at hlaunched
    cases hlaunched
  | endReset hcall => exact absurd hcall (hreset _ _ _)
  | fail => exact hph
  | _ => simpa using hph

end Machine

end SpeedTrial.Trial

namespace SpeedTrial.Profile.Session

open SpeedTrial.Trial SpeedTrial.Sketch

variable {E : Type} [Accumulator E] {c : Settings} {s s' : Session E} {e : Event E}
  {h h' : History E} {x : Moment E} {updates : Nat} {g : Trial.History Unit Unit}

/-! ## What the threads do -/

/-- The updates that were asked for last. -/
def asked? (h : History E) : Option Nat := h.findSome? Moment.asks?

/-- The operation of the thread that runs the trials, by the stage of its trial. -/
def Stage.Operates (updates : Option Nat) : Stage → Option Operation → Prop
  | .resting, _ => True
  | .clearing u, op => updates = some u ∧ op = some .reset
  | .starting, op => ∃ u, updates = some u ∧ op = some (.run u)
  | .waiting _, op => ∃ limit, op = some (.wait limit)

/-- The thread that runs the trials does what the stage of its trial demands, and the others wait or
stop. -/
structure Attends (g : Trial.History Unit Unit) (h : History E) (s : Session E) : Prop where
  idle : s.stage = .resting → (s.workshop.caller .controlling).call = .idle
  controlling : Stage.Operates (asked? h) s.stage (Trial.asked? .controlling (trace h ++ g))
  other : ∀ op, Trial.asked? .other (trace h ++ g) = some op →
    op = .stop ∨ ∃ limit, op = .wait limit

omit [Accumulator E] in
theorem trace_cons_of_some {e : Machine.Event Unit} (hx : x.trace? = some e) :
    trace (x :: h) =
      ⟨Machine.outline x.before.workshop, e, Machine.outline x.after.workshop⟩ :: trace h := by
  simp [trace, Moment.outline?, hx]

omit [Accumulator E] in
theorem trace_cons_of_none (hx : x.trace? = none) : trace (x :: h) = trace h := by
  simp [trace, Moment.outline?, hx]

omit [Accumulator E] in
/-- Among the workers and the other threads nothing is begun but a wait or a stop. -/
theorem asks?_of_open {t : Thread} {op : Operation} {e : Machine.Event (WorkUnit E)}
    (he : isOpen e = true) {m m' : Machine Unit Unit}
    (ha : Trial.Moment.asks? ⟨m, e.outline, m'⟩ t = some op) :
    t = .other ∧ (op = .stop ∨ ∃ limit, op = .wait limit) := by
  cases e with
  | invoke t' op' =>
    simp only [Machine.Event.outline, Trial.Moment.asks?] at ha
    split at ha
    · next ht =>
      subst ht
      cases ha
      cases t' <;> cases op <;> simp [isOpen] at he ⊢
    · cases ha
  | _ => simp [Machine.Event.outline, Trial.Moment.asks?] at ha

/-- Before anybody calls the coordinator nothing is asked for. -/
theorem asked?_eq_none (hg : ∀ x ∈ g, ∀ t op, x.event ≠ .invoke t op) (t : Thread) :
    Trial.asked? t g = none := by
  refine List.findSome?_eq_none_iff.mpr fun x hx => ?_
  cases he : x.event with
  | invoke t' op => exact absurd he (hg x hx t' op)
  | _ => simp [Trial.Moment.asks?, he]

/-- A thread that has no operation gets none from what happens among the others. -/
theorem idle_of_open {w w' : Workshop E} {e : Machine.Event (WorkUnit E)} (he : isOpen e = true)
    (hs : Machine.step WorkUnit.work w e = some w')
    (hidle : (w.caller .controlling).call = .idle) :
    w'.caller .controlling = w.caller .controlling := by
  -- Only a step of that thread, or an operation it begins, could change what it does.
  refine Machine.caller_of_step hs ?_ ?_
  · rintro rfl
    simp [Machine.step, Machine.stepCall, hidle] at hs
  · rintro op rfl
    cases op <;> cases he

/-- What happens among the workers and the other threads gives the thread that runs the trials
nothing to do, and the others only a wait or a stop. -/
theorem Attends.next_of_machine (ha : Attends g h s) {me : Machine.Event (WorkUnit E)}
    (he : isOpen me = true) {w : Workshop E}
    (hw : Machine.step WorkUnit.work s.workshop me = some w) :
    Attends g (⟨s, .machine me, { s with workshop := w }⟩ :: h) { s with workshop := w } := by
  refine ⟨fun hst => ?_, ?_, fun op hop => ?_⟩
  · rw [idle_of_open he hw (ha.idle hst)]
    exact ha.idle hst
  · -- it is not the thread that runs the trials that begins something
    rw [trace_cons_of_some rfl, List.cons_append, Trial.asked?_cons_of_none]
    · exact ha.controlling
    · refine Option.eq_none_iff_forall_ne_some.mpr fun op hop => ?_
      cases (asks?_of_open he hop).1
  · rw [trace_cons_of_some rfl, List.cons_append] at hop
    cases hask : Trial.Moment.asks?
      ⟨Machine.outline s.workshop, me.outline, Machine.outline w⟩ .other with
    | some op' =>
      rw [Trial.asked?_cons_of_some hask] at hop
      cases hop
      exact (asks?_of_open he hask).2
    | none =>
      rw [Trial.asked?_cons_of_none hask] at hop
      exact ha.other op hop

omit [Accumulator E] in
/-- The thread that runs the trials goes on to the operation of the next stage, or rests. -/
theorem Attends.goOn (ha : Attends g h s) (hs : s.goOn = some s') :
    Attends g (⟨s, .goOn, s'⟩ :: h) s' := by
  -- Each way of going on ends the trial, or begins the operation of the stage that it goes to.
  cases Goes.of_goOn hs with
  | fail hst hanswer =>
    refine ⟨fun _ => by simp [conclude, Machine.answer?_eq_some hanswer], trivial,
      fun op hop => ha.other op ?_⟩
    rwa [trace_cons_of_none] at hop
    cases hstage : s.stage <;> simp [Moment.trace?, hstage, conclude]
  | finish hst hanswer =>
    refine ⟨fun _ => by simp [conclude, Machine.answer?_eq_some hanswer], trivial,
      fun op hop => ha.other op ?_⟩
    rwa [trace_cons_of_none] at hop
    simp [Moment.trace?, hst, conclude]
  | @run u a w hst hanswer hw =>
    have hop := ha.controlling
    rw [hst] at hop
    have ht := trace_cons_of_some (h := h)
      (x := ⟨s, .goOn, { s with workshop := w, stage := .starting }⟩)
      (e := .invoke .controlling (.run u)) (by simp [Moment.trace?, hst])
    refine ⟨by simp, ⟨u, hop.1, ?_⟩, fun op hop => ha.other op ?_⟩
    · rw [ht]
      rfl
    · rwa [ht, List.cons_append, Trial.asked?_cons_of_none rfl] at hop
  | @wait quota a w hst hanswer hw =>
    have ht := trace_cons_of_some (h := h)
      (x := ⟨s, .goOn, { s with workshop := w, stage := .waiting quota }⟩)
      (e := .invoke .controlling (.wait (s.limit.map Time.Span.nanos)))
      (by simp [Moment.trace?, hst])
    refine ⟨by simp, ⟨s.limit.map Time.Span.nanos, ?_⟩, fun op hop => ha.other op ?_⟩
    · rw [ht]
      rfl
    · rwa [ht, List.cons_append, Trial.asked?_cons_of_none rfl] at hop

theorem Run.attends (run : Run (opening c) h s) (hg : ∀ x ∈ g, ∀ t op, x.event ≠ .invoke t op) :
    Attends g h s := by
  -- By induction on the run; the stage and the last operation change together.
  induction run with
  | start =>
    refine ⟨fun _ => rfl, trivial, fun op hop => ?_⟩
    rw [show trace [] ++ g = g from rfl, asked?_eq_none hg] at hop
    cases hop
  | @next h s s' e run hs ih =>
    cases e with
    | trial updates =>
      obtain ⟨-, w, -, rfl⟩ := ask_eq_some hs
      refine ⟨by simp, ⟨rfl, rfl⟩, fun op hop => ih.other op ?_⟩
      rwa [trace_cons_of_some rfl, List.cons_append, Trial.asked?_cons_of_none rfl] at hop
    | machine e =>
      obtain ⟨he, w, hw, rfl⟩ := machine_eq_some hs
      exact ih.next_of_machine he hw
    | goOn => exact ih.goOn hs

/-! ## When trials begin -/

/-- No trial begins. -/
def Unbegun (h : History E) : Prop := ∀ x ∈ h, x.begins? = none

/-- One trial begins, with so many updates. -/
def Begun (updates : Nat) (h : History E) : Prop :=
  ∃ after z cleared b, h = after ++ z :: cleared ∧ z.begins? = some b ∧ b.total = updates ∧
    Unbegun after ∧ Unbegun cleared

section begun

omit [Accumulator E]

theorem Unbegun.cons (hx : x.begins? = none) (hh : Unbegun h) : Unbegun (x :: h) :=
  List.forall_mem_cons.mpr ⟨hx, hh⟩

theorem Unbegun.trace (hh : Unbegun h) : ∀ y ∈ trace h, y.begins? = none := by
  intro y hy
  obtain ⟨x, hx, hxy⟩ := List.mem_filterMap.mp hy
  have hnone := hh x hx
  rwa [Moment.begins?, hxy] at hnone

theorem Begun.cons (hx : x.begins? = none) (hh : Begun updates h) : Begun updates (x :: h) := by
  obtain ⟨after, z, cleared, b, rfl, hz, hb, hafter, hcleared⟩ := hh
  exact ⟨x :: after, z, cleared, b, rfl, hz, hb, .cons hx hafter, hcleared⟩

theorem Unbegun.begun {b : Beginning} (hx : x.begins? = some b) (hh : Unbegun h) :
    Begun b.total (x :: h) :=
  ⟨[], x, h, b, rfl, hx, rfl, by simp [Unbegun], hh⟩

/-- A thread that begins an operation begins no trial. -/
theorem begins?_of_invoke (t : Thread) (op : Operation) (hx : x.trace? = some (.invoke t op)) :
    x.begins? = none := by
  simp [Moment.begins?, Moment.outline?, hx, Trial.Moment.begins?]

theorem begins?_of_none (hx : x.trace? = none) : x.begins? = none := by
  simp [Moment.begins?, Moment.outline?, hx]

theorem sinceEmptied_cons_of_none (hx : x.asks? = none) :
    sinceEmptied (x :: h) = x :: sinceEmptied h := by
  simp [sinceEmptied, hx]

theorem sinceEmptied_cons_of_some (hx : x.asks? = some updates) : sinceEmptied (x :: h) = [] := by
  simp [sinceEmptied, hx]

end begun

/-- How far a trial has come that was asked for with so many updates, given what has happened since
then. -/
inductive Course (updates : Nat) (since : History E) (s : Session E) : Prop where
  | clearing : s.stage = .clearing updates → Unbegun since → Course updates since s
  | asking : s.stage = .starting → (s.workshop.caller .controlling).hands = false →
      Unbegun since → Course updates since s
  | handing : s.stage = .starting → (s.workshop.caller .controlling).hands = true →
      Begun updates since → Course updates since s
  | waiting {quota : Nat} : s.stage = .waiting quota → Begun updates since →
      (∀ r, Machine.answer? s.workshop = some (.ok r) → s.workshop.tally.phase = .complete) →
      Course updates since s
  | ended {sample : Stats.Sample} : s.stage = .resting → s.outcome = some (.ok sample) →
      Begun updates since → s.workshop.tally.phase = .complete → Course updates since s
  | failed {err : TrialError} : s.stage = .resting → s.outcome = some (.error err) →
      Course updates since s

omit [Accumulator E] in
/-- While the thread that runs the trials waits or rests, nobody resets the workers. -/
theorem Attends.not_resetting (ha : Attends g h s) {m₀ : FreezeScope}
    (run : Trial.Run idleWork (.empty m₀ ()) (trace h ++ g) (Machine.outline s.workshop))
    (hst : s.stage = .resting ∨ ∃ quota, s.stage = .waiting quota) (t : Thread) (kept : Nat)
    (todo : List (Slot × Access)) :
    ((Machine.outline s.workshop).caller t).call ≠ .resetting kept todo := by
  intro hcall
  obtain ⟨op, hop, hserves⟩ := run.serves t (by rw [hcall]; simp)
  -- It would have been asked to reset, and neither the stage nor the other threads allow that.
  rw [hcall] at hserves
  obtain rfl : op = .reset := by cases hserves; rfl
  cases t with
  | other => rcases ha.other _ hop with h | ⟨limit, h⟩ <;> cases h
  | controlling =>
    rcases hst with hst | ⟨quota, hst⟩
    · rw [Machine.caller_outline, ha.idle hst] at hcall
      cases hcall
    · have hwait := ha.controlling
      rw [hst, hop] at hwait
      obtain ⟨limit, hlimit⟩ := hwait
      cases hlimit

/-- Only a start that has read the stop flag begins a trial. -/
theorem begins?_of_call {m m' : Machine Unit Unit} {e : Machine.Event Unit}
    (hcall : ∀ t, e = .call t → ∀ total, (m.caller t).call ≠ .runAtFlag total) :
    Trial.Moment.begins? ⟨m, e, m'⟩ = none := by
  cases e with
  | call t =>
    have hne := hcall t rfl
    simp only [Trial.Moment.begins?]
    split
    · next total quota todo h _ => exact absurd h (hne total)
    · rfl
  | _ => rfl

section step

variable {freeze : FreezeScope} {w : Workshop E} {me : Machine.Event (WorkUnit E)}
  {since : History E}

omit [Accumulator E] in
theorem begins?_machine : Moment.begins? ⟨s, .machine me, s'⟩ = Trial.Moment.begins?
    ⟨Machine.outline s.workshop, me.outline, Machine.outline s'.workshop⟩ := rfl

omit [Accumulator E] in
theorem outline_eq_call {t : Thread} (he : me.outline = .call t) : me = .call t := by
  cases me <;> cases he
  rfl

omit [Accumulator E] in
/-- Nobody but the thread that runs the trials begins one. -/
theorem Attends.begins?_of_others (ha : Attends g h s)
    (run : Trial.Run idleWork (.empty freeze ()) (trace h ++ g) (Machine.outline s.workshop))
    (hne : me ≠ .call .controlling) : Moment.begins? ⟨s, .machine me, s'⟩ = none := by
  rw [begins?_machine]
  refine begins?_of_call fun t ht total hcall => ?_
  obtain rfl := outline_eq_call ht
  cases t with
  | controlling => exact hne rfl
  | other =>
    -- it would have been asked to run a trial
    obtain ⟨op, hop, hserves⟩ := run.serves .other (by rw [hcall]; simp)
    rw [hcall] at hserves
    cases hserves
    rcases ha.other _ hop with h | ⟨limit, h⟩ <;> cases h

omit [Accumulator E] in
/-- Whatever the others do, the trial has come as far as before. -/
theorem Course.next_of_others (hcourse : Course updates since s) (ha : Attends g h s)
    (run : Trial.Run idleWork (.empty freeze ()) (trace h ++ g) (Machine.outline s.workshop))
    (hs : (Machine.outline s.workshop).step idleWork me.outline = some (Machine.outline w))
    (he : isOpen me = true) (hne : me ≠ .call .controlling) :
    Course updates (⟨s, .machine me, { s with workshop := w }⟩ :: since)
      { s with workshop := w } := by
  have hcaller : w.caller .controlling = s.workshop.caller .controlling := by
    have hsame := Machine.caller_of_step (t := .controlling) hs
      (fun h => hne (outline_eq_call h)) ?_
    · simpa using hsame
    · rintro op hop
      cases me <;> cases hop
      cases op <;> cases he
  have hb : Moment.begins? ⟨s, .machine me, { s with workshop := w }⟩ = none :=
    ha.begins?_of_others run hne
  -- Nobody resets the tally in these two stages, so a complete trial stays complete.
  have hkept (hst : s.stage = .resting ∨ ∃ quota, s.stage = .waiting quota)
      (hph : s.workshop.tally.phase = .complete) : w.tally.phase = .complete :=
    run.coherent.complete_of_complete hs hph (ha.not_resetting run hst)
  -- The stage stays, and nothing begins, so each case is what it was.
  cases hcourse with
  | clearing hst hun => exact .clearing hst (.cons hb hun)
  | asking hst hhands hun => exact .asking hst (by rwa [hcaller]) (.cons hb hun)
  | handing hst hhands hbegun => exact .handing hst (by rwa [hcaller]) (.cons hb hbegun)
  | @waiting quota hst hbegun hph =>
    refine .waiting hst (.cons hb hbegun) fun r hr => hkept (.inr ⟨quota, hst⟩) (hph r ?_)
    rwa [← Machine.answer?_congr hcaller]
  | ended hst hout hbegun hph => exact .ended hst hout (.cons hb hbegun) (hkept (.inl hst) hph)
  | failed hst hout => exact .failed hst hout

omit [Accumulator E] in
/-- A step of the operation under way may begin the trial, or complete the wait for it. -/
theorem Course.next_of_call (hcourse : Course updates since s) (ha : Attends g h s)
    (hasked : asked? h = some updates)
    (run : Trial.Run idleWork (.empty freeze ()) (trace h ++ g) (Machine.outline s.workshop))
    (hs : (Machine.outline s.workshop).stepCall .controlling = some (Machine.outline w)) :
    Course updates (⟨s, .machine (.call .controlling), { s with workshop := w }⟩ :: since)
      { s with workshop := w } := by
  have hbusy : ((Machine.outline s.workshop).caller .controlling).call ≠ .idle := by
    intro hidle
    rw [Machine.stepCall, hidle] at hs
    cases hs
  obtain ⟨op, hop, hserves⟩ := run.serves .controlling hbusy
  have hcontrolling := ha.controlling
  rw [hop] at hcontrolling
  have hrest : s.stage ≠ .resting := fun hst => hbusy (by simpa using ha.idle hst)
  have hnone (hrun : ∀ total, op ≠ .run total) :
      Moment.begins? ⟨s, .machine (.call .controlling), { s with workshop := w }⟩ = none := by
    rw [begins?_machine]
    refine begins?_of_call fun t ht total hcall => ?_
    cases ht
    rw [hcall] at hserves
    cases hserves
    exact hrun _ rfl
  -- What the thread is asked to do is fixed by the stage: a reset, a start or a wait.
  cases hcourse with
  | clearing hst hun =>
    rw [hst] at hcontrolling
    obtain rfl := Option.some.inj hcontrolling.2
    exact .clearing hst (.cons (hnone (by simp)) hun)
  | asking hst hhands hun =>
    rw [hst] at hcontrolling
    obtain ⟨u, hu, hrun⟩ := hcontrolling
    obtain rfl := Option.some.inj hrun
    obtain rfl := Option.some.inj (hasked.symm.trans hu)
    rcases Machine.hands_of_run hs hserves with ⟨b, hb, rfl, -, hhands'⟩ | ⟨hb, hhands'⟩
    · exact .handing hst (by simpa using hhands') (hun.begun hb)
    · refine .asking hst ?_ (.cons hb hun)
      rw [Machine.caller_outline, Machine.caller_outline] at hhands'
      rw [hhands', hhands]
  | handing hst hhands hbegun =>
    rw [hst] at hcontrolling
    obtain ⟨u, hu, hrun⟩ := hcontrolling
    obtain rfl := Option.some.inj hrun
    rcases Machine.hands_of_run hs hserves with ⟨b, -, -, hno, -⟩ | ⟨hb, hhands'⟩
    · rw [Machine.caller_outline, hhands] at hno
      cases hno
    · refine .handing hst ?_ (.cons hb hbegun)
      rw [Machine.caller_outline, Machine.caller_outline] at hhands'
      rw [hhands', hhands]
  | waiting hst hbegun hph =>
    rw [hst] at hcontrolling
    obtain ⟨limit, hlimit⟩ := hcontrolling
    obtain rfl := Option.some.inj hlimit
    refine .waiting hst (.cons (hnone (by simp)) hbegun) fun r hr => ?_
    have hcomplete : (Machine.outline w).tally.phase = .complete :=
      Machine.complete_of_wait hs hserves hr
    exact hcomplete
  | ended hst | failed hst => exact absurd hst hrest

end step

omit [Accumulator E] in
theorem hands_of_answer? {w : Workshop E} {a : Answer} (ha : Machine.answer? w = some (.ok a)) :
    (Machine.caller w .controlling).hands = true := by
  rw [Machine.answer?_eq_some ha]
  rfl

omit [Accumulator E] in
/-- The thread goes on with the trial, or ends it. -/
theorem Course.goOn {since : History E} (hcourse : Course updates since s) (hs : s.goOn = some s') :
    Course updates (⟨s, .goOn, s'⟩ :: since) s' := by
  -- Each way of going on fits one case only; in the others the stage or the answer is another.
  cases Goes.of_goOn hs with
  | fail => exact .failed rfl rfl
  | @run u _ _ hst ha hw =>
    cases hcourse with
    | clearing _ hun =>
      exact .asking rfl (Machine.hands_invoke_run hw)
        (.cons (begins?_of_invoke .controlling (.run u) (by simp [Moment.trace?, hst])) hun)
    | asking h | handing h | waiting h | ended h | failed h => simp [hst] at h
  | wait hst ha hw =>
    cases hcourse with
    | handing _ _ hbegun =>
      exact .waiting rfl
        (.cons (begins?_of_invoke .controlling _ (by simp [Moment.trace?, hst]; rfl)) hbegun)
        fun r hr => absurd hr (Machine.answer?_invoke_wait hw)
    | asking _ hhands =>
      rw [hands_of_answer? ha] at hhands
      cases hhands
    | clearing h | waiting h | ended h | failed h => simp [hst] at h
  | finish hst ha =>
    cases hcourse with
    | waiting _ hbegun hph =>
      exact .ended rfl rfl (.cons (begins?_of_none (by simp [Moment.trace?, hst, conclude])) hbegun)
        (hph _ ha)
    | clearing h | asking h | handing h | ended h | failed h => simp [hst] at h

theorem Run.course (run : Run (opening c) h s) (hasked : asked? h = some updates) :
    Course updates (sinceEmptied h) s := by
  obtain ⟨g, rung, hg⟩ := Workshop.exists_run_outline_started (E := E) c
  -- By induction on the run, each event by whom it belongs to.
  induction run with
  | start => cases hasked
  | @next h s s' e run hs ih =>
    cases e with
    | trial u =>
      obtain ⟨-, w, -, rfl⟩ := ask_eq_some hs
      cases hasked
      rw [sinceEmptied_cons_of_some rfl]
      exact .clearing rfl (by simp [Unbegun])
    | machine e =>
      rw [sinceEmptied_cons_of_none rfl]
      have hasked : asked? h = some updates := hasked
      have hstep := step_trace hs
      obtain ⟨he, w, hw, rfl⟩ := machine_eq_some hs
      by_cases hcall : e = .call .controlling
      · subst hcall
        exact (ih hasked).next_of_call (run.attends hg) hasked (run.outline rung) hstep
      · exact (ih hasked).next_of_others (run.attends hg) (run.outline rung) hstep he hcall
    | goOn =>
      rw [sinceEmptied_cons_of_none rfl]
      exact (ih hasked).goOn hs

/-! ## Outcomes -/

/-- Before a trial is asked for there is none under way, and nothing has become of one. -/
theorem Run.unasked (run : Run (opening c) h s) (hnone : asked? h = none) :
    s.stage = .resting ∧ s.outcome = none := by
  induction run with
  | start => exact ⟨rfl, rfl⟩
  | @next h s s' e run hs ih =>
    cases e with
    | trial updates => cases hnone
    | machine e =>
      obtain ⟨-, w, -, rfl⟩ := machine_eq_some hs
      exact ih hnone
    | goOn =>
      have hst := (ih hnone).1
      cases Goes.of_goOn hs with
      | fail hne => exact absurd hst hne
      | run h | wait h | finish h => simp [hst] at h

/-- What became of a trial is known only while no other one is under way. -/
theorem Run.resting_of_outcome (run : Run (opening c) h s) (hout : s.outcome ≠ none) :
    s.stage = .resting := by
  induction run with
  | start => rfl
  | @next h s s' e run hs ih =>
    cases e with
    | trial updates =>
      obtain ⟨-, w, -, rfl⟩ := ask_eq_some hs
      exact absurd rfl hout
    | machine e =>
      obtain ⟨-, w, -, rfl⟩ := machine_eq_some hs
      exact ih hout
    | goOn =>
      cases Goes.of_goOn hs with
      | fail | finish => rfl
      | run h | wait h => simp [ih hout] at h

/-- A trial that succeeded has begun and is complete. -/
theorem Run.ended (run : Run (opening c) h s) {sample : Stats.Sample}
    (hok : s.outcome = some (.ok sample)) :
    ∃ updates, asked? h = some updates ∧ Begun updates (sinceEmptied h) ∧
      s.workshop.tally.phase = .complete := by
  have hst := run.resting_of_outcome (by simp [hok])
  cases hasked : asked? h with
  | none =>
    have hnone := (run.unasked hasked).2
    rw [hok] at hnone
    cases hnone
  | some updates =>
    refine ⟨updates, rfl, ?_⟩
    -- With the thread at rest the trial has ended or failed, and it did not fail.
    cases run.course hasked with
    | ended _ _ hbegun hph => exact ⟨hbegun, hph⟩
    | failed _ herr =>
      rw [hok] at herr
      cases herr
    | clearing h | asking h | handing h | waiting h => simp [hst] at h

/-- Before a trial is asked for none begins. -/
theorem Run.unbegun (run : Run (opening c) h s) (hnone : asked? h = none) : Unbegun h := by
  obtain ⟨g, rung, hg⟩ := Workshop.exists_run_outline_started (E := E) c
  induction run with
  | start => simp [Unbegun]
  | @next h s s' e run hs ih =>
    cases e with
    | trial updates => cases hnone
    | machine e =>
      refine .cons ?_ (ih hnone)
      by_cases hcall : e = .call .controlling
      · subst hcall
        -- the thread that runs the trials has nothing to do
        have hidle := (run.attends hg).idle (run.unasked hnone).1
        simp [step, isOpen, Machine.step, Machine.stepCall, hidle] at hs
      · exact (run.attends hg).begins?_of_others (run.outline rung) hcall
    | goOn =>
      have hst := (run.unasked hnone).1
      cases Goes.of_goOn hs with
      | fail hne => exact absurd hst hne
      | run h | wait h | finish h => simp [hst] at h

end SpeedTrial.Profile.Session
