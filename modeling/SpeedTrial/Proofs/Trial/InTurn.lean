import SpeedTrial.Proofs.Trial.Waiting

/-!
# Stops that are called in turn

The workers run beside everything else, but a coordinator is never called by two threads at once:
whatever thread calls it, no operation begins before the last one has answered.  Then nobody is
handing out quota when a stop raises the flag, and a stop is final.

* `InTurn`: the operations of a history do not overlap.
* `Run.idle_of_inTurn`: then one thread at most is in a call.
* `Run.isStopped_of_stopping`: how far a stop has come with the workers, also before the launch.
* `Run.overtaken_of_calls`: a worker that performs two units after a stop was handed quota by a start
  that was under way already when the flag was raised.
* `stop_is_final_in_turn`: no such start is there if the operations do not overlap.
* `stop_is_not_final`: what a stop does not reach.
-/

namespace SpeedTrial.Trial

variable {U S : Type} {work : U → S → U × S} {freeze : FreezeScope} {shared : S}
  {h h' : History U S} {m m' : Machine U S} {e : Machine.Event U} {x : Moment U S} {s : Slot}
  {t t' : Thread} {todo : List (Slot × Access)}

/-! ## One call at a time -/

/-- An operation begins while another one is under way. -/
def Moment.interrupts (x : Moment U S) : Bool :=
  match x.event with
  | .invoke _ _ => !x.before.isQuiet
  | _ => false

/-- The operations of a history do not overlap, from whichever threads they are called. -/
def InTurn (h : History U S) : Prop := ∀ x ∈ h, x.interrupts = false

instance (h : History U S) : Decidable (InTurn h) :=
  inferInstanceAs (Decidable (∀ x ∈ h, x.interrupts = false))

/-- If the operations do not overlap, one thread at most is in a call. -/
theorem Run.idle_of_inTurn (run : Run work (.empty freeze shared) h m) (hturn : InTurn h)
    (ht : t ≠ t') : (m.caller t).call = .idle ∨ (m.caller t').call = .idle := by
  induction run generalizing t t' with
  | start => exact .inl (by cases t <;> rfl)
  | @next h m m' e run hs ih =>
    have hbefore := fun {t t'} (ht : t ≠ t') =>
      ih (fun x hx => hturn x (List.mem_cons_of_mem _ hx)) ht
    -- a thread that moves leaves the other one where it is
    by_cases he : e.IsBy t ∨ e.IsBy t'
    · wlog hby : e.IsBy t generalizing t t'
      · exact (this (Ne.symm ht) he.symm (he.resolve_left hby)).symm
      refine .inr ?_
      have hother : m'.caller t' = m.caller t' := by
        refine Machine.caller_of_step hs ?_ ?_ <;> rcases hby with rfl | ⟨op, rfl⟩ <;> simp [ht]
      rw [hother]
      rcases hby with rfl | ⟨op, rfl⟩
      · -- it was in a call before
        refine (hbefore ht).resolve_left fun hidle => ?_
        simp [Machine.step, Machine.stepCall, hidle] at hs
      · have hquiet := hturn _ (List.mem_cons_self ..)
        simp only [Moment.interrupts, Bool.not_eq_false'] at hquiet
        exact Machine.idle_of_isQuiet hquiet t'
    · have hsame : ∀ t₀, ¬ e.IsBy t₀ → m'.caller t₀ = m.caller t₀ := fun t₀ hno =>
        Machine.caller_of_step hs (fun hc => hno (.inl hc)) fun op hi => hno (.inr ⟨op, hi⟩)
      rw [hsame t fun hby => he (.inl hby), hsame t' fun hby => he (.inr hby)]
      exact hbefore ht

/-- If the operations do not overlap, nobody is starting a trial when a stop raises the flag. -/
theorem Run.starting_of_raises (run : Run work (.empty freeze shared) h x.before)
    (hturn : InTurn h) (hx : x.raises t = true) : x.before.starting = 0 := by
  obtain ⟨-, hcall⟩ := Moment.cause_of_raises hx
  have hnone : ∀ t', (x.before.caller t').call.starts = 0 := by
    intro t'
    by_cases ht : t = t'
    · simp [← ht, hcall, Call.starts]
    · have hidle := (run.idle_of_inTurn hturn ht).resolve_left (by simp [hcall])
      simp [hidle, Call.starts]
  exact Nat.add_eq_zero_iff.mpr ⟨hnone .controlling, hnone .other⟩

/-! ## Workers that are stopped before the launch -/

/-- Nobody takes the stop flag of a worker down. -/
theorem View.Step.stopped {v v' : View} {y : Happening} (hs : View.Step v y v')
    (hst : v.control.stopped = true) : v'.control.stopped = true := by
  have hwrite : ∀ a : Access, (a.write v.control).stopped = true := by
    intro a
    cases a <;> simp [Access.write, hst]
  cases hs with
  | own _ hn => exact (Point.stopped_of_next hn).trans hst
  | hand | clear => exact hwrite _
  | raise => rfl
  | _ => exact hst

theorem Machine.IsStopped.next (run : Run work (.empty freeze shared) h m)
    (hs : m.step work e = some m') (hst : m.IsStopped s) : m'.IsStopped s := by
  obtain ⟨w, hw, hst⟩ := hst
  obtain ⟨w', hw', hstep⟩ := run.step_of_worker hs hw
  exact ⟨w', hw', hstep.stopped hst⟩

/-- A stop has stopped every worker but those that it still has to. -/
theorem Run.isStopped_of_stopping (run : Run work (.empty freeze shared) h m)
    (hcall : (m.caller t).call = .stopping todo) :
    ∀ s ∈ m.slots, (s, .raiseStop) ∈ todo ∨ m.IsStopped s := by
  have hall : ∀ (m : Machine U S) (s : Slot), s ∈ m.slots →
      (s, .raiseStop) ∈ Machine.forEach m.slots Control.stopping := fun m s hslot =>
    mem_forEach.mpr ⟨hslot, by simp [Control.stopping]⟩
  induction run generalizing todo with
  | start => cases t <;> cases hcall
  | @next h m m' e run hs ih =>
    intro s hslot
    obtain ⟨hslots, -, hstep⟩ := stopStep_of_step hs hcall
    rw [hslots] at hslot
    cases hstep with
    | keeps _ hcall₀ => exact (ih hcall₀ s hslot).imp_right (·.next run hs)
    | begins _ htodo | raises _ htodo => exact .inl (htodo ▸ hall m s hslot)
    | @halts s₀ a _ hcall₀ hm' =>
      rcases ih hcall₀ s hslot with hmem | hst
      · rcases List.mem_cons.mp hmem with heq | hmem
        · obtain ⟨rfl, rfl⟩ := Prod.mk.inj heq
          obtain ⟨w, hw⟩ := Machine.worker?_of_lt ((Machine.mem_slots_iff m s).mp hslot)
          subst hm'
          exact .inr ⟨w.write .raiseStop, by simp [hw], rfl⟩
        · exact .inl hmem
      · exact .inr (hst.next run hs)

/-- The worker in a slot is stopped, and outside of its loop or where it begins. -/
def Machine.IsRetired (m : Machine U S) (s : Slot) : Prop :=
  ∃ w, m.worker? s = some w ∧ w.control.stopped = true ∧
    (w.point = .unborn ∨ w.point = .top ∨ w.point = .ended)

theorem View.Step.retired {v v' : View} {y : Happening} (hs : View.Step v y v')
    (hst : v.control.stopped = true)
    (hp : v.point = .unborn ∨ v.point = .top ∨ v.point = .ended) :
    (v'.point = .unborn ∨ v'.point = .top ∨ v'.point = .ended) ∧ y ≠ .called := by
  cases hs with
  | own s₀ hn =>
    rcases hp with hp | hp | hp <;> simp only [hp, Point.next, reduceCtorEq] at hn
    -- where the loop begins it finds the flag up
    obtain ⟨rfl, rfl⟩ := Prod.mk.inj (Option.some.inj hn)
    simp [hst, hp, Point.meaning]
  | halt => exact ⟨hp, by split <;> simp⟩
  | _ => simp_all

/-- A worker that is stopped outside of its loop performs no unit any more. -/
theorem Run.no_call_of_retired (run : Run work (.empty freeze shared) h m)
    (hr : m.IsRetired s) (rest : Run work m h' m') :
    m'.IsRetired s ∧ ∀ y ∈ h', y.at s ≠ .called := by
  induction rest with
  | start => exact ⟨hr, by simp⟩
  | @next h' m₁ m₂ e rest hs ih =>
    obtain ⟨⟨w, hw, hst, hp⟩, hno⟩ := ih
    obtain ⟨w', hw', hstep⟩ := (run.trans rest).step_of_worker hs hw
    obtain ⟨hp', hcalled⟩ := hstep.retired hst hp
    refine ⟨⟨w', hw', hstep.stopped hst, hp'⟩, fun y hy => ?_⟩
    rcases List.mem_cons.mp hy with rfl | hy
    · exact hcalled
    · exact hno y hy

/-- A stop that is called before the launch is about to answer: nobody that is registered by then
performs a unit. -/
theorem Run.isRetired_of_stopping (run : Run work (.empty freeze shared) h m)
    (hl : m.launched = false) (hcall : (m.caller t).call = .stopping []) (hslot : s ∈ m.slots) :
    m.IsRetired s := by
  obtain ⟨w, hw, hst⟩ := (run.isStopped_of_stopping hcall s hslot).resolve_left (by simp)
  exact ⟨w, hw, hst, .inl ((run.coherent.unborn hl).2 s _ (Machine.point?_of_worker? hw))⟩

/-! ## What is left after a stop -/

/-- A worker that performs two units after a stop has been handed quota by a start that was under way
already when the flag was raised. -/
theorem Run.overtaken_of_calls (run : Run work (.empty freeze shared) h m)
    (hcall : (m.caller t).call = .stopping []) (rest : Run work m h' m') (hslot : s ∈ m.slots)
    (hcalls : 1 < h'.countP fun y => y.at s = .called) :
    ∃ g r g', h = g ++ r :: g' ∧ r.raises t = true ∧ r.before.starting ≠ 0 ∧
      ∃ y ∈ h' ++ g, y.hands s = true := by
  cases hl : m.launched with
  | false =>
    -- before the launch it has stopped everyone outside of the loop
    have hno := (run.no_call_of_retired (run.isRetired_of_stopping hl hcall hslot) rest).2
    rw [List.countP_eq_zero.mpr (by simpa using hno)] at hcalls
    cases hcalls
  | true =>
    obtain ⟨g, r, g', rfl, hr, -, -, hquiet, hall⟩ := stop_leaves_one_unit run hl hcall rest
    obtain ⟨k, z, k', rfl, -, hle⟩ := hall s hslot
    obtain ⟨y, hy, hhands⟩ : ∃ y ∈ h' ++ k, y.hands s = true := by
      by_contra hno
      push Not at hno
      have hcount := hle fun y hy => by simpa using hno y hy
      rw [List.countP_append] at hcount
      omega
    have hmem : y ∈ h' ++ (k ++ z :: k') := by
      rw [← List.append_assoc]
      exact List.mem_append_left _ hy
    refine ⟨_, r, g', rfl, hr, fun hzero => ?_, y, hmem, hhands⟩
    rw [hquiet hzero y hmem s] at hhands
    cases hhands

theorem Machine.slots_of_stopped (hs : m.step work e = some m')
    (hcall : (m.caller t).call = .stopping []) (he : e = .call t) : m'.slots = m.slots := by
  subst he
  simp only [step, stepCall, hcall, Option.some.injEq] at hs
  subst hs
  simp [reply]

/-- A writer has found that it is not stopped, and a thread that the trial may be started, when
another thread stops all workers; the first one then hands out the quota, and the writer performs
its units. -/
def overtakenStop : List (Machine.Event Unit) := List.flatten [
  [.register .writer .writer (), .launch, .worker ⟨.writer, 0⟩, .invoke .controlling (.run 2)],
  .replicate 2 (.call .controlling),
  [.invoke .other .stop],
  .replicate 4 (.call .other),
  .replicate 3 (.call .controlling),
  .replicate 4 (.worker ⟨.writer, 0⟩),
  [.finish ⟨.writer, 0⟩],
  .replicate 3 (.worker ⟨.writer, 0⟩)]

/-- A thread stops all workers before the launch; after that a second writer is registered, and
performs its units. -/
def lateWriter : List (Machine.Event Unit) := List.flatten [
  [.register .writer .writer (), .invoke .other .stop],
  .replicate 3 (.call .other),
  [.register .writer .writer (), .launch, .invoke .controlling (.run 4)],
  .replicate 7 (.call .controlling),
  .replicate 5 (.worker ⟨.writer, 1⟩),
  [.finish ⟨.writer, 1⟩],
  .replicate 3 (.worker ⟨.writer, 1⟩)]

/-- After a stop of another thread has answered, the worker in a slot calls so many units. -/
def CallsAfterStop (h : History U S) (s : Slot) (units : Nat) : Prop :=
  ∃ h₁ x h₂, h = h₁ ++ x :: h₂ ∧ (x.before.caller .other).call = .stopping [] ∧
    x.Answers .other (.ok .done) ∧ h₁.countP (fun y => y.at s = .called) = units

theorem callsAfterStop_of_split {h : History U S} (n units : Nat) (hn : n < h.length)
    (hcall : (h[n].before.caller .other).call = .stopping [])
    (hx : h[n].Answers .other (.ok .done))
    (hcalls : (h.take n).countP (fun y => y.at s = .called) = units) : CallsAfterStop h s units := by
  refine ⟨_, h[n], h.drop (n + 1), ?_, hcall, hx, hcalls⟩
  rw [← List.drop_eq_getElem_cons, List.take_append_drop]

end SpeedTrial.Trial
