import SpeedTrial.Proofs.Trial.Requests
import SpeedTrial.Proofs.Trial.Ledger

/-!
# What a dead worker leaves behind

A unit of work that panics ends the thread of its worker.  The worker was inside a unit, so that its
report of the trial was still expected, and it never delivers one: the trial goes on for ever.

* `Casualty`: a worker is dead in a trial, after so many units that returned.
* `Run.casualty`: this is so from the panic on, whatever happens.
* `Casualty.running`: until then and for ever the trial is running.
* `dead_worker_ends_measuring`: no wait succeeds again, every reset finds the trial in flight, no
  other trial is run, and the unit that panicked is counted nowhere.
-/

namespace SpeedTrial.Trial

variable {U S : Type} {work : U → S → U × S} {freeze : FreezeScope} {shared : S}
  {h h' : History U S} {m m' : Machine U S} {e : Machine.Event U} {s : Slot} {trial units : Nat}

/-! ## The dead -/

/-- Nobody loses its slot. -/
theorem Machine.Move.exists_worker (hm : Machine.Move work m e m') {w : Worker U}
    (hw : m.worker? s = some w) : ∃ w', m'.worker? s = some w' := by
  cases hm with
  | register => exact ⟨w, m.worker?_enrol_of_some _ _ hw⟩
  | fail => exact ⟨w, hw⟩
  | _ => simp [hw]

/-- One more event is a step of the view of a worker that is there. -/
theorem Run.step_of_worker (run : Run work (.empty freeze shared) h m)
    (hs : m.step work e = some m') {w : Worker U} (hw : m.worker? s = some w) :
    ∃ w', m'.worker? s = some w' ∧
      View.Step (m.view s w) (Moment.at ⟨m, e, m'⟩ s) (m'.view s w') := by
  obtain ⟨w', hw'⟩ := (Machine.Move.of_step hs).exists_worker hw
  rcases run.step_view hs hw' with ⟨w₁, hw₁, hstep⟩ | ⟨hnone, -⟩
  · obtain rfl : w = w₁ := Option.some.inj (hw.symm.trans hw₁)
    exact ⟨w', hw', hstep⟩
  · rw [hw] at hnone
    cases hnone

/-- A dead worker returns from nothing. -/
theorem View.Step.not_returned {v v' : View} {y : Happening} (hs : View.Step v y v')
    (hd : v.point = .dead) : y ≠ .returned := by
  cases hs with
  | own => simp [hd, Point.meaning]
  | returned hp => simp [hd] at hp
  | halt => split <;> simp
  | _ => simp

/-- The report of a dead worker is still expected. -/
theorem Run.owes_of_dead (run : Run work (.empty freeze shared) h m) {w : Worker U}
    (hw : m.worker? s = some w) (hd : w.point = .dead) : (m.view s w).Owes := by
  have hpt := (run.orderly s w hw).point
  rwa [show (m.view s w).point = .dead from hd] at hpt

/-- A worker is dead in a trial, after so many units that returned. -/
structure Casualty (s : Slot) (trial units : Nat) (h : History U S) (m : Machine U S) : Prop where
  worker : ∃ w, m.worker? s = some w ∧ w.point = .dead
  trial_eq : m.tally.trial = trial
  returned_eq : returned s h = units

namespace Casualty

variable (hcas : Casualty s trial units h m) (run : Run work (.empty freeze shared) h m)

include hcas run

theorem running : m.tally.phase = .running := by
  obtain ⟨w, hw, hd⟩ := hcas.worker
  exact (run.owes_of_dead hw hd).1

/-- No trial begins. -/
theorem begins?_eq_none (hs : m.step work e = some m') :
    Moment.begins? ⟨m, e, m'⟩ = none := by
  cases hb : Moment.begins? ⟨m, e, m'⟩ with
  | none => rfl
  | some b =>
    obtain ⟨-, -, hready, -⟩ := tally_of_begins? hs hb
    rw [hcas.running run] at hready
    cases hready

theorem next (hs : m.step work e = some m') : Casualty s trial units (⟨m, e, m'⟩ :: h) m' := by
  obtain ⟨w, hw, hd⟩ := hcas.worker
  have hb := hcas.begins?_eq_none run hs
  -- what happens to the worker does not wake it up
  obtain ⟨w', hw', hstep⟩ := run.step_of_worker hs hw
  have hd' : w'.point = .dead := hstep.dead_of_dead hd
  have hphase : m'.tally.phase = .running := ((run.next hs).owes_of_dead hw' hd').1
  obtain ⟨htrial, -⟩ := frame_of_not_begun run.coherent hs hb (by rw [hphase]; simp)
  refine ⟨⟨w', hw', hd'⟩, htrial.trans hcas.trial_eq, ?_⟩
  have hno := hstep.not_returned hd
  rw [returned, current_cons_of_none h hb, List.countP_cons, if_neg (by simpa using hno)]
  exact hcas.returned_eq

/-- No reset ends. -/
theorem not_resets (hs : m.step work e = some m') : ¬ Moment.Resets ⟨m, e, m'⟩ := by
  intro hr
  have hready : m'.tally.phase = .ready := phase_of_resets hs hr
  rw [(hcas.next run hs).running (run.next hs)] at hready
  cases hready

/-- The worker has published the units that returned, and nothing is counted for it. -/
theorem uncounted :
    (∃ w, m.worker? s = some w ∧ w.point = .dead ∧ w.control.completed = units) ∧
      contributions s h = [] := by
  obtain ⟨w, hw, hd⟩ := hcas.worker
  have howes := run.owes_of_dead hw hd
  have hacc := run.accounted s w hw
  refine ⟨⟨w, hw, hd, ?_⟩, by rw [← account_counts, hacc.counts_eq_nil howes]⟩
  have hunits := hacc.units_eq howes
  rw [account_units, hcas.returned_eq] at hunits
  simpa [View.performed, Machine.view, hd, Point.performed] using hunits.symm

end Casualty

/-- A worker whose unit panics is dead in the trial that is running, and nothing else happens. -/
theorem casualty_of_panic (hs : m.step work (.panic s) = some m') :
    Casualty s m.tally.trial (returned s h) (⟨m, .panic s, m'⟩ :: h) m' ∧
      m'.tally = m.tally ∧ ∀ t, m'.caller t = m.caller t := by
  cases Machine.Move.of_step hs with
  | @panic _ w done hw hp =>
    refine ⟨⟨⟨w.goTo .dead, by simp [hw], rfl⟩, by simp, ?_⟩, by simp, by simp⟩
    rw [returned, current_cons_of_none h rfl, List.countP_cons]
    simp [returned, Moment.at, Moment.begins?]
  | ask he => rcases he with he | ⟨op, he⟩ <;> cases he
  | fail he => rcases he with he | ⟨expected, actual, unit, he⟩ <;> cases he

/-- A worker that is dead stays so. -/
theorem Run.casualty (run : Run work (.empty freeze shared) h m)
    (hcas : Casualty s trial units h m) (rest : Run work m h' m') :
    Casualty s trial units (h' ++ h) m' := by
  induction rest with
  | start => exact hcas
  | next rest hs ih => exact ih.next (run.trans rest) hs

/-- From the panic of a unit on its worker is dead in the trial that was running. -/
theorem Run.casualty_since {h₁ h₂ : History U S} {x : Moment U S}
    (run : Run work (.empty freeze shared) (h₁ ++ x :: h₂) m) (hx : x.event = .panic s) :
    Casualty s x.before.tally.trial (returned s h₂) (h₁ ++ x :: h₂) m := by
  obtain ⟨m₁, run₁, rest⟩ := run.split
  obtain ⟨-, hs, rfl⟩ := run₁.next_inv
  obtain ⟨hcas, -, -⟩ := casualty_of_panic (h := h₂) (hx ▸ hs)
  rw [← hx] at hcas
  exact run₁.casualty hcas rest

/-! ## What can still be answered -/

/-- While a trial is running for ever, whoever hands out quota has done so from the start. -/
theorem Run.resuming_since (run : Run work (.empty freeze shared) h m)
    (hcas : Casualty s trial units h m) (rest : Run work m h' m') {t : Thread} {quota : Nat}
    {todo : List (Slot × Access)} (hcall : (m'.caller t).call = .resuming quota todo) :
    asked? t h' = none ∧ ∃ todo, (m.caller t).call = .resuming quota todo := by
  induction rest generalizing todo with
  | start => exact ⟨rfl, todo, hcall⟩
  | @next h' m₁ m₂ e rest hs ih =>
    have run₁ := run.trans rest
    have hb := (run.casualty hcas rest).begins?_eq_none run₁ hs
    -- nobody comes to hand out quota but by the beginning of a trial
    have hbefore : (∀ op, e ≠ .invoke t op) ∧ ∃ todo, (m₁.caller t).call = .resuming quota todo := by
      cases Machine.Move.of_step hs with
      | @hand t' quota' s' a todo' hcall' =>
        by_cases ht : t = t'
        · subst ht
          obtain ⟨rfl, rfl⟩ : quota' = quota ∧ todo' = todo := by simpa using hcall
          exact ⟨by simp, _, hcall'⟩
        · exact ⟨by simp, todo, by simpa [ht] using hcall⟩
      | begin hcall' => simp [Moment.begins?, hcall'] at hb
      | @ask t' _ c he hh hh' =>
        have ht : t ≠ t' := by
          rintro rfl
          rw [Machine.caller_setCaller, if_pos rfl] at hcall
          rw [hcall] at hh'
          cases hh'
        refine ⟨?_, todo, by simpa [ht] using hcall⟩
        rintro op rfl
        rcases he with he | ⟨op', he⟩
        · cases he
        · exact ht (by cases he; rfl)
      | fail he => exact ⟨by rcases he with rfl | ⟨_, _, _, rfl⟩ <;> simp, todo, hcall⟩
      | _ =>
        refine ⟨by simp, todo, ?_⟩
        simp at hcall ⊢
        grind
    obtain ⟨hinvoke, todo₁, hcall₁⟩ := hbefore
    obtain ⟨hask, hfirst⟩ := ih hcall₁
    refine ⟨?_, hfirst⟩
    rw [asked?_cons_of_none, hask]
    unfold Moment.asks?
    grind

/-- What an operation is answered in a trial that is running for ever. -/
def Operation.InVain (trial : Nat) (a : Except TrialError Answer) : Operation → Prop
  | .run _ => a = .error (.inFlight trial) ∨ a = .error (.stopped trial)
  | .wait _ => ∃ err, a = .error err
  | .reset => a = .error (.inFlight trial)
  | .stop => True

/-- Every operation is in vain, but for one that was about to say that it has begun the trial. -/
theorem Casualty.in_vain (hcas : Casualty s trial units h m)
    (run : Run work (.empty freeze shared) h m) (hs : m.step work e = some m') {t : Thread}
    {a : Except TrialError Answer} (ha : Moment.Answers ⟨m, e, m'⟩ t a) :
    ∃ op, asked? t (⟨m, e, m'⟩ :: h) = some op ∧
      (op.InVain trial a ∨
        ∃ quota, (m.caller t).call = .resuming quota [] ∧ a = .ok (.quota quota)) := by
  obtain ⟨op, hop, hreply⟩ := run.replies hs ha
  have hph := hcas.running run
  have hstaffed := run.coherent.staffed (by rw [hph]; simp)
  refine ⟨op, hop, ?_⟩
  cases hreply with
  | ran hcall => exact .inr ⟨_, hcall, rfl⟩
  | taken hno => exact absurd hph hno
  | waited hcomplete =>
    rw [hph] at hcomplete
    cases hcomplete
  | stopped => exact .inl trivial
  | gaveUp => exact .inl ⟨_, rfl⟩
  | early hor =>
    -- a trial that is running was launched, and has a writer
    rcases hor with hl | hw
    · rw [hstaffed.1] at hl
      cases hl
    · exact absurd hw hstaffed.2
  | refused href =>
    left
    rw [← hcas.trial_eq]
    cases href with
    | stopped => exact .inr rfl
    | inFlight => exact .inl rfl
    | resetInFlight => exact rfl
    | resetRequired hcomplete =>
      rw [hph] at hcomplete
      cases hcomplete
    | busy hno => exact absurd hph hno

/-- For each worker of a running trial nothing is counted yet, or the units that returned. -/
theorem Run.counted_or_not (run : Run work (.empty freeze shared) h m)
    (hph : m.tally.phase = .running) {w : Worker U} (hw : m.worker? s = some w) :
    contributions s h = [] ∨ contributions s h = [returned s h] := by
  have hacc := run.accounted s w hw
  rw [← account_counts, ← account_units]
  by_cases hp : ∃ trial done todo, (m.view s w).point = .freezing trial done todo
  · -- a report that is being delivered is not counted yet
    obtain ⟨trial, done, todo, hp⟩ := hp
    exact .inl (hacc.delivering trial done todo hp).1
  · push Not at hp
    cases hrep : (m.view s w).reported with
    | false => exact .inl (hacc.counts_eq_nil ⟨hph, hrep⟩)
    | true =>
      have hne : (m.view s w).phase ≠ .ready := by
        show m.tally.phase ≠ .ready
        simp [hph]
      obtain ⟨n, hn, hsettles⟩ := hacc.settled hne hrep hp
      exact .inr (by rw [hn, hsettles.units])

/-! ## No more measurements -/

/-- Once a unit of work has panicked, the trial in which it did is running for ever and no other one
begins.  No wait succeeds, every reset is refused since the trial is in flight, and so is every run
but the one that has begun the trial and is about to say so.  The dead worker has published the units
that returned before, and nothing is counted for it; what is counted for others are units that
returned. -/
theorem dead_worker_ends_measuring {h₁ h₂ : History U S} {x : Moment U S}
    (run : Run work (.empty freeze shared) (h₁ ++ x :: h₂) m) (hx : x.event = .panic s) :
    (x.before.tally.phase = .running ∧
      ∀ y ∈ h₁ ++ [x], y.after.tally.phase = .running ∧
        y.after.tally.trial = x.before.tally.trial ∧ y.begins? = none ∧ ¬ y.Resets) ∧
    (∀ h₃ y h₄ t a, h₁ = h₃ ++ y :: h₄ → y.Answers t a →
      ∃ op, asked? t (y :: (h₄ ++ x :: h₂)) = some op ∧
        (op.InVain x.before.tally.trial a ∨
          asked? t (y :: h₄) = none ∧ ∃ quota todo,
            (x.before.caller t).call = .resuming quota todo ∧ a = .ok (.quota quota))) ∧
    (∃ w, m.worker? s = some w ∧ w.point = .dead ∧ w.control.completed = returned s h₂) ∧
    contributions s (h₁ ++ x :: h₂) = [] ∧
    (∀ r, m.tally.opsOf r =
      ∑ i ∈ Finset.range (m.workers r).length, (contributions ⟨r, i⟩ (h₁ ++ x :: h₂)).sum) ∧
    ∀ s' w, m.worker? s' = some w →
      contributions s' (h₁ ++ x :: h₂) = [] ∨
        contributions s' (h₁ ++ x :: h₂) = [returned s' (h₁ ++ x :: h₂)] := by
  have hcas := run.casualty_since hx
  obtain ⟨⟨w, hw, hd, hunits⟩, hnone⟩ := hcas.uncounted run
  have hph := hcas.running run
  have hledger := run.ledger (by rw [hph]; simp)
  -- the panic itself changes neither the tally nor where the callers stand
  obtain ⟨run₂, hs⟩ := run.of_append
  have run₁ : Run work (.empty freeze shared) ([] ++ x :: h₂) x.after := run₂.next hs
  obtain ⟨-, htally, hcallers⟩ := casualty_of_panic (h := h₂) (hx ▸ hs)
  have hstart : x.before.tally.phase = .running := by
    rw [← htally]
    exact (run₁.casualty_since hx).running run₁
  refine ⟨⟨hstart, fun y hy => ?_⟩, fun h₃ y h₄ t a heq ha => ?_, ⟨w, hw, hd, hunits⟩, hnone,
    hledger.ops, fun s' w' hw' => run.counted_or_not hph hw'⟩
  · rcases List.mem_append.mp hy with hy | hy
    · obtain ⟨h₃, h₄, rfl⟩ := List.append_of_mem hy
      rw [List.append_assoc, List.cons_append] at run
      obtain ⟨run₄, hs₄⟩ := run.of_append
      have hcas₄ := run₄.casualty_since hx
      have hnext := hcas₄.next run₄ hs₄
      exact ⟨hnext.running (run₄.next hs₄), hnext.trial_eq, hcas₄.begins?_eq_none run₄ hs₄,
        hcas₄.not_resets run₄ hs₄⟩
    · obtain rfl := List.mem_singleton.mp hy
      refine ⟨htally ▸ hstart, by rw [htally], by simp [Moment.begins?, hx], ?_⟩
      rintro ⟨t, kept, -, he | ⟨op, he⟩, -⟩ <;> rw [hx] at he <;> cases he
  · subst heq
    rw [List.append_assoc, List.cons_append] at run
    obtain ⟨run₄, hs₄⟩ := run.of_append
    obtain ⟨op, hop, hvain | ⟨quota, hcall, rfl⟩⟩ := (run₄.casualty_since hx).in_vain run₄ hs₄ ha
    · exact ⟨op, hop, .inl hvain⟩
    · -- whoever hands out quota now did so when the unit panicked, and has asked for nothing since
      obtain ⟨m₁, run₅, rest⟩ := run₄.split
      obtain ⟨-, -, rfl⟩ := run₅.next_inv
      obtain ⟨hask, todo, hcall₁⟩ := run₅.resuming_since (run₁.casualty_since hx) rest hcall
      have hquiet : y.asks? t = none := Machine.asks?_of_busy hs₄ (by rw [hcall]; simp)
      refine ⟨op, hop, .inr ⟨by rw [asked?_cons_of_none hquiet, hask], quota, todo, ?_, rfl⟩⟩
      rw [← hcallers t, hcall₁]

/-- Of two writers the first panics in its unit.  The other performs its unit, and freezes the dead
one when it reports.  Then the caller asks for a reset. -/
def panicTrial : List (Machine.Event Unit) := List.flatten [
  [.register .writer .writer (), .register .writer .writer (), .launch,
    .invoke .controlling (.run 2)],
  .replicate 7 (.call .controlling),
  .replicate 5 (.worker ⟨.writer, 0⟩),
  [.panic ⟨.writer, 0⟩],
  .replicate 5 (.worker ⟨.writer, 1⟩),
  [.finish ⟨.writer, 1⟩],
  .replicate 10 (.worker ⟨.writer, 1⟩),
  [.invoke .controlling .reset],
  .replicate 2 (.call .controlling)]

theorem dead_worker_ends_measuring_panicTrial :
    let h := (Machine.empty .everyone ()).historyFrom idleWork [] panicTrial
    ∃ m h₁ x h₂, Run idleWork (.empty .everyone ()) h m ∧ h = h₁ ++ x :: h₂ ∧
      x.event = .panic ⟨.writer, 0⟩ ∧ m.tally.writerOps = 1 ∧
      (∀ y ∈ h₁ ++ [x], y.after.tally.phase = .running ∧ ¬ y.Resets) ∧
      contributions ⟨.writer, 0⟩ h = [] ∧ (∃ y ∈ h₁, y.Answers .controlling (.error (.inFlight 1))) := by
  intro h
  have hend : ((Machine.empty .everyone ()).steps idleWork panicTrial).map
      (fun m => (m.tally.writerOps, m.tally.trial)) = some (1, 1) := rfl
  obtain ⟨m, run, heq⟩ := Run.exists_of_map hend
  simp only [Prod.mk.injEq] at heq
  -- nineteen events follow the panic
  have hlen : 19 < h.length := by decide
  have hsplit : h = h.take 19 ++ h[19] :: h.drop 20 := by
    rw [← List.drop_eq_getElem_cons, List.take_append_drop]
  have hpanic : h[19].event = .panic ⟨.writer, 0⟩ := rfl
  have run' : Run idleWork (.empty .everyone ()) (h.take 19 ++ h[19] :: h.drop 20) m := by
    rw [← hsplit]
    exact run
  obtain ⟨⟨-, hrunning⟩, -, -, hnone, -⟩ := dead_worker_ends_measuring run' hpanic
  have hpos : 0 < (h.take 19).length := by decide
  refine ⟨m, h.take 19, h[19], h.drop 20, run, hsplit, hpanic, heq.1, fun y hy => ?_, ?_, ?_⟩
  · obtain ⟨hph, -, -, hno⟩ := hrunning y hy
    exact ⟨hph, hno⟩
  · rw [hsplit, hnone]
  · exact ⟨(h.take 19)[0], List.getElem_mem hpos, .inl rfl, rfl⟩

end SpeedTrial.Trial
