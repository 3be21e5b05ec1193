import SpeedTrial.Proofs.Profile.Crew
import SpeedTrial.Proofs.Trial.Ledger

/-!
# Units that return late

A trial empties the sketch before the workers are taken back.  If the trial before it was given up,
a unit of that trial may return in between: it acts on the emptied sketch, and its writer has
started its stream again before the trial begins.

* `trial_replays_streams`: the words of a trial come behind those that were drawn late, and the
  sketch has both; if none was drawn late, as after a trial that succeeded, the trial replays its
  streams.
* `late_unit_joins_trial`: a session in which a unit of a trial that was given up is the first of
  the next trial.
-/

namespace SpeedTrial.Trial

variable {U S : Type} {work : U → S → U × S} {freeze : FreezeScope} {shared : S}
  {h h' : History U S} {m m' : Machine U S} {e : Machine.Event U}

/-! ## Outside a trial -/

/-- Nobody is inside a unit unless a trial is running. -/
theorem Run.not_inUnit (run : Run work (.empty freeze shared) h m) (hph : m.tally.phase ≠ .running)
    {s : Slot} {w : Worker U} (hw : m.worker? s = some w) : w.point.isInUnit = false := by
  have hidle := (run.orderly s w hw).not_working fun howes => hph howes.1
  change w.point.isWorking = false at hidle
  cases hp : w.point <;> simp [hp, Point.isWorking, Point.isInUnit] at hidle ⊢

/-- No trial is running before one begins. -/
theorem Machine.Coherent.not_running_of_step (hc : m.Coherent) (hs : m.step work e = some m')
    (hb : Moment.begins? ⟨m, e, m'⟩ = none) (hph : m.tally.phase ≠ .running) :
    m'.tally.phase ≠ .running := by
  -- The phase can only become running where a trial begins.
  cases Machine.Move.of_step hs with
  | count hw hp => exact absurd (hc.running_of_freezing hw hp) hph
  | begin hcall => simp [Moment.begins?, hcall] at hb
  | launch => simp [Tally.fresh]
  | endReset => simp [Tally.reset]
  | fail => exact hph
  | _ => simpa using hph

/-- As long as no trial is running and none begins no unit returns. -/
theorem Run.no_finish (run : Run work (.empty freeze shared) h m) (hph : m.tally.phase ≠ .running)
    (rest : Run work m h' m') (hb : ∀ x ∈ h', x.begins? = none) :
    m'.tally.phase ≠ .running ∧ ∀ x ∈ h', ∀ s, x.event ≠ .finish s := by
  -- By induction on the rest of the run: with no trial running nobody is inside a unit.
  induction rest with
  | start => exact ⟨hph, by simp⟩
  | @next h' m₁ m₂ e rest hs ih =>
    obtain ⟨hph₁, hnone⟩ := ih fun x hx => hb x (List.mem_cons_of_mem _ hx)
    have run₁ := run.trans rest
    refine ⟨run₁.coherent.not_running_of_step hs (hb _ (List.mem_cons_self ..)) hph₁, ?_⟩
    refine List.forall_mem_cons.mpr ⟨?_, hnone⟩
    rintro s rfl
    cases Machine.Move.of_step hs with
    | finish hw hp =>
      have hno := run₁.not_inUnit hph₁ hw
      simp [hp, Point.isInUnit] at hno
    | fail he => rcases he with he | ⟨_, _, _, he⟩ <;> cases he
    | ask he => rcases he with he | ⟨_, he⟩ <;> cases he

end SpeedTrial.Trial

namespace SpeedTrial.Profile.Session

open SpeedTrial.Trial SpeedTrial.Sketch
open SpeedTrial.Stream.Supply (words)

variable {E : Type} [Accumulator E] {c : Settings} {s s' : Session E} {h h' : History E}
  {x : Moment E} {updates : Nat}

/-! ## Between the emptying and the beginning -/

/-- As long as no trial is running and none begins nothing is drawn. -/
theorem Run.no_drawing {s₁ : Session E} (run : Run (opening c) h s₁) (rest : Run s₁ h' s)
    (hph : s₁.workshop.tally.phase ≠ .running) (hb : Unbegun h') :
    s.workshop.tally.phase ≠ .running ∧ ∀ x ∈ h', x.drawing? = none := by
  obtain ⟨g, rung, -⟩ := Workshop.exists_run_outline_started (E := E) c
  obtain ⟨hph', hnone⟩ :=
    (run.outline rung).no_finish hph (rest.outline .start) (by simpa using hb.trace)
  refine ⟨hph', fun x hx => drawing?_eq_none fun slot he => ?_⟩
  have hmem : ⟨Machine.outline x.before.workshop, .finish slot, Machine.outline x.after.workshop⟩ ∈
      trace h' := by
    refine List.mem_filterMap.mpr ⟨x, hx, ?_⟩
    simp [Moment.outline?, Moment.trace?, he, Machine.Event.outline]
  exact hnone _ (by simpa using hmem) slot rfl

/-- If no trial has failed, none is running while the thread that runs them rests. -/
theorem Run.not_running (run : Run (opening c) h s) (hst : s.stage = .resting)
    (hok : ∀ err, s.outcome ≠ some (.error err)) : s.workshop.tally.phase ≠ .running := by
  -- before the first trial none has begun, and a trial that did not fail is complete
  cases hasked : asked? h with
  | none => exact (Run.no_drawing .start run (by simp [opening, Workshop.started, Tally.fresh])
      (run.unbegun hasked)).1
  | some updates =>
    cases run.course hasked with
    | ended _ _ _ hph => simp [hph]
    | failed _ herr => exact absurd herr (hok _)
    | clearing h | asking h | handing h | waiting h => simp [hst] at h

omit [Accumulator E] in
/-- The part of a history since the sketch was emptied is behind the moment at which it was. -/
theorem eq_sinceEmptied_append (hasked : asked? h = some updates) :
    ∃ x before, h = sinceEmptied h ++ x :: before ∧ x.asks? = some updates ∧
      ∀ y ∈ sinceEmptied h, y.asks? = none := by
  induction h with
  | nil => cases hasked
  | cons y h ih =>
    cases hy : y.asks? with
    | some u =>
      have hu : u = updates := by simpa [asked?, hy] using hasked
      exact ⟨y, h, by simp [sinceEmptied_cons_of_some hy], by rw [hy, hu],
        by simp [sinceEmptied_cons_of_some hy]⟩
    | none =>
      obtain ⟨x, before, heq, hx, hnone⟩ := ih (by simpa [asked?, hy] using hasked)
      rw [sinceEmptied_cons_of_none hy]
      exact ⟨x, before, by rw [List.cons_append, ← heq], hx, List.forall_mem_cons.mpr ⟨hy, hnone⟩⟩

/-! ## The last trial -/

/-- The trial that was asked for last, in a history: at moment `x` the sketch was emptied, and at
moment `z` the trial began, with as many updates as were asked for. -/
structure LastTrial (h after cleared : History E) (x z : Moment E) : Prop where
  eq : ∃ before, h = after ++ z :: (cleared ++ x :: before)
  begins : ∃ b, z.begins? = some b ∧ x.asks? = some b.total
  unasked : ∀ y ∈ after ++ z :: cleared, y.asks? = none
  unbegun : Unbegun after ∧ Unbegun cleared

/-- A trial that succeeded has begun. -/
theorem Run.lastTrial (run : Run (opening c) h s) {sample : Stats.Sample}
    (hok : s.outcome = some (.ok sample)) : ∃ after cleared x z, LastTrial h after cleared x z := by
  obtain ⟨updates, hasked, ⟨after, z, cleared, b, hsince, hz, rfl, hafter, hcleared⟩, -⟩ :=
    run.ended hok
  obtain ⟨x, before, heq, hx, hnone⟩ := eq_sinceEmptied_append hasked
  rw [hsince] at heq hnone
  exact ⟨after, cleared, x, z, ⟨before, by simpa using heq⟩, ⟨b, hz, hx⟩, hnone, hafter, hcleared⟩

section lastTrial

variable {after cleared : History E} {z : Moment E}

omit [Accumulator E] in
theorem LastTrial.asked (hl : LastTrial h after cleared x z) :
    ∃ b, z.begins? = some b ∧ asked? h = some b.total := by
  obtain ⟨⟨before, rfl⟩, ⟨b, hz, hx⟩, hnone, -⟩ := hl
  refine ⟨b, hz, ?_⟩
  rw [← List.cons_append, ← List.append_assoc, asked?, List.findSome?_append,
    List.findSome?_eq_none_iff.mpr hnone]
  simp [hx]

omit [Accumulator E] in
theorem LastTrial.sinceEmptied (hl : LastTrial h after cleared x z) :
    sinceEmptied h = after ++ z :: cleared := by
  obtain ⟨⟨before, rfl⟩, ⟨b, -, hx⟩, hnone, -⟩ := hl
  rw [← List.cons_append, ← List.append_assoc, Session.sinceEmptied, List.takeWhile_append_of_pos]
  · simp [hx]
  · exact fun y hy => by simp [hnone y hy]

omit [Accumulator E] in
/-- A moment at which a trial begins draws nothing. -/
theorem drawing?_of_begins {b : Beginning} (hz : z.begins? = some b) : z.drawing? = none := by
  refine drawing?_eq_none fun slot he => ?_
  simp [Moment.begins?, Moment.outline?, Moment.trace?, he, Machine.Event.outline,
    Trial.Moment.begins?] at hz

omit [Accumulator E] in
theorem LastTrial.drawn (hl : LastTrial h after cleared x z) (i : Nat) :
    drawn i (Session.sinceEmptied h) = drawn i cleared ++ drawn i after := by
  obtain ⟨b, hz, -⟩ := hl.begins
  rw [hl.sinceEmptied, drawn_append, drawn_cons_of_none i (drawing?_of_begins hz)]

/-- Nobody is inside a unit when a trial begins. -/
theorem LastTrial.not_inUnit (hl : LastTrial h after cleared x z) (run : Run (opening c) h s)
    {slot : Slot} {k : Worker (WorkUnit E)}
    (hk : Machine.worker? z.before.workshop slot = some k) : k.point.isInUnit = false := by
  -- a trial begins only where the tally is ready, and there nobody works
  obtain ⟨g, rung, -⟩ := Workshop.exists_run_outline_started (E := E) c
  obtain ⟨⟨before, rfl⟩, ⟨b, hz, -⟩, -, -⟩ := hl
  obtain ⟨s₁, run₁, -⟩ := run.split
  obtain ⟨run₀, hs, -⟩ := run₁.next_inv
  have hstep := step_trace hs
  simp only [Moment.begins?, Moment.outline?, Option.bind_map] at hz
  obtain ⟨e, he, hb⟩ := Option.bind_eq_some_iff.mp hz
  rw [show (⟨z.before, z.event, z.after⟩ : Moment E) = z from rfl, he] at hstep
  obtain ⟨-, -, hready, -⟩ := tally_of_begins? hstep hb
  refine (run₀.outline rung).not_inUnit (w := k.outline) (s := slot) ?_ ?_
  · rw [hready]
    simp
  · rw [Machine.worker?_outline, hk]
    rfl

/-- Unless a trial is running when the sketch is emptied, nothing is drawn before the next one
begins. -/
theorem LastTrial.drawn_cleared (hl : LastTrial h after cleared x z) (run : Run (opening c) h s)
    (hph : x.before.workshop.tally.phase ≠ .running) (i : Nat) : Session.drawn i cleared = [] := by
  -- nobody works when the sketch is emptied, and nobody can begin to until the next trial begins
  obtain ⟨⟨before, rfl⟩, ⟨b, -, hx⟩, -, -, hcleared⟩ := hl
  obtain ⟨s₁, run₁, -⟩ := run.split
  obtain ⟨s₂, run₂, rest⟩ := run₁.next_inv.1.split
  obtain ⟨run₀, hs, rfl⟩ := run₂.next_inv
  have hxb : x.begins? = none := by
    unfold Moment.asks? at hx
    split at hx
    · next he => exact begins?_of_invoke .controlling .reset (by simp [Moment.trace?, he])
    · cases hx
  have hafter := (run₀.no_drawing (Run.start.next hs) hph (by simpa [Unbegun] using hxb)).1
  obtain ⟨-, hnone⟩ := run₂.no_drawing rest hafter hcleared
  simp only [Session.drawn, drawings, List.filterMap_eq_nil_iff.mpr hnone]
  rfl

/-- No trial is running when the sketch is emptied, unless the trial before failed. -/
theorem LastTrial.not_running (hl : LastTrial h after cleared x z) (run : Run (opening c) h s)
    (hok : ∀ err, x.before.outcome ≠ some (.error err)) :
    x.before.workshop.tally.phase ≠ .running := by
  obtain ⟨⟨before, rfl⟩, ⟨b, -, hx⟩, -⟩ := hl
  obtain ⟨s₁, run₁, -⟩ := run.split
  obtain ⟨s₂, run₂, -⟩ := run₁.next_inv.1.split
  obtain ⟨run₀, hs, -⟩ := run₂.next_inv
  refine run₀.not_running ?_ hok
  unfold Moment.asks? at hx
  split at hx
  · next he =>
    rw [he] at hs
    exact (ask_eq_some hs).1
  · cases hx

end lastTrial

/-! ## What the last trial draws -/

/-- A successful trial.  Its sketch was emptied at a moment `x`, and it began at a later moment `z`
with nobody inside a unit.  What the writers drew in between comes from units of earlier trials: the
words of the trial come behind them in the streams, and the sketch has what is visible of both.  If
nothing was drawn in between, each writer has drawn the first words of its stream in the trial, and
the sketch has what is visible of these and nothing else.  So it is if no trial was running when the
sketch was emptied, in particular if the trial before succeeded or there was none. -/
theorem trial_replays_streams (R : Reading E) (run : Run (opening c) h s) {sample : Stats.Sample}
    (hok : s.outcome = some (.ok sample)) :
    ∃ after cleared x z, LastTrial h after cleared x z ∧
      (∀ slot k, Machine.worker? z.before.workshop slot = some k → k.point.isInUnit = false) ∧
      (∀ i < c.writers, drawn i cleared ++ drawn i after =
        words ((drawn i cleared).length + (drawn i after).length) (Workshop.stream c i)) ∧
      R.Holds s.workshop.shared.contents (visible c fun i => drawn i cleared ++ drawn i after) ∧
      ((∀ i < c.writers, drawn i cleared = []) →
        (∀ i < c.writers,
          drawn i after = words (drawn i after).length (Workshop.stream c i)) ∧
        R.Holds s.workshop.shared.contents (visible c fun i => drawn i after)) ∧
      (x.before.workshop.tally.phase ≠ .running → ∀ i, drawn i cleared = []) ∧
      ((∀ err, x.before.outcome ≠ some (.error err)) → x.before.workshop.tally.phase ≠ .running) := by
  obtain ⟨after, cleared, x, z, hl⟩ := run.lastTrial hok
  obtain ⟨b, -, hasked⟩ := hl.asked
  obtain ⟨st, hh, -, hfollows⟩ := run.follows R
  have hf := hfollows _ hasked
  have hall : ∀ i < c.writers, drawn i cleared ++ drawn i after =
      words ((drawn i cleared).length + (drawn i after).length) (Workshop.stream c i) := by
    intro i hi
    rw [← List.length_append, ← hl.drawn]
    exact hf.drawn i hi
  -- since the emptying the sketch has what is visible of all words, late ones included
  have hcontents : R.Holds s.workshop.shared.contents
      (visible c fun i => drawn i cleared ++ drawn i after) := by
    simpa only [hl.drawn] using hf.contents hh
  refine ⟨after, cleared, x, z, hl, fun slot k hk => hl.not_inUnit run hk, hall, hcontents,
    fun hnone => ⟨fun i hi => ?_, ?_⟩, hl.drawn_cleared run, hl.not_running run⟩
  · have hi' := hall i hi
    rw [hnone i hi] at hi'
    simpa using hi'
  · have hsame : visible c (fun i => drawn i cleared ++ drawn i after) =
        visible c fun i => drawn i after :=
      visible_congr fun i hi => by rw [hnone i hi, List.nil_append]
    rwa [hsame] at hcontents

/-! ## A late unit -/

/-- A single writer, and trials that may not take longer than a nanosecond. -/
def hasty : Settings := { trialTimeout := some ⟨1⟩ }

/-- The thread that runs the trials takes the workers back, starts them and begins to wait. -/
def startedTrial : List (Event (List UInt64)) := List.flatten [
  .replicate 9 (.machine (.call .controlling)), [.goOn],
  .replicate 5 (.machine (.call .controlling)), [.goOn]]

/-- The writer goes into its unit. -/
def unitCalled : List (Event (List UInt64)) := .replicate 5 (.machine (.worker ⟨.writer, 0⟩))

/-- The unit returns, and the writer reports. -/
def unitReported : List (Event (List UInt64)) :=
  .machine (.finish ⟨.writer, 0⟩) :: .replicate 8 (.machine (.worker ⟨.writer, 0⟩))

/-- A first trial is given up while the writer is inside its unit.  The unit returns when a second
trial has emptied the sketch, which then succeeds. -/
def lateSession : List (Event (List UInt64)) := List.flatten [
  [.trial 1], startedTrial, unitCalled,
  [.machine (.tick 1)], .replicate 4 (.machine (.call .controlling)), [.goOn],
  [.trial 1], unitReported, startedTrial, unitCalled, unitReported,
  [.machine (.call .controlling), .goOn]]

/-- The second trial succeeds. -/
theorem exists_run_lateSession :
    ∃ s, Run (opening hasty) ((opening hasty).historyFrom [] lateSession) s ∧
      s.outcome = some (.ok ⟨⟨0⟩, 1, 0⟩) ∧ s.workshop.shared.contents = [0, 1] := by
  have hend : ((opening hasty).steps lateSession).map
      (fun s => (s.outcome, s.workshop.shared.contents)) = some (some (.ok ⟨⟨0⟩, 1, 0⟩), [0, 1]) := rfl
  obtain ⟨s, hs, hout⟩ := Option.map_eq_some_iff.mp hend
  exact ⟨s, .of_steps .start hs, congrArg Prod.fst hout, congrArg Prod.snd hout⟩

theorem trial_replays_streams_lateSession :
    let h := (opening hasty).historyFrom [] lateSession
    ∃ s after cleared x z, Run (opening hasty) h s ∧ LastTrial h after cleared x z ∧
      drawn 0 cleared ++ drawn 0 after = words 2 (Workshop.stream hasty 0) ∧
      (s.workshop.shared.contents : Multiset UInt64) =
        visible hasty fun i => drawn i cleared ++ drawn i after := by
  intro h
  obtain ⟨s, run, hok, -⟩ := exists_run_lateSession
  obtain ⟨after, cleared, x, z, hl, -, hdrawn, hcontents, -⟩ :=
    trial_replays_streams Reading.record run hok
  have hlen : (drawn 0 cleared).length + (drawn 0 after).length = 2 := by
    rw [← List.length_append, ← hl.drawn]
    rfl
  refine ⟨s, after, cleared, x, z, run, hl, ?_, hcontents⟩
  rw [← hlen]
  exact hdrawn 0 (by decide)

/-- The first word that the writer inserts in the second trial is the second one of its stream, and
the sketch has the first one as well, from the unit of the first trial. -/
theorem late_unit_joins_trial :
    let h := (opening hasty).historyFrom [] lateSession
    ∃ s, Run (opening hasty) h s ∧ s.outcome = some (.ok ⟨⟨0⟩, 1, 0⟩) ∧
      drawn 0 (sinceBegun h) = [1] ∧ words 1 (Workshop.stream hasty 0) = [0] ∧
      drawn 0 (sinceEmptied h) = [0, 1] ∧ s.workshop.shared.contents = [0, 1] := by
  obtain ⟨s, run, hok, hcontents⟩ := exists_run_lateSession
  exact ⟨s, run, hok, rfl, rfl, rfl, hcontents⟩

end SpeedTrial.Profile.Session
