import SpeedTrial.Profile.Sweep
import SpeedTrial.Proofs.Plan.Totals
import Mathlib.Data.List.Basic

/-!
# What a sweep does

A sweep is watched by a log of everything that it asks for, with what came of it.  The trials and
the sink are any that have a common state, and each may fail whenever it is asked.

* `Bench.logged` and `loggedSink` keep the log, and `Logs` says that this changes nothing else.
* `SweepCourse`: the three ways in which a sweep can go.
* `sweep_follows_plan`: every sweep goes one of these ways, and then cleans up.
-/

namespace SpeedTrial.Profile

open SpeedTrial.Plan SpeedTrial.Stats

variable {σ ε δ : Type}

/-! ## The log -/

/-- What a sweep asks for, with what came of it. -/
inductive Action (ε δ : Type) where
  | trial (updates : Nat) (result : Except ε Sample)
  | row (point : PointStats) (result : Except δ Unit)
  | cleanup

namespace Action

/-- The updates of a trial. -/
def updates? : Action ε δ → Option Nat
  | .trial updates _ => some updates
  | _ => none

/-- The row that is handed on. -/
def point? : Action ε δ → Option PointStats
  | .row point _ => some point
  | _ => none

end Action

/-- A bench that notes what it is asked for. -/
def Bench.logged (bench : Bench (StateM σ) ε) : Bench (StateM (σ × List (Action ε δ))) ε where
  trial updates := fun (s, log) =>
    let (r, s) := bench.trial updates s
    (r, s, log ++ [.trial updates r])
  cleanup := fun (s, log) =>
    let (_, s) := bench.cleanup s
    ((), s, log ++ [.cleanup])

/-- A sink that notes the rows that it is handed. -/
def loggedSink (sink : PointStats → StateM σ (Except δ Unit)) (point : PointStats) :
    StateM (σ × List (Action ε δ)) (Except δ Unit) := fun (s, log) =>
  let (r, s) := sink point s
  (r, s, log ++ [.row point r])

/-- The first run does what the second does, and what it adds to the log fits its answer. -/
def Logs {α β : Type} (x : StateM (σ × List α) β) (y : StateM σ β) (Fits : β → List α → Prop) :
    Prop :=
  ∀ s log, ∃ added, x (s, log) = ((y s).1, (y s).2, log ++ added) ∧ Fits (y s).1 added

section Logs

variable {α β γ : Type} {x : StateM (σ × List α) β} {y : StateM σ β}
  {f : β → StateM (σ × List α) γ} {g : β → StateM σ γ} {Fits : β → List α → Prop}

theorem Logs.pure {b : β} (hb : Fits b []) :
    Logs (pure b : StateM (σ × List α) β) (pure b) Fits :=
  fun s log => ⟨[], by rw [List.append_nil]; rfl, hb⟩

theorem Logs.bind {Goes : γ → List α → Prop} (hx : Logs x y Fits)
    (hf : ∀ b added, Fits b added → Logs (f b) (g b) fun c more => Goes c (added ++ more)) :
    Logs (x >>= f) (y >>= g) Goes := by
  intro s log
  obtain ⟨added, hrun, hfits⟩ := hx s log
  obtain ⟨more, hmore, hgoes⟩ := hf _ added hfits (y s).2 (log ++ added)
  refine ⟨added ++ more, ?_, hgoes⟩
  show f (x (s, log)).1 (x (s, log)).2 = _
  rw [hrun, ← List.append_assoc]
  exact hmore

theorem Logs.mono {Goes : β → List α → Prop} (hx : Logs x y Fits)
    (h : ∀ b added, Fits b added → Goes b added) : Logs x y Goes := by
  intro s log
  obtain ⟨added, hrun, hfits⟩ := hx s log
  exact ⟨added, hrun, h _ _ hfits⟩

theorem logs_trial (bench : Bench (StateM σ) ε) (updates : Nat) :
    Logs (bench.logged.trial updates) (bench.trial updates) fun r added =>
      added = [(.trial updates r : Action ε δ)] :=
  fun _ _ => ⟨_, rfl, rfl⟩

theorem logs_sink (sink : PointStats → StateM σ (Except δ Unit)) (point : PointStats) :
    Logs (loggedSink sink point) (sink point) fun r added =>
      added = [(.row point r : Action ε δ)] :=
  fun _ _ => ⟨_, rfl, rfl⟩

theorem logs_cleanup (bench : Bench (StateM σ) ε) :
    Logs bench.logged.cleanup bench.cleanup fun _ added =>
      added = [(.cleanup : Action ε δ)] :=
  fun _ _ => ⟨_, rfl, rfl⟩

end Logs

/-! ## Trials -/

/-- The trials at a point that did not fail. -/
def trialsOf (updates : Nat) (samples : List Sample) : List (Action ε δ) :=
  samples.map fun sample => .trial updates (.ok sample)

/-- How the trials go that are left at a point, given the samples taken before. -/
inductive TrialsCourse (updates total left : Nat) (taken : List Sample) :
    Except (SweepError ε δ) (List Sample) → List (Action ε δ) → Prop where
  | ran (samples : List Sample) {all : List Sample} :
      samples.length = left → all = taken ++ samples →
      TrialsCourse updates total left taken (.ok all) (trialsOf updates samples)
  /-- A trial failed; it is told by its number among all trials of the point. -/
  | failed (samples : List Sample) {number : Nat} {cause : ε} : samples.length < left →
      number = total - left + samples.length + 1 →
      TrialsCourse updates total left taken (.error (.trial number total updates cause))
        (trialsOf updates samples ++ [.trial updates (.error cause)])

/-- One more trial before the others. -/
theorem TrialsCourse.cons {updates total left : Nat} {taken : List Sample} {sample : Sample}
    {result : Except (SweepError ε δ) (List Sample)} {actions : List (Action ε δ)}
    (hlt : left < total)
    (hrest : TrialsCourse updates total left (taken ++ [sample]) result actions) :
    TrialsCourse updates total (left + 1) taken result
      (.trial updates (.ok sample) :: actions) := by
  cases hrest with
  | @ran samples all hlen hall =>
    exact .ran (sample :: samples) (by simp [hlen]) (by simp [hall])
  | @failed samples number cause hlen hnumber =>
    exact .failed (sample :: samples) (by simpa using hlen)
      (by rw [hnumber, List.length_cons]; omega)

theorem logs_sweepTrials (bench : Bench (StateM σ) ε) (updates total left : Nat)
    (hle : left ≤ total) (taken : List Sample) :
    Logs (sweepTrials bench.logged.trial updates total left taken)
      (sweepTrials bench.trial updates total left taken)
      (TrialsCourse (ε := ε) (δ := δ) updates total left taken.reverse) := by
  induction left generalizing taken with
  | zero => exact Logs.pure (.ran [] rfl (by simp))
  | succ left ih =>
    refine (logs_trial bench updates).bind fun r added hadded => ?_
    subst hadded
    cases r with
    | error cause =>
      exact Logs.pure (.failed [] (by simp) (by rw [List.length_nil]; omega))
    | ok sample =>
      -- the samples taken so far are kept newest first
      refine (ih (by omega) (sample :: taken)).mono fun result actions hrest => ?_
      rw [List.reverse_cons] at hrest
      exact hrest.cons (by omega)

/-! ## Points -/

/-- What is asked for at a point that is done: its trials, and then its row. -/
def pointOf (updates : Nat) (samples : List Sample) : List (Action ε δ) :=
  trialsOf updates samples ++ [.row (.ofSamples updates samples) (.ok ())]

/-- How a point goes. -/
inductive PointCourse (updates trials : Nat) :
    Except (SweepError ε δ) PointStats → List (Action ε δ) → Prop where
  | ran {samples : List Sample} : samples.length = trials →
      PointCourse updates trials (.ok (.ofSamples updates samples)) (pointOf updates samples)
  /-- A trial failed, and the point has no row. -/
  | trialFailed {samples : List Sample} {cause : ε} : samples.length < trials →
      PointCourse updates trials (.error (.trial (samples.length + 1) trials updates cause))
        (trialsOf updates samples ++ [.trial updates (.error cause)])
  | rowRefused {samples : List Sample} {cause : δ} : samples.length = trials →
      PointCourse updates trials (.error (.row cause))
        (trialsOf updates samples ++ [.row (.ofSamples updates samples) (.error cause)])

theorem logs_sweepPoint (bench : Bench (StateM σ) ε) (sink : PointStats → StateM σ (Except δ Unit))
    (updates trials : Nat) :
    Logs (sweepPoint bench.logged.trial (loggedSink sink) updates trials)
      (sweepPoint bench.trial sink updates trials)
      (PointCourse (ε := ε) (δ := δ) updates trials) := by
  refine (logs_sweepTrials bench updates trials trials (Nat.le_refl _) []).bind
    fun r added hadded => ?_
  cases hadded with
  | @failed samples number cause hlen hnumber =>
    rw [Nat.sub_self, Nat.zero_add] at hnumber
    subst hnumber
    exact Logs.pure (by simpa using .trialFailed hlen)
  | @ran samples all hlen hall =>
    -- no sample of another point is among them
    obtain rfl : all = samples := by simpa using hall
    refine (logs_sink sink _).bind fun r more hmore => ?_
    subst hmore
    cases r with
    | error cause => exact Logs.pure (by simpa using .rowRefused hlen)
    | ok _ => exact Logs.pure (by simpa using .ran hlen)

/-! ## The whole sweep -/

/-- The rows of points that are done. -/
def rowsOf (done : List (Nat × List Sample)) : List PointStats :=
  done.map fun x => .ofSamples x.1 x.2

/-- How a sweep over an axis goes: it does the points one after the other, each with its trials, and
ends after the last one or at the first failure. -/
inductive SweepCourse (trialsAt : Nat → Nat) (axis : List Nat) :
    Except (SweepError ε δ) (List PointStats) → List (Action ε δ) → Prop where
  | ran (done : List (Nat × List Sample)) : done.map Prod.fst = axis →
      (∀ x ∈ done, x.2.length = trialsAt x.1) →
      SweepCourse trialsAt axis (.ok (rowsOf done)) (done.flatMap fun x => pointOf x.1 x.2)
  | failed (done : List (Nat × List Sample)) {updates : Nat} (rest : List Nat)
      {error : SweepError ε δ} {last : List (Action ε δ)} :
      axis = done.map Prod.fst ++ updates :: rest → (∀ x ∈ done, x.2.length = trialsAt x.1) →
      PointCourse updates (trialsAt updates) (.error error) last →
      SweepCourse trialsAt axis (.error error) ((done.flatMap fun x => pointOf x.1 x.2) ++ last)

section sweep

variable {trialsAt : Nat → Nat} {axis : List Nat} {updates : Nat} {samples : List Sample}
  {result : Except (SweepError ε δ) (List PointStats)} {actions : List (Action ε δ)}

/-- One more point before the others. -/
theorem SweepCourse.cons (hlen : samples.length = trialsAt updates)
    (hrest : SweepCourse trialsAt axis result actions) :
    SweepCourse trialsAt (updates :: axis)
      (result.map (PointStats.ofSamples updates samples :: ·))
      (pointOf updates samples ++ actions) := by
  cases hrest with
  | @ran done haxis hdone =>
    exact .ran ((updates, samples) :: done) (by simp [haxis]) (by simpa [hlen] using hdone)
  | @failed done u rest error last haxis hdone hlast =>
    rw [← List.append_assoc]
    exact .failed ((updates, samples) :: done) rest (by simp [haxis])
      (by simpa [hlen] using hdone) hlast

theorem logs_sweepPoints (bench : Bench (StateM σ) ε) (sink : PointStats → StateM σ (Except δ Unit))
    (trialsAt : Nat → Nat) (axis : List Nat) (done : List PointStats) :
    Logs (sweepPoints bench.logged.trial (loggedSink sink) trialsAt axis done)
      (sweepPoints bench.trial sink trialsAt axis done) fun result actions =>
        ∃ rest, result = rest.map (done.reverse ++ ·) ∧
          SweepCourse (ε := ε) (δ := δ) trialsAt axis rest actions := by
  induction axis generalizing done with
  | nil => exact Logs.pure ⟨.ok [], by simp [Except.map], .ran [] rfl (by simp)⟩
  | cons updates axis ih =>
    refine (logs_sweepPoint bench sink updates (trialsAt updates)).bind fun r added hadded => ?_
    cases r with
    | error error =>
      refine Logs.pure ⟨.error error, rfl, ?_⟩
      rw [List.append_nil]
      exact .failed [] axis rfl (by simp) hadded
    | ok point =>
      cases hadded with
      | @ran samples hlen =>
        refine (ih (_ :: done)).mono fun result actions ⟨rest, hresult, hrest⟩ => ?_
        refine ⟨_, ?_, hrest.cons hlen⟩
        rw [hresult, List.reverse_cons]
        cases rest <;> simp [Except.map]

theorem cleanup_not_mem (hcourse : SweepCourse trialsAt axis result actions) :
    Action.cleanup ∉ actions := by
  cases hcourse with
  | ran => simp [pointOf, trialsOf]
  | failed _ _ _ _ hlast => cases hlast <;> simp [pointOf, trialsOf]

theorem updates_pointOf (updates : Nat) (samples : List Sample) :
    (pointOf (ε := ε) (δ := δ) updates samples).filterMap Action.updates? =
      List.replicate samples.length updates := by
  simp [pointOf, trialsOf, List.filterMap_append, List.filterMap_map, Action.updates?,
    Function.comp_def, List.map_const']

theorem points_pointOf (updates : Nat) (samples : List Sample) :
    (pointOf (ε := ε) (δ := δ) updates samples).filterMap Action.point? =
      [.ofSamples updates samples] := by
  simp [pointOf, trialsOf, List.filterMap_append, List.filterMap_map, Action.point?,
    Function.comp_def]

/-- A sweep that comes to its end has handed on the rows that it answers, and has run all trials. -/
theorem SweepCourse.of_ok {rows : List PointStats}
    (hcourse : SweepCourse trialsAt axis (.ok rows) actions) :
    actions.filterMap Action.point? = rows ∧
      (actions.filterMap Action.updates?).length = (axis.map trialsAt).sum ∧
      (actions.filterMap Action.updates?).sum = (axis.map fun u => trialsAt u * u).sum := by
  cases hcourse with
  | @ran done haxis hdone =>
    subst haxis
    -- point by point, each with as many trials as it has samples
    induction done with
    | nil => exact ⟨rfl, rfl, rfl⟩
    | cons x done ih =>
      have hx : x.2.length = trialsAt x.1 := hdone x (List.mem_cons_self ..)
      obtain ⟨hpoints, hlength, hsum⟩ := ih fun y hy => hdone y (List.mem_cons_of_mem _ hy)
      simp only [List.flatMap_cons, List.filterMap_append, updates_pointOf, points_pointOf,
        List.map_cons, List.sum_cons, List.length_append, List.sum_append_nat, hpoints, hlength,
        hsum, List.length_replicate, List.sum_replicate_nat, hx]
      exact ⟨rfl, trivial, trivial⟩

end sweep

/-- A sweep that is begun cleans up at its end, in any case. -/
theorem logs_sweep (bench : Bench (StateM σ) ε) (sink : PointStats → StateM σ (Except δ Unit))
    (plan : SweepPlan) {totals : Nat × Nat} (htotals : plan.totals = .ok totals) :
    Logs (sweep bench.logged plan (loggedSink sink)) (sweep bench plan sink) fun outcome all =>
      ∃ result actions, outcome = .ok result ∧ all = actions ++ [.cleanup] ∧
        SweepCourse (ε := ε) (δ := δ) plan.trialsAt plan.points result actions := by
  unfold sweep
  rw [htotals]
  refine (logs_sweepPoints bench sink plan.trialsAt plan.points []).bind
    fun result actions ⟨rest, hresult, hcourse⟩ => ?_
  obtain rfl : result = rest := by
    rw [hresult]
    cases rest <;> rfl
  refine (logs_cleanup bench).bind fun _ added hadded => ?_
  subst hadded
  exact Logs.pure ⟨result, actions, rfl, by simp, hcourse⟩

/-- A sweep tries each point of the axis as often as the plan says and in order, hands on one row
for each, made of the samples of that point alone, and ends at the first trial that fails, which it
tells by its place, or at the first row that is refused.  In any case it cleans up once, at the end.
If it succeeds its answer is the rows that it handed on, and the trials and updates are those that
the plan announces. -/
theorem sweep_follows_plan (bench : Bench (StateM σ) Failure)
    (sink : PointStats → StateM σ (Except Failure Unit)) (plan : SweepPlan)
    (htrials : plan.trialCount < 2 ^ 64) (hupdates : plan.updateCount < 2 ^ 64) (s : σ) :
    ∃ result s' actions,
      sweep bench.logged plan (loggedSink sink) (s, []) = (.ok result, s', actions ++ [.cleanup]) ∧
      sweep bench plan sink s = (.ok result, s') ∧ Action.cleanup ∉ actions ∧
      SweepCourse plan.trialsAt plan.points result actions ∧
      match result with
      | .ok rows => actions.filterMap Action.point? = rows ∧
          plan.totals = .ok ((actions.filterMap Action.updates?).length,
            (actions.filterMap Action.updates?).sum)
      | .error (.trial number total updates cause) =>
          (SweepError.trial number total updates cause).failure =
            ⟨s!"trial {number} of {total} at {updates} updates", cause.message :: cause.causes⟩
      | .error (.row cause) => (SweepError.row cause).failure = cause := by
  have htotals := plan.totals_eq_ok_iff.mpr ⟨⟨htrials, hupdates⟩, rfl⟩
  obtain ⟨_, hrun, result, actions, hresult, rfl, hcourse⟩ := logs_sweep bench sink plan htotals s []
  have hplain : sweep bench plan sink s = (.ok result, (sweep bench plan sink s).2) :=
    Prod.ext hresult rfl
  rw [hresult] at hrun
  refine ⟨result, _, actions, hrun, hplain, cleanup_not_mem hcourse, hcourse, ?_⟩
  cases result with
  | ok rows =>
    obtain ⟨hpoints, hlength, hsum⟩ := hcourse.of_ok
    rw [hlength, hsum]
    exact ⟨hpoints, htotals⟩
  | error error => cases error <;> rfl

/-- Two points in one octave, with two trials each. -/
def octave : SweepPlan :=
  { lgMinTrials := 1, lgMaxTrials := 1, lgMaxUpdates := 1, perOctave := 1 }

theorem points_octave : octave.points = [1, 2] := by
  have hnext : Steps.binary64.next? 1 1 = some 2 :=
    Steps.next?_of_first (by decide +kernel) (by decide)
  show 1 :: pointsAfter Steps.binary64 1 2 1 = [1, 2]
  rw [pointsAfter_of_some (by decide) hnext, pointsAfter_of_le (Nat.le_refl 2)]

/-- A bench that counts its trials, each of ten nanoseconds for an update. -/
def countingBench : Bench (StateM Nat) Failure where
  trial updates := fun n => (.ok ⟨⟨10 * updates⟩, updates, 0⟩, n + 1)
  cleanup := pure ()

theorem sweep_follows_plan_octave :
    octave.trialCount < 2 ^ 64 ∧ octave.updateCount < 2 ^ 64 ∧
      ∃ rows actions,
        sweep countingBench.logged octave (loggedSink fun _ => pure (.ok ())) (0, []) =
          (.ok (.ok rows), 4, actions ++ [(.cleanup : Action Failure Failure)]) ∧
        actions.filterMap Action.point? = rows ∧
        (actions.filterMap Action.updates?).length = 4 ∧
        (actions.filterMap Action.updates?).sum = 6 := by
  have hcount : octave.trialCount = 4 ∧ octave.updateCount = 6 := by
    unfold SweepPlan.trialCount SweepPlan.updateCount
    rw [points_octave]
    decide
  have htrials : octave.trialCount < 2 ^ 64 := by rw [hcount.1]; decide
  have hupdates : octave.updateCount < 2 ^ 64 := by rw [hcount.2]; decide
  have htotals : octave.totals = .ok (4, 6) :=
    octave.totals_eq_ok_iff.mpr ⟨⟨htrials, hupdates⟩, Prod.ext hcount.1.symm hcount.2.symm⟩
  obtain ⟨result, s', actions, hrun, hplain, -, -, hend⟩ :=
    sweep_follows_plan countingBench (fun _ => pure (.ok ())) octave htrials hupdates 0
  obtain ⟨rows, hrows⟩ : ∃ rows, sweep countingBench octave
      (fun _ => (pure (.ok ()) : StateM Nat (Except Failure Unit))) 0 = (.ok (.ok rows), 4) := by
    unfold sweep
    rw [htotals, points_octave]
    exact ⟨_, rfl⟩
  rw [hrows] at hplain
  cases hplain
  obtain ⟨hpoints, hsame⟩ := hend
  rw [htotals] at hsame
  obtain ⟨hlength, hsum⟩ := Prod.mk.inj (Except.ok.inj hsame)
  exact ⟨htrials, hupdates, rows, actions, hrun, hpoints, hlength.symm, hsum.symm⟩

end SpeedTrial.Profile
