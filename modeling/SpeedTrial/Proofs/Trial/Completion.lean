import SpeedTrial.Proofs.Trial.Arming
import SpeedTrial.Proofs.Trial.Delivery
import SpeedTrial.Proofs.Trial.Lifecycle

/-!
# Every trial can be completed

As long as nobody stops the workers and no unit of work panics, a trial that is running can be
completed by steps of the workers alone, wherever they stand.

* `Run.lively`: no worker has left its loop.
* `View.remaining` bounds what a worker has still to do before it delivers its report, and
  `Orderly.remaining_lt` says that each of its steps brings it nearer.
* `Run.delivers` lets one worker go on until its report is counted, and `Run.completes` all of them.
* `no_report_lost` puts this together with what is known of reports that are expected.
-/

namespace SpeedTrial.Trial

/-! ## Workers that are left alone -/

section calm

variable {U S : Type} {work : U → S → U × S} {freeze : FreezeScope} {shared : S}
  {h : History U S} {m m' : Machine U S} {e : Machine.Event U}

/-- Nobody has begun to stop the workers, and no unit has panicked. -/
def Calm (h : History U S) : Prop := ∀ x ∈ h, x.stops = false ∧ ∀ s, x.event ≠ .panic s

/-- A worker is in its loop, or is not started before the launch. -/
structure Worker.Lively (launched : Bool) (w : Worker U) : Prop where
  stopped : w.control.stopped = false
  not_ended : w.point ≠ .ended
  not_dead : w.point ≠ .dead
  born : launched = true → w.point ≠ .unborn

theorem Worker.Lively.goTo {la : Bool} {w : Worker U} (hw : w.Lively la) {p : Point}
    (he : p ≠ .ended) (hd : p ≠ .dead) (hu : p ≠ .unborn) : (w.goTo p).Lively la :=
  ⟨hw.stopped, he, hd, fun _ => hu⟩

theorem Worker.Lively.write {la : Bool} {w : Worker U} (hw : w.Lively la) {a : Access}
    (ha : (a.write w.control).stopped = w.control.stopped) : (w.write a).Lively la :=
  ⟨ha.trans hw.stopped, hw.not_ended, hw.not_dead, hw.born⟩

/-- A worker leaves its loop only if it is stopped. -/
theorem Worker.Lively.own {la : Bool} {w : Worker U} (hw : w.Lively la) {c : Control} {p : Point}
    (hn : w.point.next w.control = some (c, p)) :
    Worker.Lively la { w with control := c, point := p } := by
  have hst := hw.stopped
  cases hpt : w.point <;> simp only [hpt, Point.next, reduceCtorEq] at hn
  case top =>
    rw [hst] at hn
    obtain ⟨rfl, rfl⟩ := Prod.mk.inj (Option.some.inj hn)
    exact ⟨hst, by simp, by simp, by simp⟩
  case claim trial done =>
    simp only [exchange] at hn
    split at hn <;> obtain ⟨rfl, rfl⟩ := Prod.mk.inj (Option.some.inj hn) <;>
      exact ⟨hst, by simp, by simp, by simp⟩
  all_goals
    obtain ⟨rfl, rfl⟩ := Prod.mk.inj (Option.some.inj hn)
    refine ⟨hst, ?_, ?_, fun _ => ?_⟩ <;> grind [Point.afterQuota]

/-- A change in place keeps what holds of all workers if it keeps it of the one that changes. -/
theorem Machine.forall_onSlot {P : Worker U → Prop} {t : Slot} {f : Worker U → Worker U}
    (h : ∀ s w, m.worker? s = some w → P w) (hf : ∀ w, m.worker? t = some w → P (f w)) :
    ∀ s w, (m.onSlot t f).worker? s = some w → P w := by
  intro s w hw
  rw [worker?_onSlot] at hw
  obtain ⟨w₀, hw₀, rfl⟩ := Option.map_eq_some_iff.mp hw
  by_cases hs : s = t
  · subst hs
    simpa using hf w₀ hw₀
  · simpa [hs] using h s w₀ hw₀

theorem Run.lively (run : Run work (.empty freeze shared) h m) (hcalm : Calm h) :
    ∀ s w, m.worker? s = some w → w.Lively m.launched := by
  induction run with
  | start => simp
  | @next h m m' e run hs ih =>
    have hcalm' : Calm h := fun x hx => hcalm x (List.mem_cons_of_mem _ hx)
    have hlively := ih hcalm'
    have hc := run.coherent
    cases Machine.Move.of_step hs with
    | @own s w c p hw hn =>
      rw [Machine.launched_onSlot]
      refine Machine.forall_onSlot hlively fun w' hw' => ?_
      obtain rfl : w = w' := Option.some.inj (hw.symm.trans hw')
      exact (hlively s w hw).own hn
    | @accept s | @refuse s | @count s | @release s =>
      rw [Machine.launched_onSlot]
      exact Machine.forall_onSlot (by simpa using hlively) fun w hw =>
        (hlively s w hw).goTo (by simp) (by simp) (by simp)
    | @freeze s t w trial done a todo hw hp =>
      have hkeep : ∀ c : Control, (a.write c).stopped = c.stopped := by
        rcases hc.frozen_access hw hp with rfl | rfl <;> exact fun _ => rfl
      rw [Machine.launched_onSlot, Machine.launched_onSlot]
      have hwritten := Machine.forall_onSlot (f := Worker.write a) (t := t) hlively fun w' hw' =>
        (hlively t w' hw').write (hkeep _)
      exact Machine.forall_onSlot hwritten fun w' hw' =>
        (hwritten s w' hw').goTo (by simp) (by simp) (by simp)
    | @finish s w done hw hp =>
      rw [Machine.launched_onSlot]
      exact Machine.forall_onSlot (by simpa using hlively) fun w' hw' =>
        ⟨(hlively s w' hw').stopped, by simp, by simp, by simp⟩
    | panic => exact absurd rfl ((hcalm _ (List.mem_cons_self ..)).2 _)
    | @hand t quota s a todo hcall =>
      have hu := hc.underLock_eq hcall rfl
      rw [Machine.launched_setCaller, Machine.launched_onSlot]
      simp only [Machine.worker?_setCaller]
      refine Machine.forall_onSlot hlively fun w hw => (hlively s w hw).write ?_
      -- quota is handed out, or a report asked for
      have hdue : (m.view s w).due = a :: forSlot s todo := by
        simp [Machine.view, hu, Call.handing]
      obtain ⟨-, -, ⟨rfl, -⟩ | ⟨-, -, -, quota, rfl⟩⟩ := (run.orderly s w hw).due.of_cons hdue <;>
        rfl
    | @clear t kept s w a todo hcall hw =>
      rw [Machine.launched_setCaller, Machine.launched_onSlot]
      simp only [Machine.worker?_setCaller]
      refine Machine.forall_onSlot hlively fun w' hw' => (hlively s w' hw').write ?_
      -- a reset leaves the stop flag as it is
      rcases run.write_of_resetting hcall hw' with h | h | h | h <;> rw [h]
    | @halt t s a todo hcall =>
      have hno := run.no_stop (fun x hx => (hcalm' x hx).1) t
      rw [hcall] at hno
      cases hno
    | register hq hl =>
      intro s w hw
      rcases m.worker?_enrol _ _ hw with hw | ⟨-, rfl⟩
      · simpa using hlively s w hw
      · exact ⟨rfl, by simp, by simp, by simp [hl]⟩
    | launch =>
      intro s w hw
      obtain ⟨w₀, hw₀, rfl⟩ := Option.map_eq_some_iff.mp (by simpa using hw)
      exact ⟨(hlively s w₀ hw₀).stopped, by simp, by simp, by simp⟩
    | fail => exact hlively
    | _ => simpa using hlively

end calm

/-! ## How far a worker is from its report -/

namespace View

/-- Where a worker stands on its way from one unit to the next, or to its report.  A worker that has
read words that are not those of its block any more goes round its loop once more. -/
def rank (v : View) : Nat :=
  match v.point with
  | .readCompleted quota => if quota = v.control.quota then 18 else 30
  | .recheck quota done =>
    if quota = v.control.quota ∧ done = v.control.completed then 17 else 29
  | .readPending => if v.control.quota ≤ v.control.completed then 12 else 27
  | .checkQuota trial =>
    if trial = v.trial ∧ v.control.quota ≤ v.control.completed then 11 else 26
  | .checkCompleted trial quota =>
    if trial = v.trial ∧ quota ≤ v.control.completed then 10 else 25
  | .claim trial _ => if trial = v.trial then 9 else 24
  | .report trial _ => if trial = v.trial then 8 else 23
  | .top => 20
  | .readQuota => 19
  | .calling _ => 16
  | .inUnit _ => 15
  | .publish _ => 14
  | .reread _ => 13
  | _ => 0

/-- A bound on the steps that a worker takes before it delivers its report, if nobody else acts. -/
def remaining (v : View) : Nat := 32 * (v.control.quota - v.committed) + v.rank

/-- A worker that has used up its quota is asked for its report, and every step before that brings
it nearer to using it up. -/
theorem Orderly.remaining_lt {v : View} {c : Control} {p : Point} (ho : v.Orderly)
    (hpend : v.control.pending = v.trial) (htrial : v.trial ≠ 0)
    (hst : v.control.stopped = false) (hn : v.point.next v.control = some (c, p)) :
    remaining { v with control := c, point := p } < v.remaining := by
  have hp := ho.point
  simp only [remaining, rank, committed]
  cases hpt : v.point with
  | top =>
    simp only [hpt, Point.next, hst, Option.some.injEq, Prod.mk.injEq] at hn
    obtain ⟨rfl, rfl⟩ := hn
    simp [Point.committed]
  | recheck quota done =>
    simp only [hpt, PointInOrder] at hp
    simp only [hpt, Point.next, Option.some.injEq, Prod.mk.injEq] at hn
    obtain ⟨rfl, rfl⟩ := hn
    grind [Point.committed, Point.afterQuota]
  | publish done =>
    simp only [hpt, PointInOrder] at hp
    simp only [hpt, Point.next, Option.some.injEq, Prod.mk.injEq] at hn
    obtain ⟨rfl, rfl⟩ := hn
    simp [Point.committed]
  | reread done =>
    simp only [hpt, PointInOrder] at hp
    simp only [hpt, Point.next, Option.some.injEq, Prod.mk.injEq] at hn
    obtain ⟨rfl, rfl⟩ := hn
    grind [Point.committed, Point.afterQuota]
  | claim trial done =>
    -- a claim for another trial than that for which the report is asked claims nothing
    simp only [hpt, Point.next, exchange] at hn
    split at hn <;> obtain ⟨rfl, rfl⟩ := Prod.mk.inj (Option.some.inj hn) <;>
      grind [Point.committed]
  | unborn | inUnit | report | freezing | releasing | ended | dead =>
    simp [hpt, Point.next] at hn
  | _ =>
    simp only [hpt, Point.next, Option.some.injEq, Prod.mk.injEq] at hn
    obtain ⟨rfl, rfl⟩ := hn
    grind [Point.committed]

end View

/-! ## One worker goes on -/

variable {U S : Type} {work : U → S → U × S} {freeze : FreezeScope} {shared : S}
  {h : History U S} {m m' : Machine U S} {e : Machine.Event U} {s : Slot} {w : Worker U}

/-- The event is a step of the worker in a slot, or the return of its unit. -/
def Machine.Event.IsOf (e : Machine.Event U) (s : Slot) : Prop := e = .worker s ∨ e = .finish s

/-- A history stays calm through steps of workers, returns of units, and steps of callers. -/
theorem Calm.historyFrom {es : List (Machine.Event U)} (hcalm : Calm h)
    (hes : ∀ e ∈ es, (∃ s, e.IsOf s) ∨ ∃ t, e = .call t) : Calm (m.historyFrom work h es) := by
  induction es generalizing m h with
  | nil => exact hcalm
  | cons e es ih =>
    cases hs : m.step work e with
    | none => simpa [Machine.historyFrom, hs] using hcalm
    | some m' =>
      simp only [Machine.historyFrom, hs]
      refine ih (fun x hx => ?_) fun e' he' => hes e' (List.mem_cons_of_mem _ he')
      rcases List.mem_cons.mp hx with rfl | hx
      · rcases hes e (List.mem_cons_self ..) with ⟨s, rfl | rfl⟩ | ⟨t, rfl⟩ <;>
          exact ⟨rfl, by simp⟩
      · exact hcalm x hx

/-- A trial that is running or over has a number. -/
theorem Run.trial_ne_zero (run : Run work (.empty freeze shared) h m)
    (hph : m.tally.phase ≠ .ready) : m.tally.trial ≠ 0 := by
  have hpos : ∀ h : History U S, RanSinceReset h → 0 < h.countP Moment.ranTrial := by
    intro h hran
    induction h with
    | nil => cases hran
    | cons x h ih =>
      rw [List.countP_cons]
      rcases hran with hx | ⟨-, hran⟩
      · simp [hx]
      · have := ih hran
        omega
  rw [run.trial_eq]
  rcases run.phase_ne_ready_iff.mp hph with hran | hst
  · have := hpos h hran
    omega
  · omega

namespace Machine

/-- While nobody has the lock, nothing is due to a block and no block is being cleared. -/
theorem view_of_free (hl : m.lock = none) (s : Slot) (w : Worker U) :
    m.view s w = ⟨m.tally.trial, m.tally.phase, m.tally.hasReported s, [], none, w.control,
      w.point⟩ := by
  have hu : m.underLock = .idle := underLock_of_not_caller (by simp [hl])
  simp [view, hu, Call.handing, Call.clearing?]

/-- A worker that acts on its own block is not held up. -/
theorem step_own {c : Control} {p : Point} (hw : m.worker? s = some w)
    (hn : w.point.next w.control = some (c, p)) :
    m.step work (.worker s) =
      some (m.onSlot s fun w => { w with control := c, point := p }) := by
  -- The step sets the worker that is there, which is what it is changed to at its slot.
  have hset : m.setWorker s { w with control := c, point := p } =
      m.onSlot s fun w => { w with control := c, point := p } := by
    rw [setWorker_eq_onSlot]
    refine onSlot_congr fun w' hw' => ?_
    cases hw.symm.trans hw'
    rfl
  rw [← hset]
  simp only [step, stepWorker, hw]
  -- Only at the places where a worker touches what it shares does its own block not decide the step.
  cases hpt : w.point with
  | unborn | inUnit | report | freezing | releasing | ended | dead =>
    simp [hpt, Point.next] at hn
  | _ =>
    rw [hpt] at hn
    simp only [hn]

end Machine

/-- A worker that acts on its own block comes nearer to its report. -/
theorem Run.remaining_lt (run : Run work (.empty freeze shared) h m) (hcalm : Calm h)
    (hl : m.lock = none) (hph : m.tally.phase = .running) (hw : m.worker? s = some w)
    (hrep : m.tally.hasReported s = false) {c : Control} {p : Point}
    (hn : w.point.next w.control = some (c, p)) :
    View.remaining { m.view s w with control := c, point := p } < (m.view s w).remaining := by
  have hview := Machine.view_of_free hl s w
  have hpend : w.control.pending = m.tally.trial := by
    have harmed := run.armed s w hw
    rw [hview] at harmed
    rcases harmed ⟨hph, hrep⟩ rfl with hpend | ⟨units, hreport⟩
    · exact hpend
    · -- a worker that delivers does not act on its own block
      rw [show w.point = .report m.tally.trial units from hreport] at hn
      cases hn
  exact (run.orderly s w hw).remaining_lt hpend (run.trial_ne_zero (by simp [hph]))
    (run.lively hcalm s w hw).stopped hn

/-- By steps of its own a worker delivers its report, or comes nearer to that. -/
theorem Run.nearer (run : Run work (.empty freeze shared) h m) (hcalm : Calm h)
    (hl : m.lock = none) (hph : m.tally.phase = .running) (hw : m.worker? s = some w)
    (hrep : m.tally.hasReported s = false) :
    ∃ es m', (∀ e ∈ es, e.IsOf s) ∧ m.steps work es = some m' ∧ m'.lock = none ∧
      ((∃ now units, m'.tally = (m.tally.mark s).count now s units) ∨
        m'.tally = m.tally ∧ ∃ w', m'.worker? s = some w' ∧
          (m'.view s w').remaining < (m.view s w).remaining) := by
  have hlively := run.lively hcalm s w hw
  cases hpt : w.point with
  | report trial units =>
    obtain ⟨k, hk⟩ : ∃ k, m.steps work (List.replicate k (.worker s)) =
        some ((m.deliver m.clock ⟨s, trial, units⟩).onSlot s (Worker.goTo .top)) :=
      Machine.steps_deliver hw hpt hl
    refine ⟨_, _, fun e he => .inl (List.eq_of_mem_replicate he), hk, ?_⟩
    by_cases htrial : trial = m.tally.trial
    · -- the report is that of the current trial, and is accepted
      have ha : m.tally.accepts s trial = true :=
        (Tally.accepts_iff _ _ _).mpr ⟨hph, htrial, hrep⟩
      refine ⟨?_, .inl ⟨m.clock, units, ?_⟩⟩
      · simp [Machine.deliver, ha, hl]
      · simp [Machine.deliver, ha]
    · -- it is that of an earlier one
      have hr : m.tally.accepts s trial = false := by
        simp [Tally.accepts, Ne.symm htrial]
      rw [Machine.deliver, if_neg (by simp [hr])]
      refine ⟨by simp [hl], .inr ⟨by simp, w.goTo .top, by simp [hw], ?_⟩⟩
      rw [Machine.view_of_free (by simp [hl]), Machine.view_of_free hl]
      simp [View.remaining, View.rank, View.committed, Point.committed, hpt, htrial]
  | inUnit done =>
    have hs : m.step work (.finish s) =
        some ({ m with shared := (work w.unit m.shared).2 }.setWorker s
          { w with unit := (work w.unit m.shared).1, point := .publish (done + 1) }) := by
      simp [Machine.step, Machine.finishUnit, hw, hpt]
    rw [Machine.setWorker_eq_onSlot] at hs
    refine ⟨[.finish s], _, by simp [Machine.Event.IsOf], Machine.steps_cons hs, by simp [hl],
      .inr ⟨by simp, _, by simp [hw]; rfl, ?_⟩⟩
    rw [Machine.view_of_free (by simp [hl]), Machine.view_of_free hl]
    simp [View.remaining, View.rank, View.committed, Point.committed, hpt]
  | unborn => exact absurd hpt (hlively.born (run.coherent.staffed (by simp [hph])).1)
  | ended => exact absurd hpt hlively.not_ended
  | dead => exact absurd hpt hlively.not_dead
  | freezing trial done todo =>
    rw [run.coherent.lock_of_freezing hw hpt] at hl
    cases hl
  | releasing =>
    rw [run.coherent.lock_of_releasing hw hpt] at hl
    cases hl
  | _ =>
    -- everywhere else the worker acts on its own block
    obtain ⟨c, p, hnext⟩ : ∃ c p, w.point.next w.control = some (c, p) := by
      rw [hpt]
      exact ⟨_, _, rfl⟩
    refine ⟨[.worker s], _, by simp [Machine.Event.IsOf],
      Machine.steps_cons (Machine.step_own hw hnext), by simp [hl],
      .inr ⟨by simp, { w with control := c, point := p }, by simp [hw], ?_⟩⟩
    have hlt := run.remaining_lt hcalm hl hph hw hrep hnext
    rw [Machine.view_of_free (by simp [hl])]
    rw [Machine.view_of_free hl] at hlt ⊢
    simpa using hlt

/-- A worker goes on until its report is counted. -/
theorem Run.delivers (run : Run work (.empty freeze shared) h m) (hcalm : Calm h)
    (hl : m.lock = none) (hph : m.tally.phase = .running) (hw : m.worker? s = some w)
    (hrep : m.tally.hasReported s = false) :
    ∃ es m' now units, (∀ e ∈ es, e.IsOf s) ∧ m.steps work es = some m' ∧ m'.lock = none ∧
      m'.tally = (m.tally.mark s).count now s units := by
  -- by induction on what the worker has still to do
  induction hn : (m.view s w).remaining using Nat.strong_induction_on generalizing h m w with
  | _ n ih =>
    subst hn
    obtain ⟨es, m₁, hes, hsteps, hl₁, ⟨now, units, htally⟩ | ⟨htally, w₁, hw₁, hlt⟩⟩ :=
      run.nearer hcalm hl hph hw hrep
    · exact ⟨es, m₁, now, units, hes, hsteps, hl₁, htally⟩
    · have hcalm₁ : Calm (m.historyFrom work h es) :=
        hcalm.historyFrom fun e he => .inl ⟨s, hes e he⟩
      obtain ⟨es', m', now, units, hes', hsteps', hl', htally'⟩ :=
        ih _ hlt (run.of_steps hsteps) hcalm₁ hl₁ (htally ▸ hph) hw₁ (htally ▸ hrep) rfl
      refine ⟨es ++ es', m', now, units, List.forall_mem_append.mpr ⟨hes, hes'⟩, ?_, hl',
        by rw [htally', htally]⟩
      rw [Machine.steps_append hsteps, hsteps']

/-! ## All workers go on -/

/-- How many workers have not reported. -/
def Tally.missing (t : Tally) : Nat :=
  ((t.flags .writer).length - (t.flags .writer).count true) +
    ((t.flags .reader).length - (t.flags .reader).count true)

theorem Tally.missing_mark {t : Tally} (hs : t.hasReported s = false) :
    (t.mark s).missing < t.missing := by
  have hcount := Tally.count_flags_mark hs
  have hle : ∀ r, ((t.mark s).flags r).count true ≤ ((t.mark s).flags r).length :=
    fun r => List.count_le_length
  have hw := hle .writer
  have hr := hle .reader
  unfold Tally.missing
  simp only [hcount, Tally.length_flags_mark] at hw hr ⊢
  cases hrole : s.role with
  | writer =>
    simp only [hrole, if_true, reduceCtorEq, if_false, Nat.add_zero] at hw ⊢
    omega
  | reader =>
    simp only [hrole, if_true, reduceCtorEq, if_false, Nat.add_zero] at hr ⊢
    omega

/-- Whoever has not reported is on the roster. -/
theorem Machine.Coherent.worker_of_unreported (hc : m.Coherent) (hl : m.launched = true)
    (hrep : m.tally.hasReported s = false) : ∃ w, m.worker? s = some w := by
  apply Machine.worker?_of_lt
  rw [← hc.length_flags hl]
  exact Tally.lt_of_unreported hrep

/-- From a state in which nobody has the lock the workers complete the trial. -/
theorem Run.completes (run : Run work (.empty freeze shared) h m) (hcalm : Calm h)
    (hl : m.lock = none) (hph : m.tally.phase ≠ .ready) :
    ∃ es m', (∀ e ∈ es, ∃ s, Machine.Event.IsOf e s) ∧ m.steps work es = some m' ∧
      m'.tally.phase = .complete ∧ m'.tally.trial = m.tally.trial := by
  -- by induction on how many workers have still to report
  induction hn : m.tally.missing using Nat.strong_induction_on generalizing h m with
  | _ n ih =>
    subst hn
    have ho := run.opened hl hph
    by_cases hcomplete : m.tally.phase = .complete
    · exact ⟨[], m, by simp, rfl, hcomplete, rfl⟩
    · obtain ⟨s, hrep⟩ : ∃ s, m.tally.hasReported s = false := by
        rw [ho.complete_iff] at hcomplete
        simpa using hcomplete
      have hrunning := ho.running hrep
      obtain ⟨w, hw⟩ :=
        run.coherent.worker_of_unreported (run.coherent.staffed hph).1 hrep
      obtain ⟨es, m₁, now, units, hes, hsteps, hl₁, htally⟩ :=
        run.delivers hcalm hl hrunning hw hrep
      have hph₁ : m₁.tally.phase ≠ .ready := by
        rw [htally]
        rcases (m.tally.mark s).phase_count_or now s units with h | h <;> simp [h, hrunning]
      have hlt : m₁.tally.missing < m.tally.missing := by
        rw [htally]
        simpa [Tally.missing] using Tally.missing_mark hrep
      have hcalm₁ : Calm (m.historyFrom work h es) :=
        hcalm.historyFrom fun e he => .inl ⟨s, hes e he⟩
      obtain ⟨es', m', hes', hsteps', hdone, htrial⟩ :=
        ih _ hlt (run.of_steps hsteps) hcalm₁ hl₁ hph₁ rfl
      refine ⟨es ++ es', m', List.forall_mem_append.mpr ⟨fun e he => ⟨s, hes e he⟩, hes'⟩, ?_, hdone,
        by rw [htrial, htally]; simp⟩
      rw [Machine.steps_append hsteps, hsteps']

/-! ## Whoever has the lock goes on -/

/-- A caller that has the lock while a trial is running, and is not just starting it, fails and
gives the lock back. -/
theorem Run.caller_unlocks (run : Run work (.empty freeze shared) h m)
    (hph : m.tally.phase = .running)
    (hres : ∀ t quota todo, (m.caller t).call ≠ .resuming quota todo) {t : Thread}
    (hl : m.lock = some (.caller t)) :
    ∃ k m', m.steps work (List.replicate k (.call t)) = some m' ∧ m'.lock = none ∧
      m'.tally = m.tally := by
  have hc := run.coherent
  have hholds := (hc.lock_caller t).mp hl
  have hrelease : ∀ (m₁ : Machine U S) a, (m₁.caller t).call = .releasing a →
      m₁.step work (.call t) = some (m₁.unlock t a) := by
    intro m₁ a hcall
    simp [Machine.step, Machine.stepCall, hcall]
  cases hcall : (m.caller t).call with
  | runAtFlag total =>
    -- no trial is started while one is running
    obtain ⟨a, ha⟩ : ∃ a, m.step work (.call t) = some (m.goOn t (.releasing a)) := by
      simp only [Machine.step, Machine.stepCall, hcall, Machine.startTrial, hph]
      split <;> exact ⟨_, rfl⟩
    have ha' := hrelease (m.goOn t (.releasing a)) a (by simp [Machine.goOn])
    refine ⟨2, (m.goOn t (.releasing a)).unlock t a, ?_, ?_, ?_⟩
    · rw [List.replicate_succ, Machine.steps_cons ha, List.replicate_succ, Machine.steps_cons ha']
      rfl
    · simp [Machine.unlock, Machine.reply]
    · simp [Machine.unlock, Machine.reply, Machine.goOn]
  | releasing a =>
    exact ⟨1, _, Machine.steps_cons (hrelease m a hcall), by simp [Machine.unlock, Machine.reply],
      by simp [Machine.unlock, Machine.reply]⟩
  | resuming quota todo => exact absurd hcall (hres t quota todo)
  | resetting kept todo => exact absurd hph (run.not_running_of_resetting hcall)
  | _ =>
    rw [hcall] at hholds
    cases hholds

/-- A worker that has the lock gives it back by steps of its own. -/
theorem Run.worker_unlocks (run : Run work (.empty freeze shared) h m)
    (hl : m.lock = some (.worker s)) :
    ∃ k m', m.steps work (List.replicate k (.worker s)) = some m' ∧ m'.lock = none ∧
      m'.tally.trial = m.tally.trial ∧
        (m'.tally.phase = m.tally.phase ∨ m'.tally.phase = .complete) := by
  have hheld := (run.coherent.lock_worker s).mp hl
  obtain ⟨p, hp, hholds⟩ := (Option.any_eq_true _ _).mp hheld
  obtain ⟨w, hw, rfl⟩ := Option.map_eq_some_iff.mp hp
  -- A worker with the lock delivers its report or is about to let go, and needs nobody for either.
  cases hpt : w.point with
  | freezing trial done todo =>
    exact ⟨_, _, Machine.steps_freezing hw hpt, by simp, by simp,
      by simpa using m.tally.phase_count_or m.clock s done⟩
  | releasing =>
    have hs : m.step work (.worker s) =
        some ({ m with lock := none }.onSlot s (Worker.goTo .top)) := by
      simp [Machine.step, Machine.stepWorker, hw, hpt, Machine.moveTo_eq]
    exact ⟨1, _, Machine.steps_cons hs, by simp, by simp, .inl (by simp)⟩
  | _ =>
    rw [hpt] at hholds
    cases hholds

/-- A trial that is running is completed by steps of the workers, after those of a caller that has
the lock just then. -/
theorem Run.completes_running (run : Run work (.empty freeze shared) h m) (hcalm : Calm h)
    (hph : m.tally.phase = .running)
    (hres : ∀ t quota todo, (m.caller t).call ≠ .resuming quota todo) :
    ∃ es es' m', (∀ e ∈ es, ∃ t, e = .call t ∧ m.lock = some (.caller t)) ∧
      (∀ e ∈ es', ∃ s, Machine.Event.IsOf e s) ∧ m.steps work (es ++ es') = some m' ∧
      m'.tally.phase = .complete ∧ m'.tally.trial = m.tally.trial := by
  -- Whoever has the lock is let to its end first; then the workers complete the trial.
  cases hl : m.lock with
  | none =>
    obtain ⟨es', m', hes', hsteps, hdone, htrial⟩ := run.completes hcalm hl (by simp [hph])
    exact ⟨[], es', m', by simp, hes', hsteps, hdone, htrial⟩
  | some holder =>
    cases holder with
    | caller t =>
      obtain ⟨k, m₁, hsteps, hl₁, htally⟩ := run.caller_unlocks hph hres hl
      have hcalm₁ : Calm (m.historyFrom work h (List.replicate k (.call t))) :=
        hcalm.historyFrom fun e he => .inr ⟨t, List.eq_of_mem_replicate he⟩
      obtain ⟨es', m', hes', hsteps', hdone, htrial⟩ :=
        (run.of_steps hsteps).completes hcalm₁ hl₁ (by simp [htally, hph])
      refine ⟨List.replicate k (.call t), es', m', fun e he => ⟨t, List.eq_of_mem_replicate he, rfl⟩,
        hes', ?_, hdone, by rw [htrial, htally]⟩
      rw [Machine.steps_append hsteps, hsteps']
    | worker s =>
      obtain ⟨k, m₁, hsteps, hl₁, htrial₁, hph₁⟩ := run.worker_unlocks hl
      have hes : ∀ e ∈ List.replicate k (Machine.Event.worker (U := U) s), e.IsOf s :=
        fun e he => .inl (List.eq_of_mem_replicate he)
      have hcalm₁ : Calm (m.historyFrom work h (List.replicate k (.worker s))) :=
        hcalm.historyFrom fun e he => .inl ⟨s, hes e he⟩
      have hne : m₁.tally.phase ≠ .ready := by
        rcases hph₁ with h | h <;> simp [h, hph]
      obtain ⟨es', m', hes', hsteps', hdone, htrial⟩ :=
        (run.of_steps hsteps).completes hcalm₁ hl₁ hne
      refine ⟨[], List.replicate k (.worker s) ++ es', m', by simp,
        List.forall_mem_append.mpr ⟨fun e he => ⟨s, hes e he⟩, hes'⟩, ?_, hdone,
        by rw [htrial, htrial₁]⟩
      rw [List.nil_append, Machine.steps_append hsteps, hsteps']

/-! ## No report is lost -/

/-- Nothing is due to a block unless a caller hands out quota. -/
theorem Machine.due_of_not_resuming
    (hres : ∀ t quota todo, (m.caller t).call ≠ .resuming quota todo) (s : Slot) (w : Worker U) :
    (m.view s w).due = [] := by
  show forSlot s m.underLock.handing = []
  unfold underLock
  split
  · next t _ =>
    cases hcall : (m.caller t).call with
    | resuming quota todo => exact absurd hcall (hres t quota todo)
    | _ => rfl
  · rfl

/-- While a trial is running and nobody is just handing out its quota, every worker that has not
reported is asked to, or is about to deliver its report, which is then accepted whenever that comes
to pass; a claim that is left over from an earlier trial leaves the request as it is.  Unless the
workers are stopped or a unit panics, all of them come to deliver their reports by steps of their
own. -/
theorem no_report_lost (run : Run work (.empty freeze shared) h m)
    (hph : m.tally.phase = .running)
    (hres : ∀ t quota todo, (m.caller t).call ≠ .resuming quota todo) :
    (∀ s ∈ m.slots, m.tally.hasReported s = false → ∃ w, m.worker? s = some w ∧
      (w.control.pending = m.tally.trial ∨ ∃ units, w.point = .report m.tally.trial units) ∧
      (∀ units, w.point = .report m.tally.trial units → ∀ h' m₁ m₂, Run work m h' m₁ →
        (∀ x ∈ h', x.event ≠ .worker s) → m₁.step work (.worker s) = some m₂ →
        Moment.accepted? ⟨m₁, .worker s, m₂⟩ = some s ∧ m₂.tally = m₁.tally.mark s) ∧
      (∀ trial units, w.point = .claim trial units → trial ≠ m.tally.trial →
        ∀ m₁, m.step work (.worker s) = some m₁ → m₁.worker? s = some (w.goTo .top))) ∧
      (Calm h → ∃ es es' m', (∀ e ∈ es, ∃ t, e = .call t ∧ m.lock = some (.caller t)) ∧
        (∀ e ∈ es', ∃ s, Machine.Event.IsOf e s) ∧ m.steps work (es ++ es') = some m' ∧
        m'.tally.phase = .complete ∧ m'.tally.trial = m.tally.trial) := by
  refine ⟨fun s _ hrep => ?_, fun hcalm => run.completes_running hcalm hph hres⟩
  obtain ⟨w, hw⟩ :=
    run.coherent.worker_of_unreported (run.coherent.staffed (by simp [hph])).1 hrep
  have harmed := run.armed s w hw ⟨hph, hrep⟩ (Machine.due_of_not_resuming hres s w)
  refine ⟨w, hw, harmed, fun units hpt h' m₁ m₂ rest hne hs => ?_,
    fun trial units hpt htrial m₁ hs => ?_⟩
  · have hd : m.Delivers s m.tally.trial units :=
      ⟨by rw [Machine.point?_of_worker? hw, hpt], rfl, hph, hrep⟩
    exact (run.report_stays hd rest hne).accepted hs
  · -- the request is for the current trial, so that the exchange fails
    have hne : w.control.pending ≠ trial := by
      rcases harmed with hpend | ⟨units', hpt'⟩
      · exact fun h => htrial (h.symm.trans hpend)
      · cases hpt.symm.trans hpt'
    have hnext : w.point.next w.control = some (w.control, .top) := by
      simp [hpt, Point.next, exchange, hne]
    rw [Machine.step_own hw hnext, Option.some.injEq] at hs
    rw [← hs]
    simp [hw, Worker.goTo]

/-- A single writer that has performed its unit and is about to deliver its report. -/
def soloReport : List (Machine.Event Unit) := List.flatten [
  [.register .writer .writer (), .launch, .invoke .controlling (.run 1)],
  .replicate 5 (.call .controlling),
  .replicate 5 (.worker ⟨.writer, 0⟩),
  [.finish ⟨.writer, 0⟩],
  .replicate 6 (.worker ⟨.writer, 0⟩)]

theorem no_report_lost_soloReport :
    let h := (Machine.empty .everyone ()).historyFrom idleWork [] soloReport
    ∃ m, Run idleWork (.empty .everyone ()) h m ∧ m.tally.phase = .running ∧
      (∀ t quota todo, (m.caller t).call ≠ .resuming quota todo) ∧ Calm h ∧
      (∃ w, m.worker? ⟨.writer, 0⟩ = some w ∧
        (w.control.pending = 1 ∨ ∃ units, w.point = .report 1 units)) ∧
      ∃ es m', m.steps idleWork es = some m' ∧ m'.tally.phase = .complete := by
  intro h
  have hend : ((Machine.empty .everyone ()).steps idleWork soloReport).map
      (fun m => (m.tally.phase, m.tally.trial, m.slots, m.tally.hasReported ⟨.writer, 0⟩,
        (m.controlling.call.starts, m.other.call.starts))) =
          some (.running, 1, [⟨.writer, 0⟩], false, (0, 0)) := rfl
  obtain ⟨m, run, heq⟩ := Run.exists_of_map hend
  simp only [Prod.mk.injEq] at heq
  obtain ⟨hph, htrial, hslots, hrep, hcontrolling, hother⟩ := heq
  have hres : ∀ t quota todo, (m.caller t).call ≠ .resuming quota todo := by
    intro t quota todo hcall
    cases t with
    | controlling =>
      rw [show m.controlling.call = .resuming quota todo from hcall] at hcontrolling
      cases hcontrolling
    | other =>
      rw [show m.other.call = .resuming quota todo from hcall] at hother
      cases hother
  have hstops : ∀ x ∈ h, x.stops = false := by decide
  have hpanics : ∀ x ∈ h, (match x.event with | .panic _ => true | _ => false) = false := by
    decide
  have hcalm : Calm h := by
    refine fun x hx => ⟨hstops x hx, fun s he => ?_⟩
    have hno := hpanics x hx
    rw [he] at hno
    cases hno
  obtain ⟨hslot, hdone⟩ := no_report_lost run hph hres
  obtain ⟨w, hw, harmed, -⟩ := hslot ⟨.writer, 0⟩ (by simp [hslots]) hrep
  obtain ⟨es, es', m', -, -, hsteps, hcomplete, -⟩ := hdone hcalm
  rw [htrial] at harmed
  exact ⟨m, run, hph, hres, hcalm, ⟨w, hw, harmed⟩, es ++ es', m', hsteps, hcomplete⟩

end SpeedTrial.Trial
