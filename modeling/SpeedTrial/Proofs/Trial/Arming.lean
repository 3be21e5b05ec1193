import SpeedTrial.Proofs.Trial.Ledger

/-!
# No report is lost

The cell by which a worker is asked for its report is written by whoever starts a trial, by whoever
freezes the worker and by whoever resets it, and is claimed by the worker, all without a lock.  A
view is `Armed` if none of this loses the request: as long as a report is expected, it is asked for
or is about to be delivered.

* `Armed.step`: no step of anybody disarms a worker.
* `Run.report_stays`: a report of the current trial that is about to be delivered stays expected
  until its worker goes on, and `Machine.Delivers.accepted`: it is accepted then.
-/

namespace SpeedTrial.Trial

namespace View

/-- A report that is expected is asked for, or about to be delivered. -/
def Armed (v : View) : Prop :=
  v.Owes → v.due = [] →
    v.control.pending = v.trial ∨ ∃ units, v.point = .report v.trial units

variable {v v' : View} {x : Happening}

/-- A worker that claims a report of the current trial goes on to deliver it, and one that claims a
report of an earlier one claims nothing. -/
theorem Armed.own {c : Control} {p : Point} (ha : v.Armed)
    (hn : v.point.next v.control = some (c, p)) :
    Armed { v with control := c, point := p } := by
  intro hw hd
  rcases ha hw hd with hpend | ⟨units, hpt⟩
  · cases hpt : v.point with
    | claim trial done =>
      simp only [hpt, Point.next, exchange] at hn
      split at hn
      · next heq =>
        -- what is claimed is the report of the current trial
        obtain ⟨-, rfl⟩ := Prod.mk.inj (Option.some.inj hn)
        exact .inr ⟨done, by simp [← heq, hpend]⟩
      · obtain ⟨rfl, -⟩ := Prod.mk.inj (Option.some.inj hn)
        exact .inl hpend
    | publish done =>
      simp only [hpt, Point.next, Option.some.injEq, Prod.mk.injEq] at hn
      obtain ⟨rfl, -⟩ := hn
      exact .inl hpend
    | unborn | inUnit | report | freezing | releasing | ended | dead =>
      simp [hpt, Point.next] at hn
    | _ =>
      simp only [hpt, Point.next, Option.some.injEq, Prod.mk.injEq] at hn
      obtain ⟨rfl, -⟩ := hn
      exact .inl hpend
  · -- a worker that delivers does not act on its own block
    simp [hpt, Point.next] at hn

theorem Armed.step (ho : v.Orderly) (ha : v.Armed) (hs : Step v x v') : v'.Armed := by
  have hp := ho.point
  cases hs with
  | stay | startClear | abandon => exact ha
  | launch _ hready => exact fun hw => absurd (hready.symm.trans hw.1) (by simp)
  | own s hn => exact ha.own hn
  | returned hpt | panicked hpt | release hpt =>
    intro hw hd
    rcases ha hw hd with hpend | ⟨units, hpt'⟩
    · exact .inl hpend
    · simp [hpt] at hpt'
  | accept => exact fun hw => absurd hw.2 (by simp)
  | refuse hpt hno =>
    -- a report of the current trial that is expected is not refused
    intro hw hd
    rcases ha hw hd with hpend | ⟨units, hpt'⟩
    · exact .inl hpend
    · rw [hpt, Point.report.injEq] at hpt'
      exact absurd ⟨hw, hpt'.1⟩ hno
  | freeze hpt | count hpt =>
    rw [hpt] at hp
    exact fun hw => absurd (hp.2.2.1.symm.trans hw.2) (by simp)
  | complete => exact fun hw => absurd hw.1 (by simp)
  | begin => exact fun _ hd => absurd hd (by simp [Control.resuming])
  | hand hd =>
    -- the last access of a start is the request
    rintro hw rfl
    obtain ⟨-, -, ⟨rfl, -⟩ | ⟨-, -, hrest, -⟩⟩ := ho.due.of_cons hd
    · exact .inl rfl
    · cases hrest
  | clear hc => exact fun hw => absurd hw.1 (ho.clearing _ hc).1
  | endClear => exact fun hw => absurd hw.1 (by simp)
  | arm => exact fun _ _ => .inl rfl
  | pause | raise | halt => exact ha

end View

variable {U S : Type} {work : U → S → U × S} {freeze : FreezeScope} {shared : S}
  {h h' : History U S} {m m' : Machine U S} {e : Machine.Event U} {s : Slot}

theorem Run.armed (run : Run work (.empty freeze shared) h m) :
    ∀ s w, m.worker? s = some w → (m.view s w).Armed := by
  induction run with
  | start => simp
  | @next h m m' e run hs ih =>
    intro s w' hw'
    rcases run.step_view hs hw' with ⟨w, hw, hstep⟩ | ⟨-, hl, unit, rfl⟩
    · exact (ih s w hw).step (run.orderly s w hw) hstep
    · -- before the launch there is no trial
      have hc := (run.next hs).coherent
      intro hwork
      have hready : m'.tally.phase = .ready := by rw [(hc.unborn hl).1]
      exact absurd (hready.symm.trans hwork.1) (by simp)

/-! ## A report that is about to be delivered -/

/-- The worker in a slot is about to deliver a report that is expected. -/
structure Machine.Delivers (m : Machine U S) (s : Slot) (trial units : Nat) : Prop where
  point : m.point? s = some (.report trial units)
  trial : m.tally.trial = trial
  running : m.tally.phase = .running
  expected : m.tally.hasReported s = false

/-- Nothing that others do makes a report of the current trial unexpected. -/
theorem Run.report_next (run : Run work (.empty freeze shared) h m)
    (hs : m.step work e = some m') (hne : e ≠ .worker s) {trial units : Nat}
    (hd : m.Delivers s trial units) : m'.Delivers s trial units := by
  have hc := run.coherent
  obtain ⟨hpt, htrial, hph, hrep⟩ := hd
  cases Machine.Move.of_step hs with
  | @own s' | @accept s' | @refuse s' | @freeze s' | @release s' =>
    have hss : s ≠ s' := by
      rintro rfl
      exact hne rfl
    exact ⟨by simp [hpt, hss], by simp [htrial], by simp [hph], by simp [hrep, hss]⟩
  | @count s' w trial' done hw hp =>
    have hss : s ≠ s' := by
      rintro rfl
      exact hne rfl
    refine ⟨by simp [hpt, hss], by simp [htrial], ?_, by simp [hrep]⟩
    -- the trial is not complete before the worker has reported
    rw [Machine.tally_onSlot]
    rcases m.tally.phase_count_or m.clock s' done with hor | hor
    · exact hor.trans hph
    · rw [hc.reported_of_count hw hp hor s] at hrep
      cases hrep
  | @finish s' w done hw hp | @panic s' w done hw hp =>
    have hss : s ≠ s' := by
      rintro rfl
      rw [Machine.point?_of_worker? hw, hp] at hpt
      cases hpt
    exact ⟨by simp [hpt, hss], by simp [htrial], by simp [hph], by simp [hrep]⟩
  | begin _ _ hready => simp [hph] at hready
  | endReset hcall => exact absurd hph (run.not_running_of_resetting hcall)
  | register _ hl | launch _ hl =>
    rw [(hc.staffed (by simp [hph])).1] at hl
    cases hl
  | fail => exact ⟨hpt, htrial, hph, hrep⟩
  | _ => exact ⟨by simp [hpt], by simp [htrial], by simp [hph], by simp [hrep]⟩

/-- Until its worker goes on, a report of the current trial stays expected. -/
theorem Run.report_stays (run : Run work (.empty freeze shared) h m) {trial units : Nat}
    (hd : m.Delivers s trial units) (rest : Run work m h' m')
    (hne : ∀ x ∈ h', x.event ≠ .worker s) : m'.Delivers s trial units := by
  induction rest with
  | start => exact hd
  | next rest hs ih =>
    have hbefore := ih fun x hx => hne x (List.mem_cons_of_mem _ hx)
    exact (run.trans rest).report_next hs (hne _ (List.mem_cons_self ..)) hbefore

/-- A report that is expected is accepted as soon as the lock can be taken. -/
theorem Machine.Delivers.accepted {trial units : Nat} (hd : m.Delivers s trial units)
    (hs : m.step work (.worker s) = some m') :
    Moment.accepted? ⟨m, .worker s, m'⟩ = some s ∧ m'.tally = m.tally.mark s := by
  obtain ⟨w, hw, hp⟩ := Option.map_eq_some_iff.mp hd.point
  have ha : m.tally.accepts s trial = true :=
    (Tally.accepts_iff _ _ _).mpr ⟨hd.running, hd.trial.symm, hd.expected⟩
  have hacc : Moment.accepted? ⟨m, .worker s, m'⟩ = some s := by
    simp [Moment.accepted?, hw, hp, ha]
  exact ⟨hacc, (tally_of_accepted hs hacc).2.1⟩

end SpeedTrial.Trial
