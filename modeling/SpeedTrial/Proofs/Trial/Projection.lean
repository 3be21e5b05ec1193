import SpeedTrial.Proofs.Trial.Account
import SpeedTrial.Proofs.Trial.Coherence

/-!
# A machine slot by slot

`Machine.view` is the view of one worker in a machine.  Main statement: `Coherent.projects`, a move
of a coherent machine is a step of each of its views, and means to the worker what the history
says.
-/

namespace SpeedTrial.Trial

/-- What a start of a trial has still to do to the blocks. -/
def Call.handing : Call → List (Slot × Access)
  | .resuming _ todo => todo
  | _ => []

/-- What a reset has still to do to the blocks. -/
def Call.clearing? : Call → Option (List (Slot × Access))
  | .resetting _ todo => some todo
  | _ => none

namespace Machine

variable {U S : Type}

/-- The operation that holds the lock. -/
def underLock (m : Machine U S) : Call :=
  match m.lock with
  | some (.caller t) => (m.caller t).call
  | _ => .idle

/-- What concerns the worker in a slot. -/
def view (m : Machine U S) (s : Slot) (w : Worker U) : View where
  trial := m.tally.trial
  phase := m.tally.phase
  reported := m.tally.hasReported s
  due := forSlot s m.underLock.handing
  clearing := m.underLock.clearing?.map (forSlot s)
  control := w.control
  point := w.point

variable {work : U → S → U × S} {m m' : Machine U S} {e : Event U}

/-! ## The operation that holds the lock -/

theorem underLock_of_lock {t : Thread} (hl : m.lock = some (.caller t)) :
    m.underLock = (m.caller t).call := by
  simp [underLock, hl]

theorem underLock_of_not_caller (hl : ∀ t, m.lock ≠ some (.caller t)) : m.underLock = .idle := by
  unfold underLock
  split
  · exact absurd ‹_› (hl _)
  · rfl

theorem Coherent.underLock_eq (hc : m.Coherent) {t : Thread} {c : Call}
    (hcall : (m.caller t).call = c) (hh : c.holds = true) : m.underLock = c := by
  subst hcall
  exact underLock_of_lock ((hc.lock_caller t).mpr hh)

/-- The holder goes on as before if the lock stays and the holder does not move. -/
theorem underLock_congr (hl : m'.lock = m.lock)
    (hcall : ∀ t, m.lock = some (.caller t) → m'.caller t = m.caller t) :
    m'.underLock = m.underLock := by
  unfold underLock
  rw [hl]
  cases hlock : m.lock with
  | none => rfl
  | some holder =>
    cases holder with
    | worker s => rfl
    | caller t => simp only [hcall t hlock]

/-- Nothing is handed out or cleared, before and after. -/
theorem view_congr {s : Slot} {w : Worker U} (ht : m'.tally.trial = m.tally.trial)
    (hp : m'.tally.phase = m.tally.phase) (hr : m'.tally.hasReported s = m.tally.hasReported s)
    (hd : forSlot s m'.underLock.handing = forSlot s m.underLock.handing)
    (hcl : m'.underLock.clearing?.map (forSlot s) = m.underLock.clearing?.map (forSlot s)) :
    m'.view s w = m.view s w := by
  simp only [view, ht, hp, hr, hd, hcl]

/-! ## Moves of workers -/

/-- A move means to the worker in a slot what a step of its view does. -/
def Projects (m : Machine U S) (e : Event U) (m' : Machine U S) (s : Slot) : Prop :=
  ∀ w', m'.worker? s = some w' →
    (∃ w, m.worker? s = some w ∧
      View.Step (m.view s w) (Moment.at ⟨m, e, m'⟩ s) (m'.view s w')) ∨
    m.worker? s = none ∧ m'.launched = false ∧ ∃ unit, w' = { unit := unit }

/-- A worker moves by itself, while the rest of the machine may change too. -/
theorem Projects.of_worker {s : Slot} {w : Worker U} (hw : m.worker? s = some w)
    {f : Worker U → Worker U} {m₁ : Machine U S} (hroster : ∀ s, m₁.worker? s = m.worker? s)
    (hown : View.Step (m.view s w) (Moment.at ⟨m, e, m₁.onSlot s f⟩ s)
      ((m₁.onSlot s f).view s (f w)))
    (hother : ∀ s' w', m.worker? s' = some w' → s' ≠ s →
      Moment.at ⟨m, e, m₁.onSlot s f⟩ s' = .quiet ∧
      View.Step (m.view s' w') .quiet ((m₁.onSlot s f).view s' w')) (s' : Slot) :
    Projects m e (m₁.onSlot s f) s' := by
  intro w' h
  rw [worker?_onSlot, hroster s'] at h
  obtain ⟨w₀, hw₀, rfl⟩ := Option.map_eq_some_iff.mp h
  refine .inl ⟨w₀, hw₀, ?_⟩
  by_cases hs : s' = s
  · -- the worker that moves
    subst hs
    obtain rfl : w = w₀ := Option.some.inj (hw.symm.trans hw₀)
    simpa using hown
  · -- any other one
    obtain ⟨hquiet, hstep⟩ := hother s' w₀ hw₀ hs
    rw [hquiet, if_neg hs]
    exact hstep

/-- A move that leaves the roster alone. -/
theorem Projects.of_roster {s : Slot} (hroster : ∀ s, m'.worker? s = m.worker? s)
    (h : ∀ w, m.worker? s = some w →
      View.Step (m.view s w) (Moment.at ⟨m, e, m'⟩ s) (m'.view s w)) :
    Projects m e m' s := by
  intro w hw
  rw [hroster s] at hw
  exact .inl ⟨w, hw, h w hw⟩

/-- To a worker that is not concerned nothing happens. -/
theorem step_of_view_eq {s : Slot} {w : Worker U} (hv : m'.view s w = m.view s w) :
    View.Step (m.view s w) .quiet (m'.view s w) := by
  rw [hv]
  exact .stay

/-- What a step of a worker means to another one, unless it freezes it. -/
theorem at_worker {s s' : Slot} {w : Worker U} (hw : m.worker? s = some w) :
    Moment.at ⟨m, .worker s, m'⟩ s' = w.point.meaning s s' := by
  simp [Moment.at, Moment.begins?, hw]

theorem projects_own {s : Slot} {w : Worker U} {c : Control} {p : Point}
    (hw : m.worker? s = some w) (hn : w.point.next w.control = some (c, p)) (s' : Slot) :
    Projects m (.worker s) (m.onSlot s fun w => { w with control := c, point := p }) s' := by
  have hu : (m.onSlot s fun w => { w with control := c, point := p }).underLock = m.underLock :=
    underLock_congr (by simp) (by simp)
  refine .of_worker hw (by simp) ?_ (fun s' w' hw' hs => ⟨?_, ?_⟩) s'
  · rw [at_worker hw]
    simpa [view, hu] using View.Step.own (v := m.view s w) s hn
  · -- no point at which a worker acts on its own block concerns another worker
    rw [at_worker hw]
    cases hpt : w.point <;> simp_all [Point.meaning, Point.next, eq_comm (a := s)]
  · exact step_of_view_eq (view_congr (by simp) (by simp) (by simp) (by simp [hu]) (by simp [hu]))

theorem projects_accept {s : Slot} {w : Worker U} {trial done : Nat}
    (hw : m.worker? s = some w) (hp : w.point = .report trial done) (hl : m.lock = none)
    (ha : m.tally.accepts s trial = true) (s' : Slot) :
    Projects m (.worker s)
      ({ m with lock := some (.worker s), tally := m.tally.mark s }.onSlot s
          (Worker.goTo (.freezing trial done (m.freezeOthers s trial)))) s' := by
  obtain ⟨hph, rfl, hrep⟩ := (Tally.accepts_iff _ _ _).mp ha
  -- While a worker has the lock there is no caller under it.
  have hu : m.underLock = .idle := underLock_of_not_caller (by simp [hl])
  have hu' : ({ m with lock := some (.worker s), tally := m.tally.mark s }.onSlot s
      (Worker.goTo (.freezing m.tally.trial done
        (m.freezeOthers s m.tally.trial)))).underLock = .idle :=
    underLock_of_not_caller (by simp)
  refine .of_worker hw (by simp) ?_ (fun s' w' hw' hs => ⟨?_, ?_⟩) s'
  · have hstep := @View.Step.accept (m.view s w) done (m.freezeOthers s m.tally.trial)
      ⟨hph, hrep⟩ (by simp [view, hu, Call.handing]) (by simp [view, hu, Call.clearing?]) hp
    rw [at_worker hw, hp]
    simpa [Point.meaning, view, hu, hu'] using hstep
  · rw [at_worker hw, hp]
    rfl
  · exact step_of_view_eq (view_congr (by simp) (by simp) (by simp [hs]) (by simp [hu, hu'])
      (by simp [hu, hu']))

theorem projects_refuse {s : Slot} {w : Worker U} {trial done : Nat}
    (hw : m.worker? s = some w) (hp : w.point = .report trial done) (hl : m.lock = none)
    (ha : m.tally.accepts s trial = false) (s' : Slot) :
    Projects m (.worker s)
      ({ m with lock := some (.worker s) }.onSlot s (Worker.goTo .releasing)) s' := by
  have hu : m.underLock = .idle := underLock_of_not_caller (by simp [hl])
  have hu' : ({ m with lock := some (.worker s) }.onSlot s
      (Worker.goTo .releasing)).underLock = .idle := underLock_of_not_caller (by simp)
  refine .of_worker hw (by simp) ?_ (fun s' w' hw' hs => ⟨?_, ?_⟩) s'
  · -- what the tally refuses is of another trial, or is not expected
    have hno : ¬ ((m.view s w).Owes ∧ trial = m.tally.trial) := by
      rintro ⟨⟨hph, hrep⟩, ht⟩
      rw [(Tally.accepts_iff _ _ _).mpr ⟨hph, ht, hrep⟩] at ha
      cases ha
    rw [at_worker hw, hp]
    simpa [Point.meaning, view, hu, hu'] using View.Step.refuse (v := m.view s w) hp hno
  · rw [at_worker hw, hp]
    rfl
  · exact step_of_view_eq (view_congr (by simp) (by simp) (by simp) (by simp [hu, hu'])
      (by simp [hu, hu']))

theorem Coherent.projects_freeze (hc : m.Coherent) {s t : Slot} {w : Worker U} {trial done : Nat}
    {a : Access} {todo : List (Slot × Access)} (hw : m.worker? s = some w)
    (hp : w.point = .freezing trial done ((t, a) :: todo)) (s' : Slot) :
    Projects m (.worker s)
      ((m.onSlot t (Worker.write a)).onSlot s (Worker.goTo (.freezing trial done todo))) s' := by
  have hl := hc.lock_of_freezing hw hp
  have hu : m.underLock = .idle := underLock_of_not_caller (by simp [hl])
  have hu' : ((m.onSlot t (Worker.write a)).onSlot s
      (Worker.goTo (.freezing trial done todo))).underLock = .idle :=
    underLock_of_not_caller (by simp [hl])
  obtain ⟨rfl, hph, hall⟩ := hc.freezing _ _ _ _ (by rw [point?_of_worker? hw, hp])
  obtain ⟨-, -, hts, ha, -⟩ := mem_freezeOthers (hall _ (List.mem_cons_self ..))
  intro w' h
  simp only [worker?_onSlot, Option.map_map, Option.map_eq_some_iff] at h
  obtain ⟨w₀, hw₀, rfl⟩ := h
  refine .inl ⟨w₀, hw₀, ?_⟩
  rw [at_worker hw, hp]
  by_cases hs : s' = s
  · -- the worker that freezes
    subst hs
    obtain rfl : w = w₀ := Option.some.inj (hw.symm.trans hw₀)
    have hstep := View.Step.freeze (v := m.view s' w) hp
    cases a <;> simpa [Point.meaning, view, hu, hu', hts, Ne.symm hts] using hstep
  · by_cases hst : s' = t
    · -- the worker that is frozen
      subst hst
      have hdue : (m.view s' w₀).due = [] := by simp [view, hu, Call.handing]
      simp only [Control.pausing, Control.resuming, List.mem_cons, List.not_mem_nil, or_false] at ha
      rcases ha with rfl | rfl
      · have hstep := View.Step.pause (v := m.view s' w₀) hph hdue
        simpa [Point.meaning, view, hu, hu', hs, Access.write] using hstep
      · have hstep := View.Step.arm (v := m.view s' w₀) hph hdue
        simpa [Point.meaning, view, hu, hu', hs, Access.write] using hstep
    · -- anybody else
      have hquiet : (Point.freezing m.tally.trial done ((t, a) :: todo)).meaning s s' =
          .quiet := by
        cases a <;> simp [Point.meaning, Ne.symm hst]
      rw [hquiet]
      simpa [hs, hst] using step_of_view_eq (m := m) (s := s') (w := w₀)
        (view_congr (by simp) (by simp) (by simp) (by simp [hu, hu']) (by simp [hu, hu']))

theorem Coherent.projects_count (hc : m.Coherent) {s : Slot} {w : Worker U} {trial done : Nat}
    (hw : m.worker? s = some w) (hp : w.point = .freezing trial done []) (s' : Slot) :
    Projects m (.worker s)
      ({ m with tally := m.tally.count m.clock s done, lock := none }.onSlot s
          (Worker.goTo .top)) s' := by
  have hl := hc.lock_of_freezing hw hp
  have hu : m.underLock = .idle := underLock_of_not_caller (by simp [hl])
  have hu' : ({ m with tally := m.tally.count m.clock s done, lock := none }.onSlot s
      (Worker.goTo .top)).underLock = .idle := underLock_of_not_caller (by simp)
  obtain ⟨rfl, hph, -⟩ := hc.freezing _ _ _ _ (by rw [point?_of_worker? hw, hp])
  -- the count may complete the trial, which every view sees
  have hor := m.tally.phase_count_or m.clock s done
  refine .of_worker hw (by simp) ?_ (fun s' w' hw' hs => ⟨?_, ?_⟩) s'
  · have hstep := View.Step.count (v := m.view s w) hp hor
    rw [at_worker hw, hp]
    simpa [Point.meaning, view, hu, hu'] using hstep
  · rw [at_worker hw, hp]
    simp [Point.meaning, Ne.symm hs]
  · rcases hor with hor | hor
    · exact step_of_view_eq (view_congr (by simp) (by simpa using hor) (by simp)
        (by simp [hu, hu']) (by simp [hu, hu']))
    · -- the trial is complete, so that the other worker has reported
      have hrep := hc.reported_of_count hw hp hor s'
      have hstep := View.Step.complete (v := m.view s' w') hph hrep
        (by simp [view, hu, Call.clearing?]) (fun trial n todo hpt => hs
          (hc.freezing_unique (by rw [point?_of_worker? hw']; exact congrArg some hpt) hl))
      simpa [view, hu, hu', hor] using hstep

theorem Coherent.projects_release (hc : m.Coherent) {s : Slot} {w : Worker U}
    (hw : m.worker? s = some w) (hp : w.point = .releasing) (s' : Slot) :
    Projects m (.worker s) ({ m with lock := none }.onSlot s (Worker.goTo .top)) s' := by
  have hl := hc.lock_of_releasing hw hp
  have hu : m.underLock = .idle := underLock_of_not_caller (by simp [hl])
  have hu' : ({ m with lock := none }.onSlot s (Worker.goTo .top)).underLock = .idle :=
    underLock_of_not_caller (by simp)
  refine .of_worker hw (by simp) ?_ (fun s' w' hw' hs => ⟨?_, ?_⟩) s'
  · rw [at_worker hw, hp]
    simpa [Point.meaning, view, hu, hu'] using View.Step.release (v := m.view s w) hp
  · rw [at_worker hw, hp]
    rfl
  · exact step_of_view_eq (view_congr (by simp) (by simp) (by simp) (by simp [hu, hu'])
      (by simp [hu, hu']))

theorem projects_finish {s : Slot} {w : Worker U} {done : Nat} (hw : m.worker? s = some w)
    (hp : w.point = .inUnit done) (s' : Slot) :
    Projects m (.finish s)
      ({ m with shared := (work w.unit m.shared).2 }.onSlot s fun w' =>
        { w' with unit := (work w.unit m.shared).1, point := .publish (done + 1) }) s' := by
  have hu : ({ m with shared := (work w.unit m.shared).2 }.onSlot s fun w' =>
      { w' with unit := (work w.unit m.shared).1, point := .publish (done + 1) }).underLock =
      m.underLock := underLock_congr (by simp) (by simp)
  refine .of_worker hw (by simp) ?_ (fun s' w' hw' hs => ⟨?_, ?_⟩) s'
  · have hstep := View.Step.returned (v := m.view s w) hp
    simpa [Moment.at, Moment.begins?, view, hu] using hstep
  · simp [Moment.at, Moment.begins?, Ne.symm hs]
  · exact step_of_view_eq (view_congr (by simp) (by simp) (by simp) (by simp [hu]) (by simp [hu]))

theorem projects_panic {s : Slot} {w : Worker U} {done : Nat} (hw : m.worker? s = some w)
    (hp : w.point = .inUnit done) (s' : Slot) :
    Projects m (.panic s) (m.onSlot s (Worker.goTo .dead)) s' := by
  have hu : (m.onSlot s (Worker.goTo .dead)).underLock = m.underLock :=
    underLock_congr (by simp) (by simp)
  refine .of_worker hw (by simp) ?_ (fun s' w' hw' hs => ⟨?_, ?_⟩) s'
  · have hstep := View.Step.panicked (v := m.view s w) hp
    simpa [Moment.at, Moment.begins?, view, hu] using hstep
  · simp [Moment.at, Moment.begins?, Ne.symm hs]
  · exact step_of_view_eq (view_congr (by simp) (by simp) (by simp) (by simp [hu]) (by simp [hu]))

/-! ## Moves of callers -/

/-- A caller writes to the block of a worker and goes on. -/
theorem Projects.of_write {s : Slot} {a : Access} {t : Thread} {c : Caller}
    (hown : ∀ w, m.worker? s = some w →
      View.Step (m.view s w) (Moment.at ⟨m, e, (m.onSlot s (Worker.write a)).setCaller t c⟩ s)
        (((m.onSlot s (Worker.write a)).setCaller t c).view s (w.write a)))
    (hother : ∀ s' w', s' ≠ s →
      Moment.at ⟨m, e, (m.onSlot s (Worker.write a)).setCaller t c⟩ s' = .quiet ∧
        ((m.onSlot s (Worker.write a)).setCaller t c).view s' w' = m.view s' w') (s' : Slot) :
    Projects m e ((m.onSlot s (Worker.write a)).setCaller t c) s' := by
  intro w' h
  rw [worker?_setCaller, worker?_onSlot] at h
  obtain ⟨w₀, hw₀, rfl⟩ := Option.map_eq_some_iff.mp h
  refine .inl ⟨w₀, hw₀, ?_⟩
  -- Only the slot that is written to is looked at with its new block.
  by_cases hs : s' = s
  · subst hs
    simpa using hown w₀ hw₀
  · obtain ⟨hquiet, hview⟩ := hother s' w₀ hs
    rw [hquiet, if_neg hs]
    exact step_of_view_eq hview

/-- A step of a caller that neither begins a trial nor stops a worker means nothing to workers. -/
theorem at_call {t : Thread} {s : Slot} (hrun : ∀ total, (m.caller t).call ≠ .runAtFlag total)
    (hstop : ∀ x todo, (m.caller t).call ≠ .stopping (x :: todo)) :
    Moment.at ⟨m, .call t, m'⟩ s = .quiet := by
  cases hcall : (m.caller t).call with
  | runAtFlag total => exact absurd hcall (hrun total)
  | stopping todo =>
    cases todo with
    | nil => simp [Moment.at, Moment.begins?, hcall, stopMeaning]
    | cons x todo => exact absurd hcall (hstop x todo)
  | _ => simp [Moment.at, Moment.begins?, hcall]

theorem underLock_setCaller {t : Thread} {c : Caller} (hl : m.lock = some (.caller t)) :
    (m.setCaller t c).underLock = c.call := by
  rw [underLock_of_lock (by simpa using hl)]
  simp

/-- Who does not hold the lock may move without a change of the operation that holds it. -/
theorem Coherent.underLock_of_free (hc : m.Coherent) {t : Thread}
    (hcall : (m.caller t).call.holds = false) (hl : m'.lock = m.lock)
    (hother : ∀ t', t' ≠ t → m'.caller t' = m.caller t') : m'.underLock = m.underLock := by
  apply underLock_congr hl
  intro t' hl'
  apply hother
  rintro rfl
  rw [(hc.lock_caller t').mp hl'] at hcall
  cases hcall

theorem Coherent.projects_ask (hc : m.Coherent) {t : Thread} {c : Caller}
    (he : e = .call t ∨ ∃ op, e = .invoke t op) (hh : (m.caller t).call.holds = false)
    (hstop : ∀ x todo, (m.caller t).call ≠ .stopping (x :: todo)) (s : Slot) :
    Projects m e (m.setCaller t c) s := by
  have hu : (m.setCaller t c).underLock = m.underLock :=
    hc.underLock_of_free hh (by simp) (fun t' ht => by simp [ht])
  have hquiet : Moment.at ⟨m, e, m.setCaller t c⟩ s = .quiet := by
    rcases he with rfl | ⟨op, rfl⟩
    · exact at_call (fun total hr => by simp [hr, Call.holds] at hh) hstop
    · rfl
  refine .of_roster (by simp) fun w _ => ?_
  rw [hquiet]
  exact step_of_view_eq (view_congr (by simp) (by simp) (by simp) (by simp [hu]) (by simp [hu]))

/-- A caller goes on without anything to hand out or to clear, before and after. -/
theorem projects_of_roster (hroster : ∀ s, m'.worker? s = m.worker? s)
    (hat : ∀ s, Moment.at ⟨m, e, m'⟩ s = .quiet) (ht : m'.tally = m.tally)
    (hu : m.underLock.handing = [] ∧ m.underLock.clearing? = none)
    (hu' : m'.underLock.handing = [] ∧ m'.underLock.clearing? = none) (s : Slot) :
    Projects m e m' s := by
  obtain ⟨hh, hcl⟩ := hu
  obtain ⟨hh', hcl'⟩ := hu'
  refine .of_roster hroster fun w _ => ?_
  rw [hat s]
  exact step_of_view_eq (view_congr (by rw [ht]) (by rw [ht]) (by rw [ht]) (by rw [hh, hh'])
    (by rw [hcl, hcl']))

/-- Each worker finds the quota of its role in what a start of a trial has to do. -/
theorem forSlot_resumeScript {s : Slot} {w : Worker U} (hw : m.worker? s = some w) (b : Beginning)
    (trial : Nat) :
    forSlot s (m.resumeScript b.quota trial) = Control.resuming (b.given s.role) trial := by
  have hlt := (mem_slots_iff m s).mp (mem_slots_of_worker? hw)
  unfold resumeScript
  rw [forSlot_append, forSlot_forEach m.nodup_writerSlots, forSlot_forEach m.nodup_readerSlots]
  obtain ⟨r, i⟩ := s
  cases r with
  | writer =>
    have hi : i < m.writers.length := hlt
    simp [writerSlots, readerSlots, Beginning.given, hi]
  | reader =>
    have hi : i < m.readers.length := hlt
    simp [writerSlots, readerSlots, Beginning.given, hi]

theorem forSlot_resetScript {s : Slot} {w : Worker U} (hw : m.worker? s = some w) :
    forSlot s m.resetScript = View.clearScript := by
  unfold resetScript View.clearScript
  rw [forSlot_append, forSlot_forEach m.nodup_slots, forSlot_forEach m.nodup_slots,
    if_pos (mem_slots_of_worker? hw), if_pos (mem_slots_of_worker? hw)]

/-- The flag of a worker on the roster is there. -/
theorem Coherent.index_lt_flags (hc : m.Coherent) (hl : m.launched = true) {s : Slot} {w : Worker U}
    (hw : m.worker? s = some w) : s.index < (m.tally.flags s.role).length := by
  rw [hc.length_flags hl]
  exact (mem_slots_iff m s).mp (mem_slots_of_worker? hw)

theorem Coherent.projects_begin (hc : m.Coherent) {t : Thread} {total : Nat}
    (hcall : (m.caller t).call = .runAtFlag total) (hph : m.tally.phase = .ready) (s : Slot) :
    Projects m (.call t)
      ({ m with tally := m.tally.begun m.clock }.setCaller t
        { call := .resuming (Plan.quotaPerWriter total m.writers.length)
            (m.resumeScript (Plan.quotaPerWriter total m.writers.length) (m.tally.trial + 1)) })
      s := by
  have hl : m.lock = some (.caller t) := (hc.lock_caller t).mpr (by rw [hcall]; rfl)
  have hu := hc.underLock_eq hcall rfl
  have hu' : ∀ c, ({ m with tally := m.tally.begun m.clock }.setCaller t c).underLock = c.call :=
    fun c => underLock_setCaller hl
  refine .of_roster (by simp) fun w hw => ?_
  have hrep := Tally.hasReported_begun m.tally m.clock
    (hc.index_lt_flags (hc.asked t total (.inr hcall)).1 hw)
  -- the same record is what the history finds to have begun
  have hdue := forSlot_resumeScript hw
    ⟨t, m.tally.trial + 1, total, Plan.quotaPerWriter total m.writers.length⟩ (m.tally.trial + 1)
  have hstep := View.Step.begin (v := m.view s w)
    (Beginning.given ⟨t, m.tally.trial + 1, total, Plan.quotaPerWriter total m.writers.length⟩
      s.role) hph (by simp [view, hu, Call.clearing?])
  simp only [view, hu, Call.clearing?, Option.map_none] at hstep
  simp only [Moment.at, Moment.begins?, hcall, view, tally_setCaller, caller_setCaller, if_true,
    hu, hu', hrep, Call.handing, Call.clearing?, Option.map_none, hdue]
  exact hstep

theorem Coherent.projects_hand (hc : m.Coherent) {t : Thread} {quota : Nat} {s : Slot} {a : Access}
    {todo : List (Slot × Access)} (hcall : (m.caller t).call = .resuming quota ((s, a) :: todo))
    (s' : Slot) :
    Projects m (.call t) ((m.onSlot s (Worker.write a)).setCaller t
      { call := .resuming quota todo }) s' := by
  have hl : m.lock = some (.caller t) := (hc.lock_caller t).mpr (by rw [hcall]; rfl)
  have hu := hc.underLock_eq hcall rfl
  have hu' : ((m.onSlot s (Worker.write a)).setCaller t
      { call := .resuming quota todo }).underLock = .resuming quota todo :=
    underLock_setCaller (by simpa using hl)
  have hat : ∀ m' s, Moment.at ⟨m, .call t, m'⟩ s = .quiet := fun m' s =>
    at_call (by simp [hcall]) (by simp [hcall])
  refine .of_write ?_ (fun s' w' hs => ⟨hat _ s', ?_⟩) s'
  · -- the access is the next one that is due to the slot
    intro w hw
    have hstep := View.Step.hand (v := m.view s w)
      (show forSlot s m.underLock.handing = a :: forSlot s todo by simp [hu, Call.handing])
    rw [hat]
    simpa [view, hu, hu', Call.handing, Call.clearing?] using hstep
  · exact view_congr (by simp) (by simp) (by simp)
      (by simp [hu, hu', Call.handing, forSlot_cons_of_ne (Ne.symm hs)])
      (by simp [hu, hu', Call.clearing?])

theorem projects_startReset {t : Thread}
    (hcall : (m.caller t).call = .resetAtLock) (hl : m.lock = none)
    (hph : m.tally.phase ≠ .running) (s : Slot) :
    Projects m (.call t)
      ({ m with lock := some (.caller t) }.setCaller t { call := .resetting 0 m.resetScript })
      s := by
  have hu : m.underLock = .idle := underLock_of_not_caller (by simp [hl])
  have hu' : ({ m with lock := some (.caller t) }.setCaller t
      { call := .resetting 0 m.resetScript }).underLock = .resetting 0 m.resetScript :=
    underLock_setCaller rfl
  refine .of_roster (by simp) fun w hw => ?_
  rw [at_call (by simp [hcall]) (by simp [hcall])]
  simpa [view, hu, hu', Call.handing, Call.clearing?, forSlot_resetScript hw] using
    View.Step.startClear (v := m.view s w) hph

theorem Coherent.projects_clear (hc : m.Coherent) {t : Thread} {kept kept' : Nat} {s : Slot}
    {a : Access} {todo : List (Slot × Access)}
    (hcall : (m.caller t).call = .resetting kept ((s, a) :: todo)) (s' : Slot) :
    Projects m (.call t) ((m.onSlot s (Worker.write a)).setCaller t
      { call := .resetting kept' todo }) s' := by
  have hl : m.lock = some (.caller t) := (hc.lock_caller t).mpr (by rw [hcall]; rfl)
  have hu := hc.underLock_eq hcall rfl
  have hu' : ((m.onSlot s (Worker.write a)).setCaller t
      { call := .resetting kept' todo }).underLock = .resetting kept' todo :=
    underLock_setCaller (by simpa using hl)
  -- A reset clears without telling the workers, so nothing happens to the slot.
  have hat : ∀ m' s, Moment.at ⟨m, .call t, m'⟩ s = .quiet := fun m' s =>
    at_call (by simp [hcall]) (by simp [hcall])
  refine .of_write ?_ (fun s' w' hs => ⟨hat _ s', ?_⟩) s'
  · intro w hw
    have hstep := View.Step.clear (v := m.view s w)
      (show m.underLock.clearing?.map (forSlot s) = some (a :: forSlot s todo) by
        simp [hu, Call.clearing?])
    rw [hat]
    simpa [view, hu, hu', Call.handing, Call.clearing?] using hstep
  · exact view_congr (by simp) (by simp) (by simp) (by simp [hu, hu', Call.handing])
      (by simp [hu, hu', Call.clearing?, forSlot_cons_of_ne (Ne.symm hs)])

theorem Coherent.projects_skip (hc : m.Coherent) {t : Thread} {kept : Nat} {s : Slot} {a : Access}
    {todo : List (Slot × Access)} (hcall : (m.caller t).call = .resetting kept ((s, a) :: todo))
    (hnone : m.worker? s = none) (s' : Slot) :
    Projects m (.call t) (m.setCaller t { call := .resetting kept todo }) s' := by
  have hl : m.lock = some (.caller t) := (hc.lock_caller t).mpr (by rw [hcall]; rfl)
  have hu := hc.underLock_eq hcall rfl
  have hu' : (m.setCaller t { call := .resetting kept todo }).underLock = .resetting kept todo :=
    underLock_setCaller hl
  refine .of_roster (by simp) fun w hw => ?_
  -- the slot that is passed over has no worker, and this one has
  have hs : s ≠ s' := by
    rintro rfl
    rw [hnone] at hw
    cases hw
  rw [at_call (by simp [hcall]) (by simp [hcall])]
  exact step_of_view_eq (view_congr (by simp) (by simp) (by simp) (by simp [hu, hu', Call.handing])
    (by simp [hu, hu', Call.clearing?, forSlot_cons_of_ne hs]))

theorem Coherent.projects_busy (hc : m.Coherent) {t : Thread} {kept : Nat}
    {todo : List (Slot × Access)} {a : Except TrialError Answer}
    (hcall : (m.caller t).call = .resetting kept todo) (s : Slot) :
    Projects m (.call t) (m.setCaller t { call := .releasing a }) s := by
  have hl : m.lock = some (.caller t) := (hc.lock_caller t).mpr (by rw [hcall]; rfl)
  have hu := hc.underLock_eq hcall rfl
  have hu' : (m.setCaller t { call := .releasing a }).underLock = .releasing a :=
    underLock_setCaller hl
  refine .of_roster (by simp) fun w hw => ?_
  rw [at_call (by simp [hcall]) (by simp [hcall])]
  simpa [view, hu, hu', Call.handing, Call.clearing?] using View.Step.abandon (v := m.view s w)

theorem Coherent.projects_endReset (hc : m.Coherent) {t : Thread} {kept : Nat}
    (hcall : (m.caller t).call = .resetting kept []) (hlaunched : m.launched = true) (s : Slot) :
    Projects m (.call t)
      ({ m with tally := m.tally.reset, lock := none }.setCaller t
        { answer := some (.ok .done) }) s := by
  have hu := hc.underLock_eq hcall rfl
  have hu' : ({ m with tally := m.tally.reset, lock := none }.setCaller t
      { answer := some (.ok .done) }).underLock = .idle := underLock_of_not_caller (by simp)
  refine .of_roster (by simp) fun w hw => ?_
  have hrep := Tally.hasReported_reset m.tally (hc.index_lt_flags hlaunched hw)
  have hstep := View.Step.endClear (v := m.view s w) (by simp [view, hu, Call.clearing?])
  rw [at_call (by simp [hcall]) (by simp [hcall])]
  simpa [view, hu, hu', hrep, Call.handing, Call.clearing?] using hstep

/-! ## Stopping -/

theorem Coherent.projects_flag (hc : m.Coherent) {t : Thread}
    (hcall : (m.caller t).call = .stopAtFlag) (s : Slot) :
    Projects m (.call t) ({ m with stopped := true }.setCaller t
      { call := .stopping (forEach m.slots Control.stopping) }) s := by
  have hu : ({ m with stopped := true }.setCaller t
      { call := .stopping (forEach m.slots Control.stopping) }).underLock = m.underLock :=
    hc.underLock_of_free (t := t) (by rw [hcall]; rfl) (by simp) (fun t' ht => by simp [ht])
  refine .of_roster (by simp) fun w hw => ?_
  rw [at_call (by simp [hcall]) (by simp [hcall])]
  exact step_of_view_eq (view_congr (by simp) (by simp) (by simp) (by simp [hu]) (by simp [hu]))

theorem Coherent.projects_halt (hc : m.Coherent) {t : Thread} {s : Slot} {a : Access}
    {todo : List (Slot × Access)} (hcall : (m.caller t).call = .stopping ((s, a) :: todo))
    (s' : Slot) :
    Projects m (.call t) ((m.onSlot s (Worker.write a)).setCaller t
      { call := .stopping todo }) s' := by
  have hu : ((m.onSlot s (Worker.write a)).setCaller t
      { call := .stopping todo }).underLock = m.underLock :=
    hc.underLock_of_free (t := t) (by rw [hcall]; rfl) (by simp) (fun t' ht => by simp [ht])
  have hat : ∀ m' s', Moment.at ⟨m, .call t, m'⟩ s' = m.stopMeaning s' ((s, a) :: todo) := by
    intro m' s'
    simp [Moment.at, Moment.begins?, hcall]
  have ha := hc.stopping t _ hcall _ (List.mem_cons_self ..)
  simp only [Control.stopping, List.mem_cons, List.not_mem_nil, or_false] at ha
  refine .of_write ?_ (fun s' w' hs => ⟨?_, ?_⟩) s'
  · -- a stop raises the flag of a worker, and then takes its quota
    intro w hw
    rw [hat]
    rcases ha with rfl | rfl
    · simpa [view, hu, stopMeaning, Access.write] using View.Step.raise (v := m.view s w)
    · have hcut : m.stopMeaning s ((s, .setQuota 0) :: todo) =
          if w.point.committed w.control.completed < w.control.quota then .cut else .quiet := by
        by_cases h : w.point.committed w.control.completed < w.control.quota <;>
          simp [stopMeaning, hw, Worker.hasUnitsLeft, h]
      rw [hcut]
      simp only [view, hu, tally_setCaller, tally_onSlot]
      exact View.Step.halt (v := m.view s w)
  · rw [hat]
    rcases ha with rfl | rfl
    · rfl
    · simp [stopMeaning, Ne.symm hs]
  · exact view_congr (by simp) (by simp) (by simp) (by simp [hu]) (by simp [hu])

/-! ## The roster -/

theorem Coherent.projects_register (hc : m.Coherent) (hl : m.launched = false)
    {expected actual : Role} {unit : U} (s : Slot) :
    Projects m (.register expected actual unit) (m.enrol expected unit) s := by
  have hnone := hc.lock_of_not_launched hl
  have hu : (m.enrol expected unit).underLock = m.underLock :=
    underLock_congr (by simp) (by simp)
  intro w' hw'
  -- the worker was there before, or is the new one
  rcases m.worker?_enrol expected unit hw' with hw | ⟨hw, rfl⟩
  · refine .inl ⟨w', hw, ?_⟩
    exact step_of_view_eq (view_congr (by simp) (by simp) (by simp) (by simp [hu]) (by simp [hu]))
  · exact .inr ⟨hw, by rw [launched_enrol, hl], unit, rfl⟩

theorem Coherent.projects_launch (hc : m.Coherent) (hl : m.launched = false) (s : Slot) :
    Projects m .launch
      { m.sendAll .top with
        launched := true
        tally := Tally.fresh m.writers.length m.readers.length } s := by
  have hnone := hc.lock_of_not_launched hl
  obtain ⟨htally, hborn⟩ := hc.unborn hl
  have hu : m.underLock = .idle := underLock_of_not_caller (by simp [hnone])
  have hu' : ({ m.sendAll .top with
      launched := true
      tally := Tally.fresh m.writers.length m.readers.length } : Machine U S).underLock = .idle :=
    underLock_of_not_caller (by simp [hnone])
  intro w' hw'
  rw [worker?_mk, worker?_sendAll] at hw'
  obtain ⟨w, hw, rfl⟩ := Option.map_eq_some_iff.mp hw'
  refine .inl ⟨w, hw, ?_⟩
  -- the flags of the tally are those of the roster from now on
  have hlt := (mem_slots_iff m s).mp (mem_slots_of_worker? hw)
  have hrep : (Tally.fresh m.writers.length m.readers.length).hasReported s = false := by
    apply Tally.hasReported_fresh
    obtain ⟨r, i⟩ := s
    cases r <;> simpa [Tally.fresh, Tally.flags, workers] using hlt
  have hstep := View.Step.launch (v := m.view s w) (hborn s _ (point?_of_worker? hw))
    (by simp [view, htally])
  simp only [view, hu, htally] at hstep
  show View.Step (m.view s w) .quiet _
  simp only [view, hu, hu', hrep, htally]
  exact hstep

/-! ## Every move -/

/-- A move of a coherent machine is a step of each of its views, and means to the worker what the
history says; only a worker that has just been registered had no view before. -/
theorem Coherent.projects (hc : m.Coherent) (hm : Move work m e m') (s : Slot) :
    Projects m e m' s := by
  cases hm with
  | own hw hn => exact projects_own hw hn s
  | accept hw hp hl ha => exact projects_accept hw hp hl ha s
  | refuse hw hp hl ha => exact projects_refuse hw hp hl ha s
  | freeze hw hp => exact hc.projects_freeze hw hp s
  | count hw hp => exact hc.projects_count hw hp s
  | release hw hp => exact hc.projects_release hw hp s
  | finish hw hp => exact projects_finish hw hp s
  | panic hw hp => exact projects_panic hw hp s
  | ask he hh _ hstop => exact hc.projects_ask he hh hstop s
  -- a caller that takes or lets go of the lock without a script means nothing to the workers
  | lockRun hcall hl =>
    refine projects_of_roster (by simp) (fun s => at_call (by simp [hcall]) (by simp [hcall]))
      (by simp) ?_ ?_ s
    · rw [underLock_of_not_caller (by simp [hl])]
      exact ⟨rfl, rfl⟩
    · rw [underLock_setCaller rfl]
      exact ⟨rfl, rfl⟩
  | runRefused hcall =>
    refine projects_of_roster (by simp) (fun s => ?_) (by simp) ?_ ?_ s
    · simp [Moment.at, Moment.begins?, hcall]
    · rw [hc.underLock_eq hcall rfl]
      exact ⟨rfl, rfl⟩
    · rw [underLock_setCaller ((hc.lock_caller _).mpr (by rw [hcall]; rfl))]
      exact ⟨rfl, rfl⟩
  | begin hcall _ hph => exact hc.projects_begin hcall hph s
  | hand hcall => exact hc.projects_hand hcall s
  | endRun hcall | unlock hcall =>
    refine projects_of_roster (by simp) (fun s => at_call (by simp [hcall]) (by simp [hcall]))
      (by simp) ?_ ?_ s
    · rw [hc.underLock_eq hcall rfl]
      exact ⟨rfl, rfl⟩
    · rw [underLock_of_not_caller (by simp)]
      exact ⟨rfl, rfl⟩
  | resetRefused hcall hl =>
    refine projects_of_roster (by simp) (fun s => at_call (by simp [hcall]) (by simp [hcall]))
      (by simp) ?_ ?_ s
    · rw [underLock_of_not_caller (by simp [hl])]
      exact ⟨rfl, rfl⟩
    · rw [underLock_setCaller rfl]
      exact ⟨rfl, rfl⟩
  | startReset hcall hl hph => exact projects_startReset hcall hl hph s
  | clear hcall => exact hc.projects_clear hcall s
  | skip hcall hnone => exact hc.projects_skip hcall hnone s
  | busy hcall => exact hc.projects_busy hcall s
  | endReset hcall =>
    exact hc.projects_endReset hcall (hc.launched_of_call (by rw [hcall]; rfl)) s
  | flag hcall => exact hc.projects_flag hcall s
  | halt hcall => exact hc.projects_halt hcall s
  | register _ hl => exact hc.projects_register hl s
  | launch _ hl => exact hc.projects_launch hl s
  | fail he =>
    have hat : Moment.at ⟨m, e, m⟩ s = .quiet := by
      rcases he with rfl | ⟨expected, actual, unit, rfl⟩ <;> rfl
    refine .of_roster (fun _ => rfl) fun w _ => ?_
    rw [hat]
    exact .stay
  | tick => exact .of_roster (by simp) fun w _ => .stay

end Machine

end SpeedTrial.Trial
