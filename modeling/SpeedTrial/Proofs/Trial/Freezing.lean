import SpeedTrial.Proofs.Trial.Casualty
import SpeedTrial.Proofs.Trial.Halting

/-!
# How precise a freeze is

The first writer that reports takes the quota of others away.  Such a worker may have read its old
quota already, but it reads it again before every unit: it finishes the unit that it has decided on
by then, and reports.

* `View.Paused`: since its quota was taken away a worker is on its way to `n` units in all.
* `View.Paused.step`: no step of anybody changes this, unless a new trial begins.
* `freeze_is_precise`: a worker that is frozen is counted for the units that it had published by
  then, and for one more exactly if it was at work.
-/

namespace SpeedTrial.Trial

/-- Nothing but a count adds to the amounts counted. -/
theorem Account.counts_note (a : Account) {x : Happening} (hb : ∀ quota, x ≠ .begun quota) :
    (a.note x).counts = x.units?.toList ++ a.counts := by
  rw [a.note_of_ne hb, counts, counts, List.filterMap_cons]
  cases x.units? <;> rfl

theorem Happening.eq_counted {x : Happening} {units : Nat} (hx : x.units? = some units) :
    ∃ trial, x = .counted trial units := by
  cases x with
  | counted trial n =>
    obtain rfl := Option.some.inj hx
    exact ⟨trial, rfl⟩
  | _ => cases hx

namespace View

variable {a : Account} {v v' : View} {x : Happening} {n : Nat}

/-- What a happening shows of the view before and after it. -/
def Shows (v v' : View) : Happening → Prop
  | .quiet | .cut => True
  | .begun _ => v'.reported = false
  | .called => ∃ done, v.point = .calling done
  | .returned => ∃ done, v.point = .inUnit done ∧ v' = { v with point := .publish (done + 1) }
  | .panicked => ∃ done, v.point = .inUnit done
  | .frozen => v.phase = .running ∧ v.due = [] ∧
      v' = { v with control := { v.control with quota := 0 } }
  | .counted trial units => v.point = .freezing trial units []

theorem Step.shows (hs : Step v x v') : Shows v v' x := by
  cases hs with
  | own s hn =>
    cases hpt : v.point with
    | calling done => simp [Point.meaning, Shows, hpt]
    | freezing => simp [hpt, Point.next] at hn
    | _ => trivial
  | returned hpt => exact ⟨_, hpt, rfl⟩
  | panicked hpt => exact ⟨_, hpt⟩
  | count hpt => exact hpt
  | begin => rfl
  | pause hph hd => exact ⟨hph, hd, rfl⟩
  | halt => split <;> trivial
  | _ => trivial

/-! ## A worker that has reported -/

/-- A worker whose report was accepted in the running trial is counted for what it has published. -/
def Recorded (a : Account) (v : View) : Prop :=
  v.phase = .running → v.reported = true → ∀ n ∈ a.counts, n = v.control.completed

/-- Once its report is accepted a worker publishes nothing more in the trial. -/
theorem Orderly.completed_of_reported (ho : v.Orderly) (hs : Step v x v')
    (hph : v'.phase = .running) (hrep : v'.reported = true) :
    v'.control.completed = v.control.completed ∧ (v.phase = .running) ∧
      (v.reported = true ∨ v.Owes) := by
  have hor : v.reported = true ∨ v.reported = false := by cases v.reported <;> simp
  -- Each kind of step either leaves the count alone or is excluded where a report was accepted.
  cases hs with
  | own s hn =>
    rcases ho.own_control hn with rfl | rfl | ⟨-, hw, -⟩
    · exact ⟨rfl, hph, .inl hrep⟩
    · exact ⟨rfl, hph, .inl hrep⟩
    · exact absurd hrep (by simp [hw.2])
  | accept hw => exact ⟨rfl, hph, .inr hw⟩
  | count hpt =>
    have hp := ho.point
    simp only [hpt, PointInOrder] at hp
    exact ⟨rfl, hp.2.1, .inl hrep⟩
  | hand hd => exact absurd hrep (by simp [(ho.due.of_cons hd).1.2])
  | clear hc => exact absurd hph (ho.clearing _ hc).1
  | launch | begin | endClear => cases hrep
  | complete => cases hph
  | _ => exact ⟨rfl, hph, .inl hrep⟩

theorem Recorded.step (ho : v.Orderly) (ha : v.Accounted a) (hr : v.Recorded a)
    (hs : Step v x v') : v'.Recorded (a.note x) := by
  intro hph hrep k hk
  obtain ⟨hsame, hph₀, hor⟩ := ho.completed_of_reported hs hph hrep
  have hb : ∀ quota, x ≠ .begun quota := by
    rintro quota rfl
    rw [show v'.reported = false from hs.shows] at hrep
    cases hrep
  rw [hsame]
  rw [a.counts_note hb, List.mem_append, Option.mem_toList] at hk
  rcases hk with hk | hk
  · -- this is what the worker has just been counted for
    obtain ⟨trial, rfl⟩ := Happening.eq_counted hk
    have hp := ho.point
    rw [show v.point = _ from hs.shows] at hp
    exact hp.2.2.2
  · rcases hor with hrep₀ | hw
    · exact hr hph₀ hrep₀ k hk
    · simp [ha.counts_eq_nil hw] at hk

/-- Once its report is accepted a worker has published all units that returned. -/
theorem Recorded.units_eq (ho : v.Orderly) (ha : v.Accounted a) (hr : v.Recorded a)
    (hph : v.phase = .running) (hrep : v.reported = true) : a.units = v.control.completed := by
  by_cases hf : ∃ trial done todo, v.point = .freezing trial done todo
  · obtain ⟨trial, done, todo, hpt⟩ := hf
    have hp := ho.point
    simp only [hpt, PointInOrder] at hp
    rw [← (ha.delivering _ _ _ hpt).2.units, hp.2.2.2]
  · push Not at hf
    obtain ⟨n, hn, hsettles⟩ := ha.settled (by simp [hph]) hrep hf
    rw [← hsettles.units]
    exact hr hph hrep n (by simp [hn])

/-- What a worker has published in the running trial are units that returned in it. -/
theorem Recorded.completed_le_units (ho : v.Orderly) (ha : v.Accounted a) (hr : v.Recorded a)
    (hph : v.phase = .running) : v.control.completed ≤ a.units := by
  cases hrep : v.reported with
  | false =>
    have hp := ho.point
    rw [ha.units_eq ⟨hph, hrep⟩, performed]
    cases hpt : v.point <;> simp only [hpt, PointInOrder] at hp <;> simp [Point.performed]
    omega
  | true => exact (hr.units_eq ho ha hph hrep).ge

/-! ## A worker without quota -/

/-- Since its quota was taken away in a trial a worker is on its way to `n` units in all. -/
structure Paused (n : Nat) (a : Account) (v : View) : Prop where
  due : v.due = []
  quota : v.control.quota = 0
  committed_le : v.Owes → v.committed ≤ n
  /-- A worker that dies in its unit falls short of it. -/
  committed_eq : v.Owes → v.point ≠ .dead → v.committed = n
  units_le : a.units ≤ n
  delivering : ∀ trial done todo, v.point = .freezing trial done todo → done = n
  counts : ∀ k ∈ a.counts, k = n

/-- Only the beginning of a trial makes quota due. -/
theorem Step.due_of_due (hs : Step v x v') (hb : ∀ quota, x ≠ .begun quota) (hd : v.due = []) :
    v'.due = [] := by
  cases hs with
  | begin quota => exact absurd rfl (hb quota)
  | hand h => simp [hd] at h
  | _ => exact hd

/-- Nobody gives quota to a worker unless it is due. -/
theorem Orderly.quota_of_step (ho : v.Orderly) (hs : Step v x v') (hd : v.due = [])
    (hq : v.control.quota = 0) : v'.control.quota = 0 := by
  cases hs with
  | own s hn => exact (Point.quota_of_next hn).trans hq
  | hand h => simp [hd] at h
  | clear hc =>
    obtain ⟨-, hsuf, -⟩ := ho.clearing _ hc
    rcases write_of_suffix hsuf v.control with ⟨-, h⟩ | ⟨-, h⟩ | ⟨-, h⟩ | ⟨-, h⟩ <;> simp [h, hq]
  | pause | halt => rfl
  | _ => exact hq

theorem Orderly.performed_le_committed (ho : v.Orderly) : v.performed ≤ v.committed := by
  have hp := ho.point
  rw [performed, committed]
  cases hpt : v.point <;> simp only [hpt, PointInOrder] at hp <;>
    simp [Point.performed, Point.committed]
  all_goals omega

/-- A unit returns only while a report is expected. -/
theorem Orderly.owes_of_returned (ho : v.Orderly) (hs : Step v .returned v') : v'.Owes := by
  obtain ⟨done, hpt, rfl⟩ := hs.shows
  have hp := ho.point
  rw [hpt] at hp
  exact hp.1

/-- A worker without quota commits itself to nothing more. -/
theorem Paused.committed_step (ho : v.Orderly) (hp : v.Paused n a) (hs : Step v x v')
    (hb : ∀ quota, x ≠ .begun quota) (hw' : v'.Owes) :
    v'.committed ≤ n ∧ (v'.point ≠ .dead → v'.committed = n) := by
  have hw := hs.owes_of_owes hb hw'
  have hle := hp.committed_le hw
  have hdead : v'.point ≠ .dead → v.committed = n := fun hd =>
    hp.committed_eq hw fun hd₀ => hd (hs.dead_of_dead hd₀)
  have hquota := hp.quota
  -- without quota an act cannot be one that commits to more, and nobody hands out quota meanwhile
  cases ho.effect hs hw' hb with
  | act _ _ _ _ hcom =>
    rcases hcom with hcom | ⟨-, hlt⟩
    · exact ⟨hcom ▸ hle, fun hd => hcom.trans (hdead hd)⟩
    · omega
  | returned _ _ _ hcom | frozen _ _ hcom | halted _ _ _ hcom =>
    exact ⟨hcom ▸ hle, fun hd => hcom.trans (hdead hd)⟩
  | panicked hpt _ _ _ hcom => exact ⟨hcom.trans hle, fun hd => absurd hpt hd⟩
  | given quota rest hd =>
    rw [hp.due] at hd
    cases hd

theorem Paused.delivering_step (ho : v.Orderly) (hp : v.Paused n a) (hs : Step v x v')
    (hb : ∀ quota, x ≠ .begun quota) :
    ∀ trial done todo, v'.point = .freezing trial done todo → done = n := by
  have h := hp.delivering
  cases hs with
  | own s hn =>
    intro trial done todo ht
    cases hpt : v.point <;> simp only [hpt, Point.next] at hn <;> grind [Point.afterQuota]
  | accept hw hd hc hpt =>
    rintro trial done todo ⟨⟩
    -- a report carries what is published, and that is all to which the worker is committed
    have hpoint := ho.point
    rw [hpt] at hpoint
    rw [((hpoint.2.2 rfl).2 hw).2, ← hp.committed_eq hw (by simp [hpt]), committed, hpt]
    rfl
  | freeze hpt =>
    rintro trial done todo ⟨⟩
    exact h _ _ _ hpt
  | begin quota => exact absurd rfl (hb quota)
  | launch | returned | panicked | refuse | count | release => simp
  | _ => exact h

/-- No step changes to how many units a worker without quota is committed, unless a new trial
begins. -/
theorem Paused.step (ho : v.Orderly) (ha : v.Accounted a) (hp : v.Paused n a) (hs : Step v x v')
    (hb : ∀ quota, x ≠ .begun quota) : v'.Paused n (a.note x) where
  due := hs.due_of_due hb hp.due
  quota := ho.quota_of_step hs hp.due hp.quota
  committed_le hw := (hp.committed_step ho hs hb hw).1
  committed_eq hw := (hp.committed_step ho hs hb hw).2
  units_le := by
    by_cases hw : v'.Owes
    · calc (a.note x).units = v'.performed := (ha.step ho hs).units_eq hw
        _ ≤ v'.committed := (ho.step hs).performed_le_committed
        _ ≤ n := (hp.committed_step ho hs hb hw).1
    · -- no unit returns
      have hx : x ≠ .returned := by
        rintro rfl
        exact hw (ho.owes_of_returned hs)
      simpa [Account.note_of_ne a hb, Account.units, hx] using hp.units_le
  delivering := hp.delivering_step ho hs hb
  counts := by
    intro k hk
    rw [a.counts_note hb, List.mem_append, Option.mem_toList] at hk
    rcases hk with hk | hk
    · -- this is what the worker was about to be counted for
      obtain ⟨trial, rfl⟩ := Happening.eq_counted hk
      exact hp.delivering _ _ _ hs.shows
    · exact hp.counts k hk

/-- A worker is committed to what it has published, and to one more unit if it is at work. -/
theorem Orderly.committed_eq (ho : v.Orderly) :
    v.committed = v.control.completed + v.point.isWorking.toNat := by
  have hp := ho.point
  rw [committed]
  cases hpt : v.point <;> simp only [hpt, PointInOrder] at hp <;>
    simp [Point.committed, Point.isWorking]
  all_goals omega

/-- From a pause on a worker is on its way to those units to which it is committed by then. -/
theorem Paused.of_pause (ho : v.Orderly) (ha : v.Accounted a) (hr : v.Recorded a)
    (hs : Step v .frozen v') : v'.Paused v.committed (a.note .frozen) := by
  obtain ⟨hph, hd, rfl⟩ := hs.shows
  have hunits : (a.note .frozen).units = a.units := by
    simp [Account.note, Account.units]
  have hcounts : (a.note .frozen).counts = a.counts := rfl
  cases hrep : v.reported with
  | false =>
    have hw : v.Owes := ⟨hph, hrep⟩
    refine ⟨hd, rfl, fun _ => le_rfl, fun _ _ => rfl, ?_, ?_, ?_⟩
    · rw [hunits, ha.units_eq hw]
      exact ho.performed_le_committed
    · intro trial done todo hpt
      have hp := ho.point
      rw [show v.point = _ from hpt] at hp
      exact absurd hp.2.2.1 (by simp [hrep])
    · simp [hcounts, ha.counts_eq_nil hw]
  | true =>
    -- the worker has reported already, and is at work no more
    have hno : ¬ v.Owes := fun hw => by simp [hw.2] at hrep
    have hcom : v.committed = v.control.completed := by
      rw [ho.committed_eq, ho.not_working hno]
      rfl
    refine ⟨hd, rfl, fun _ => le_rfl, fun _ _ => rfl, ?_, ?_, ?_⟩
    · rw [hunits, hr.units_eq ho ha hph hrep, hcom]
    · intro trial done todo hpt
      have hp := ho.point
      rw [show v.point = _ from hpt] at hp
      rw [hcom, hp.2.2.2]
    · rw [hcounts, hcom]
      exact hr hph hrep

end View

variable {U S : Type} {work : U → S → U × S} {freeze : FreezeScope} {shared : S}
  {h g : History U S} {m m' : Machine U S} {e : Machine.Event U} {s : Slot}

/-! ## Along a run -/

/-- What a worker that has reported is counted for, in every run. -/
theorem Run.recorded (run : Run work (.empty freeze shared) h m) :
    ∀ s w, m.worker? s = some w → (m.view s w).Recorded (account s h) := by
  induction run with
  | start => simp
  | next run hs ih =>
    intro s w' hw'
    rcases run.step_view hs hw' with ⟨w, hw, hstep⟩ | ⟨hnone, hl, unit, rfl⟩
    · exact (ih s w hw).step (run.orderly s w hw) (run.accounted s w hw) hstep
    · -- a worker that has just been registered is in no trial
      intro hph
      simp [Machine.view, ((run.next hs).coherent.unborn hl).1] at hph

/-- While no trial begins the units that return are those of one trial. -/
theorem returned_append (s : Slot) (hno : ∀ y ∈ g, y.begins? = none) (h : History U S) :
    returned s (g ++ h) = g.countP (fun y => y.at s = .returned) + returned s h := by
  have hall : ∀ y ∈ g, y.begins?.isNone = true := fun y hy => by simp [hno y hy]
  rw [returned, current, List.takeWhile_append_of_pos hall, List.countP_append, returned, current]

/-- A worker without quota keeps to the units to which it was committed, and calls those only that
it was about to call, until a new trial begins. -/
theorem Run.paused (run : Run work (.empty freeze shared) h m) {w : Worker U}
    (hw : m.worker? s = some w) {n : Nat} (hp : (m.view s w).Paused n (account s h))
    (rest : Run work m g m') (hno : ∀ y ∈ g, y.begins? = none) :
    ∃ w', m'.worker? s = some w' ∧ (m'.view s w').Paused n (account s (g ++ h)) ∧
      g.countP (fun y => y.at s = .called) + w'.point.calls ≤ w.point.calls := by
  -- by induction on what happens after the pause
  induction rest with
  | start => exact ⟨w, hw, hp, by simp⟩
  | @next g m₁ m₂ e rest hs ih =>
    obtain ⟨w₁, hw₁, hp₁, hle⟩ := ih fun y hy => hno y (List.mem_cons_of_mem _ hy)
    have run₁ := run.trans rest
    obtain ⟨w₂, hw₂, hstep⟩ := run₁.step_of_worker hs hw₁
    have hb := Moment.at_ne_begun (hno _ (List.mem_cons_self ..)) s
    refine ⟨w₂, hw₂, hp₁.step (run₁.orderly s _ hw₁) (run₁.accounted s _ hw₁) hstep hb, ?_⟩
    have hcalls := hstep.calls_le hp₁.quota
    simp only [Machine.view] at hcalls
    rw [List.countP_cons]
    simp only [decide_eq_true_eq]
    omega

/-- A trial goes on as long as the report of a worker is expected. -/
theorem Run.owed_next (run : Run work (.empty freeze shared) h m)
    (hs : m.step work e = some m') (hph : m.tally.phase = .running)
    (hrep : m.tally.hasReported s = false) (hx : Moment.accepted? ⟨m, e, m'⟩ ≠ some s) :
    Moment.begins? ⟨m, e, m'⟩ = none ∧ m'.tally.phase = .running ∧
      m'.tally.hasReported s = false := by
  have hb : Moment.begins? ⟨m, e, m'⟩ = none := by
    cases hb : Moment.begins? ⟨m, e, m'⟩ with
    | none => rfl
    | some b =>
      rw [(tally_of_begins? hs hb).2.2.1] at hph
      cases hph
  have hready : m'.tally.phase ≠ .ready := by
    cases run.course hs with
    | keeps _ _ _ _ hiff => simp [hiff, hph]
    | begins _ _ _ _ _ h => simp [h] at hph
    | runs _ _ _ _ htally => simp [htally, hph]
    | resets _ hresets => exact absurd hph (run.not_running_of_resets hresets)
  have hrep' : m'.tally.hasReported s = false := by
    cases hacc : Moment.accepted? ⟨m, e, m'⟩ with
    | none =>
      rw [Tally.hasReported_eq, flags_of_not_accepted hs hb hready hacc, ← Tally.hasReported_eq,
        hrep]
    | some s₀ =>
      have hne : s ≠ s₀ := by
        rintro rfl
        exact hx hacc
      rw [(tally_of_accepted hs hacc).2.1, Tally.hasReported_mark, hrep, decide_eq_false hne]
      rfl
  refine ⟨hb, ?_, hrep'⟩
  -- a trial is complete only when everybody has reported
  cases hph' : m'.tally.phase with
  | ready => exact absurd hph' hready
  | running => rfl
  | complete =>
    rw [(run.next hs).coherent.complete hph' s] at hrep'
    cases hrep'

/-- No trial begins before a report that is expected is accepted. -/
theorem Run.owed (run : Run work (.empty freeze shared) h m) (hph : m.tally.phase = .running)
    (hrep : m.tally.hasReported s = false) (rest : Run work m g m')
    (hno : ∀ y ∈ g, y.accepted? ≠ some s) :
    (∀ y ∈ g, y.begins? = none) ∧ m'.tally.phase = .running ∧ m'.tally.hasReported s = false := by
  induction rest with
  | start => exact ⟨by simp, hph, hrep⟩
  | next rest hs ih =>
    obtain ⟨hall, hph₁, hrep₁⟩ := ih fun y hy => hno y (List.mem_cons_of_mem _ hy)
    obtain ⟨hb, hnext⟩ :=
      (run.trans rest).owed_next hs hph₁ hrep₁ (hno _ (List.mem_cons_self ..))
    exact ⟨List.forall_mem_cons.mpr ⟨hb, hall⟩, hnext⟩

/-! ## Precision -/

/-- Only workers on the roster are frozen. -/
theorem Machine.mem_slots_of_freezeOthers {t : Slot} {trial : Nat} {a : Access}
    (ht : (t, a) ∈ m.freezeOthers s trial) : t ∈ m.slots := by
  unfold freezeOthers at ht
  split at ht
  · rw [mem_forEach, List.mem_append] at ht
    obtain ⟨ht | ht, -⟩ := ht
    · cases hfr : m.freeze with
      | everyone =>
        simp only [hfr, List.mem_filter] at ht
        exact List.mem_append_left _ ht.1
      | readersOnly => simp [hfr] at ht
    · exact List.mem_append_right _ ht
  · cases ht

/-- Who takes the quota of a worker on the roster away is the first writer that reports. -/
theorem Run.cause_of_frozen {x : Moment U S} (run : Run work (.empty freeze shared) h x.before)
    (hx : x.at s = .frozen) :
    ∃ t, x.event = .worker t ∧ t.role = .writer ∧ t ≠ s ∧ s ∈ x.before.slots := by
  obtain ⟨t, w, trial, done, quota, todo, he, hw, hp⟩ := Moment.cause_of hx
  have hfreezing := run.coherent.freezing t trial done _
    (by rw [Machine.point?_of_worker? hw, hp])
  have hmem := hfreezing.2.2 _ (List.mem_cons_self ..)
  obtain ⟨hr, -, hne, -⟩ := Machine.mem_freezeOthers hmem
  exact ⟨t, he, hr, Ne.symm hne, Machine.mem_slots_of_freezeOthers hmem⟩

theorem Point.calls_le_isWorking (p : Point) : p.calls ≤ p.isWorking.toNat := by
  cases p <;> simp [Point.calls, Point.isWorking]

/-- A worker whose quota the first writer that reports takes away, in a trial that is running, goes
on in that trial until its report is accepted.  If it was at work, between the test of its quota and
the store of what is done, it performs that unit and is counted for one more than it had published;
if not, it performs none and is counted for what it had published. -/
theorem freeze_is_precise {h₁ h₂ : History U S} {x : Moment U S}
    (run : Run work (.empty freeze shared) (h₁ ++ x :: h₂) m) (hx : x.at s = .frozen) :
    (∃ t, x.event = .worker t ∧ t.role = .writer ∧ t ≠ s) ∧ x.before.tally.phase = .running ∧
    (x.before.tally.hasReported s = false → (∀ y ∈ h₁, y.accepted? ≠ some s) →
      ∀ y ∈ h₁, y.begins? = none) ∧
    ∃ w w', x.before.worker? s = some w ∧ x.after.worker? s = some w' ∧ w'.point = w.point ∧
      w'.control = { w.control with quota := 0 } ∧
      ((∀ y ∈ h₁, y.begins? = none) →
        h₁.countP (fun y => y.at s = .called) ≤ w.point.isWorking.toNat ∧
        h₁.countP (fun y => y.at s = .returned) ≤ w.point.isWorking.toNat ∧
        ∀ n ∈ contributions s (h₁ ++ x :: h₂),
          n = w.control.completed + w.point.isWorking.toNat) := by
  obtain ⟨m₁, run₁, rest⟩ := run.split
  obtain ⟨run₂, hs, rfl⟩ := run₁.next_inv
  obtain ⟨t, he, hr, hne, hslot⟩ := run₂.cause_of_frozen hx
  obtain ⟨w, hw⟩ : ∃ w, x.before.worker? s = some w :=
    Machine.worker?_of_lt ((Machine.mem_slots_iff _ s).mp hslot)
  have ho := run₂.orderly s w hw
  have ha := run₂.accounted s w hw
  have hrec := run₂.recorded s w hw
  obtain ⟨w', hw', hstep⟩ := run₂.step_of_worker hs hw
  rw [show Moment.at ⟨x.before, x.event, x.after⟩ s = .frozen from hx] at hstep
  obtain ⟨hph, -, hview⟩ := hstep.shows
  have hpoint : w'.point = w.point := congrArg View.point hview
  refine ⟨⟨t, he, hr, hne⟩, hph, fun hrep hno => ?_, w, w', hw, hw', hpoint,
    congrArg View.control hview, fun hno => ?_⟩
  · -- the report of the worker is still expected, and nobody else's is accepted meanwhile
    have hacc : x.accepted? ≠ some s := by
      intro hacc
      obtain ⟨-, -, -, he', -⟩ := Moment.cause_of_accepted hacc
      exact hne (by simpa [he] using he')
    obtain ⟨-, hph', hrep'⟩ := run₂.owed_next hs hph hrep hacc
    exact (run₁.owed hph' hrep' rest hno).1
  · have haccount : account s (x :: h₂) = (account s h₂).note .frozen := by rw [account, hx]
    have hpaused := View.Paused.of_pause ho ha hrec hstep
    rw [← haccount] at hpaused
    obtain ⟨w₁, -, hend, hcalls⟩ := run₁.paused hw' hpaused rest hno
    have hcom : (x.before.view s w).committed = w.control.completed + w.point.isWorking.toNat :=
      ho.committed_eq
    refine ⟨?_, ?_, fun n hn => ?_⟩
    · rw [hpoint] at hcalls
      have hle := w.point.calls_le_isWorking
      omega
    · -- what was published before the pause has returned before it
      have hle := hend.units_le
      rw [account_units, returned_append s hno, ← account_units, haccount, hcom] at hle
      have hpublished : w.control.completed ≤ (account s h₂).units :=
        hrec.completed_le_units ho ha hph
      have hsame : ((account s h₂).note .frozen).units = (account s h₂).units := by
        simp [Account.note, Account.units]
      omega
    · rw [← account_counts] at hn
      exact (hend.counts n hn).trans hcom

/-- A writer performs its unit and freezes a reader that is inside its first one; that reader
returns from it and reports. -/
def frozenReader : List (Machine.Event Unit) := List.flatten [
  [.register .writer .writer (), .register .reader .reader (), .launch,
    .invoke .controlling (.run 1)],
  .replicate 7 (.call .controlling),
  .replicate 5 (.worker ⟨.reader, 0⟩),
  .replicate 5 (.worker ⟨.writer, 0⟩),
  [.finish ⟨.writer, 0⟩],
  .replicate 10 (.worker ⟨.writer, 0⟩),
  [.finish ⟨.reader, 0⟩],
  .replicate 8 (.worker ⟨.reader, 0⟩)]

theorem freeze_is_precise_frozenReader :
    let h := (Machine.empty .everyone ()).historyFrom idleWork [] frozenReader
    ∃ m h₁ x h₂ w, Run idleWork (.empty .everyone ()) h m ∧ h = h₁ ++ x :: h₂ ∧
      x.at ⟨.reader, 0⟩ = .frozen ∧ (∀ y ∈ h₁, y.begins? = none) ∧
      x.before.worker? ⟨.reader, 0⟩ = some w ∧ w.control.completed = 0 ∧
      w.point.isWorking = true ∧ h₁.countP (fun y => y.at ⟨.reader, 0⟩ = .returned) ≤ 1 ∧
      contributions ⟨.reader, 0⟩ h = [w.control.completed + 1] := by
  intro h
  have hend : ((Machine.empty .everyone ()).steps idleWork frozenReader).map
      (fun m => m.tally.phase) = some .complete := rfl
  obtain ⟨m, run, -⟩ := Run.exists_of_map hend
  -- eleven events follow the pause
  have hlen : 11 < h.length := by decide
  have hsplit : h = h.take 11 ++ h[11] :: h.drop 12 := by
    rw [← List.drop_eq_getElem_cons, List.take_append_drop]
  have run' : Run idleWork (.empty .everyone ()) (h.take 11 ++ h[11] :: h.drop 12) m := by
    rw [← hsplit]
    exact run
  have hno : ∀ y ∈ h.take 11, y.begins? = none := by decide
  have hworker : h[11].before.worker? ⟨.reader, 0⟩ =
      some ⟨⟨Machine.unbounded, 0, 1, false⟩, .inUnit 0, ()⟩ := rfl
  obtain ⟨-, -, -, w, w', hw, -, -, -, hall⟩ :=
    freeze_is_precise (s := ⟨.reader, 0⟩) run' rfl
  rw [hworker, Option.some.injEq] at hw
  subst hw
  obtain ⟨-, hreturned, hcounts⟩ := hall hno
  have hcontr : contributions ⟨.reader, 0⟩ h = [1] := rfl
  rw [← hsplit, hcontr] at hcounts
  have hone := hcounts 1 (List.mem_singleton.mpr rfl)
  refine ⟨m, _, _, _, _, run, hsplit, rfl, hno, hworker, rfl, rfl, hreturned, ?_⟩
  rw [hcontr, hone]
  rfl

end SpeedTrial.Trial
