import SpeedTrial.Proofs.Trial.LoneReset
import SpeedTrial.Proofs.Trial.Completion
import SpeedTrial.Proofs.Trial.Halting

/-!
# Operations that fail

An operation that fails has changed nothing, whatever the machine is like.  For most of them this
is so because every refusal comes before the first store.  A reset stores only after it has found
every worker idle, and from then on it has the lock: a worker may finish a unit meanwhile, but
nobody gives it new ones, so that the second look at it fails no more than the first.

* `Checking` and `Clearing` are the two rounds of a reset that others may interrupt.
* `Machine.KeepsCount` is what is asked of those others: no worker publishes fewer units than are
  published already.  The workers of every run do so (`Run.keepsCount`), also when somebody gives
  them quota at any other time (`Machine.KeepsCount.rearmed`).
* `Calls.stage`: how far an operation is, and that nothing has changed unless it succeeds.
* `failed_operations_change_nothing` puts this together with what a reset does that runs alone.
-/

namespace SpeedTrial.Trial

variable {U S : Type} {work : U → S → U × S} {m m' : Machine U S} {h : History U S} {t : Thread}
  {s : Slot} {w : Worker U} {e : Machine.Event U} {op : Operation} {kept : Nat} {a : Access}
  {todo : List (Slot × Access)}

/-! ## Workers that keep count -/

/-- The units that a worker takes to be performed, given what it has published. -/
def Point.inHand (completed : Nat) : Point → Nat
  | .recheck _ done => done
  | .calling done => done
  | .inUnit done => done
  | .publish done => done
  | .reread done => done
  | _ => completed

/-- A worker takes back nothing that it has published, and publishes nothing for others. -/
structure Worker.KeepsCount (w : Worker U) : Prop where
  inHand : w.control.completed ≤ w.point.inHand w.control.completed
  freezing : ∀ trial done todo, w.point = .freezing trial done todo →
    ∀ x ∈ todo, ∀ units, x.2 ≠ .setCompleted units

/-- All workers keep count, and whoever delivers a report has the lock.  The quotas and the requests
for reports may be anything. -/
structure Machine.KeepsCount (m : Machine U S) : Prop where
  worker : ∀ s w, m.worker? s = some w → w.KeepsCount
  held : ∀ s, m.holdsAt s = true → m.lock = some (.worker s)

theorem Point.le_inHand_afterQuota {completed done : Nat} (h : completed ≤ done) (quota : Nat) :
    completed ≤ (Point.afterQuota quota done).inHand completed := by
  unfold Point.afterQuota
  split
  · exact h
  · exact Nat.le_refl _

/-- A step of a worker on its own block leaves the quota as it is and takes nothing back. -/
theorem Point.counts_of_next {c c' : Control} {p p' : Point} (hn : p.next c = some (c', p'))
    (hp : c.completed ≤ p.inHand c.completed) :
    c.completed ≤ c'.completed ∧ c'.completed ≤ p'.inHand c'.completed := by
  cases p <;> simp only [Point.next, reduceCtorEq] at hn
  case claim trial done =>
    -- only the request is touched
    simp only [exchange] at hn
    split at hn <;> obtain ⟨rfl, rfl⟩ := Prod.mk.inj (Option.some.inj hn) <;>
      simp [Point.inHand]
  all_goals obtain ⟨rfl, rfl⟩ := Prod.mk.inj (Option.some.inj hn)
  case publish done => exact ⟨hp, Nat.le_refl _⟩
  case reread done => exact ⟨Nat.le_refl _, Point.le_inHand_afterQuota hp _⟩
  case recheck quota done =>
    refine ⟨Nat.le_refl _, ?_⟩
    split
    · exact Nat.le_refl _
    · exact Point.le_inHand_afterQuota hp _
  all_goals
    refine ⟨Nat.le_refl _, ?_⟩
    first | exact Nat.le_refl _ | (split <;> exact Nat.le_refl _) | exact hp

theorem Worker.KeepsCount.goTo {p : Point} (hp : w.control.completed ≤ p.inHand w.control.completed)
    (hfreezing : ∀ trial done todo, p = .freezing trial done todo →
      ∀ x ∈ todo, ∀ units, x.2 ≠ .setCompleted units) : (w.goTo p).KeepsCount :=
  ⟨hp, hfreezing⟩

theorem Point.le_inHand_of_le {p : Point} {completed completed' : Nat} (h : completed' ≤ completed)
    (hp : completed ≤ p.inHand completed) : completed' ≤ p.inHand completed' := by
  cases p <;> first | exact Nat.le_refl _ | exact h.trans hp

/-- A store to a block keeps count unless it raises what is published. -/
theorem Worker.KeepsCount.write (hw : w.KeepsCount)
    (ha : (a.write w.control).completed ≤ w.control.completed) : (w.write a).KeepsCount :=
  ⟨Point.le_inHand_of_le ha hw.inHand, hw.freezing⟩

theorem Access.completed_write (ha : ∀ units, a ≠ .setCompleted units) (c : Control) :
    (a.write c).completed = c.completed := by
  cases a with
  | setCompleted units => exact absurd rfl (ha units)
  | _ => rfl

namespace Machine

/-- A freeze publishes nothing. -/
theorem not_setCompleted_of_mem_freezeOthers {trial : Nat} {x : Slot × Access}
    (hx : x ∈ m.freezeOthers s trial) (units : Nat) : x.2 ≠ .setCompleted units := by
  obtain ⟨-, -, -, ha, -⟩ := mem_freezeOthers (t := x.1) (a := x.2) hx
  simp only [Control.pausing, Control.resuming, List.mem_cons, List.not_mem_nil, or_false] at ha
  rcases ha with ha | ha <;> simp [ha]

/-- A worker that goes on keeps count, and so do the others. -/
theorem forall_keepsCount_onSlot {f : Worker U → Worker U}
    (hk : ∀ s w, m.worker? s = some w → w.KeepsCount)
    (hf : ∀ w, m.worker? s = some w → w.KeepsCount → (f w).KeepsCount) :
    ∀ s' w, (m.onSlot s f).worker? s' = some w → w.KeepsCount :=
  forall_onSlot hk fun w hw => hf w hw (hk s w hw)

/-- A store to the block of a worker raises nothing that is published, so all keep count. -/
theorem KeepsCount.write (hk : m.KeepsCount)
    (ha : ∀ c : Control, (a.write c).completed ≤ c.completed) :
    (m.onSlot s (Worker.write a)).KeepsCount where
  worker := forall_keepsCount_onSlot hk.worker fun w _ hw => hw.write (ha w.control)
  held s' hs' := by simpa using hk.held s' (by simpa using hs')

theorem KeepsCount.goOn (hk : m.KeepsCount) (t : Thread) (c : Call) : (m.goOn t c).KeepsCount where
  worker s w hw := hk.worker s w (by simpa [Machine.goOn] using hw)
  held s hs := by simpa [Machine.goOn] using hk.held s (by simpa [Machine.goOn] using hs)

/-- While nobody has the lock no worker delivers a report, so somebody may take it. -/
theorem KeepsCount.locked (hk : m.KeepsCount) (hfree : m.lock = none) (holder : Holder) :
    ({ m with lock := some holder } : Machine U S).KeepsCount where
  worker := hk.worker
  held s hs := by
    have hlock := hk.held s hs
    rw [hfree] at hlock
    cases hlock

/-- Whatever a worker does, all keep count. -/
theorem KeepsCount.step (hk : m.KeepsCount) (hs : m.step work e = some m')
    (he : e.isWorkers = true) : m'.KeepsCount := by
  have hworker := hk.worker
  have hheld := hk.held
  cases Move.of_step hs with
  | @own s w c p hw hn =>
    obtain ⟨-, hinHand⟩ := Point.counts_of_next hn (hk.worker _ _ hw).inHand
    obtain ⟨hbefore, hafter⟩ := holds_of_next hn
    have hat := holdsAt_of_worker? hw
    refine ⟨forall_keepsCount_onSlot hworker fun _ _ _ => ⟨hinHand, ?_⟩, ?_⟩
    · rintro trial done todo rfl
      cases hafter
    · -- a step of its own neither begins nor ends a delivery
      simp only [holdsAt_onSlot_own, lock_onSlot]
      grind
  | accept hw hp hl =>
    refine ⟨forall_keepsCount_onSlot hworker fun w _ _ => .goTo (Nat.le_refl _) ?_, ?_⟩
    · rintro _ _ _ ⟨⟩ x hx
      exact not_setCompleted_of_mem_freezeOthers hx
    · simp
      grind
  | refuse hw hp hl =>
    refine ⟨forall_keepsCount_onSlot hworker fun w _ _ => .goTo (Nat.le_refl _) (by simp), ?_⟩
    simp
    grind
  | @freeze s s' w trial done a todo hw hp =>
    have hfreezing := (hk.worker _ _ hw).freezing _ _ _ hp
    refine ⟨forall_keepsCount_onSlot (forall_keepsCount_onSlot hworker fun w _ hk => ?_)
      fun w _ _ => .goTo (Nat.le_refl _) ?_, ?_⟩
    · exact hk.write (Access.completed_write (hfreezing _ (List.mem_cons_self ..)) _).le
    · rintro _ _ _ ⟨⟩ x hx
      exact hfreezing x (List.mem_cons_of_mem _ hx)
    · have hat := holdsAt_of_worker? hw
      simp
      grind [Point.holds]
  | count hw hp | release hw hp =>
    refine ⟨forall_keepsCount_onSlot hworker fun w _ _ => .goTo (Nat.le_refl _) (by simp), ?_⟩
    -- it had the lock, so nobody else was delivering
    have hl := hheld _ (by rw [holdsAt_of_worker? hw, hp]; rfl)
    simp
    grind [Point.holds]
  | @finish s w done hw hp =>
    have hat := holdsAt_of_worker? hw
    refine ⟨forall_keepsCount_onSlot hworker fun w' hw' hk => ⟨?_, by simp⟩, ?_⟩
    · -- the unit that is finished is one more than those in hand
      obtain rfl : w = w' := Option.some.inj (hw.symm.trans hw')
      have hinHand := hk.inHand
      rw [hp] at hinHand
      exact Nat.le_succ_of_le hinHand
    · simp
      grind [Point.holds]
  | panic hw hp =>
    have hat := holdsAt_of_worker? hw
    refine ⟨forall_keepsCount_onSlot hworker fun w _ _ => .goTo (Nat.le_refl _) (by simp), ?_⟩
    simp
    grind [Point.holds]
  | ask h => rcases h with rfl | ⟨_, rfl⟩ <;> cases he
  | fail h => rcases h with rfl | ⟨_, _, _, rfl⟩ <;> cases he
  | _ => cases he

end Machine

/-- A start of a trial publishes nothing. -/
theorem Run.not_setCompleted_of_resuming {freeze : FreezeScope} {shared : S} {quota : Nat}
    (run : Run work (.empty freeze shared) h m)
    (hcall : (m.caller t).call = .resuming quota ((s, a) :: todo)) (hw : m.worker? s = some w)
    (units : Nat) : a ≠ .setCompleted units := by
  have hu := run.coherent.underLock_eq hcall rfl
  have hdue : (m.view s w).due = a :: forSlot s todo := by
    simp [Machine.view, hu, Call.handing]
  rcases (run.orderly s w hw).due with hnil | ⟨-, -, hpending | ⟨-, -, quota', hboth⟩⟩
  · simp [hdue] at hnil
  · rw [hdue] at hpending
    simp [(List.cons.inj hpending).1]
  · rw [hdue] at hboth
    simp [(List.cons.inj hboth).1]

/-- The workers of every run keep count. -/
theorem Run.keepsCount {freeze : FreezeScope} {shared : S}
    (run : Run work (.empty freeze shared) h m) : m.KeepsCount := by
  refine ⟨?_, fun s hs => (run.coherent.lock_worker s).mpr hs⟩
  induction run with
  | start => simp
  | @next h m m' e run hs ih =>
    have hk : m.KeepsCount := ⟨ih, fun s hs => (run.coherent.lock_worker s).mpr hs⟩
    by_cases he : e.isWorkers = true
    · exact (hk.step hs he).worker
    -- the calls store too: quota, requests and stops, and what a reset takes back
    cases Machine.Move.of_step hs with
    | own | accept | refuse | freeze | count | release | finish | panic => exact absurd rfl he
    | hand hcall =>
      simp only [Machine.worker?_setCaller]
      refine Machine.forall_onSlot ih fun w hw => (ih _ w hw).write ?_
      exact (Access.completed_write (run.not_setCompleted_of_resuming hcall hw) _).le
    | clear hcall =>
      simp only [Machine.worker?_setCaller]
      refine Machine.forall_onSlot ih fun w hw => (ih _ w hw).write ?_
      rcases run.write_of_resetting hcall hw with ha | ha | ha | ha <;> simp [ha]
    | halt hcall =>
      have ha := run.coherent.stopping _ _ hcall _ (List.mem_cons_self ..)
      simp only [Control.stopping, List.mem_cons, List.not_mem_nil, or_false] at ha
      simp only [Machine.worker?_setCaller]
      refine Machine.forall_onSlot ih fun w hw => (ih _ w hw).write ?_
      rcases ha with rfl | rfl <;> exact Nat.le_refl _
    | register =>
      intro s w hw
      rcases m.worker?_enrol _ _ hw with hw | ⟨-, rfl⟩
      · exact ih s w hw
      · exact ⟨Nat.le_refl _, by simp⟩
    | launch =>
      intro s w hw
      obtain ⟨w, -, rfl⟩ : ∃ w', m.worker? s = some w' ∧ w'.goTo .top = w := by simpa using hw
      exact .goTo (Nat.le_refl _) (by simp)
    | fail => exact ih
    | _ => simpa using ih

/-- Whatever quota and request are given to a worker at whatever time, all keep count. -/
theorem Machine.KeepsCount.rearmed (hk : m.KeepsCount) (s : Slot) (quota trial : Nat) :
    (m.perform (Machine.forEach [s] (Control.resuming quota trial))).KeepsCount := by
  simp only [forEach, Control.resuming, List.flatMap_cons, List.flatMap_nil, List.map_cons,
    List.map_nil, List.append_nil, perform_cons, perform_nil]
  -- neither the quota nor the request is what is published
  have hquota : (m.onSlot s (Worker.write (.setQuota quota))).KeepsCount :=
    hk.write fun _ => Nat.le_refl _
  exact hquota.write fun _ => Nat.le_refl _

namespace Machine

/-! ## What others do during a reset -/

/-- Every worker has the quota that it had, and has published no less. -/
structure Grows (m m' : Machine U S) : Prop where
  slots : m'.slots = m.slots
  worker : ∀ s w', m'.worker? s = some w' → ∃ w, m.worker? s = some w ∧
    w'.control.quota = w.control.quota ∧ w.control.completed ≤ w'.control.completed

theorem Grows.idleAt (hg : m.Grows m') (hidle : m.IdleAt s) : m'.IdleAt s := by
  intro w' hw'
  obtain ⟨w, hw, hquota, hle⟩ := hg.worker s w' hw'
  have hnot := hidle w hw
  simp only [Worker.isBusy, decide_eq_false_iff_not, Nat.not_lt] at hnot ⊢
  omega

theorem grows_of_same (hslots : m'.slots = m.slots) (hsame : ∀ s, m'.worker? s = m.worker? s) :
    m.Grows m' where
  slots := hslots
  worker s w' hw' := ⟨w', by rw [← hsame, hw'], rfl, Nat.le_refl _⟩

theorem grows_goOn (m : Machine U S) (t : Thread) (c : Call) : m.Grows (m.goOn t c) :=
  grows_of_same (by simp [goOn]) (by simp [goOn])

theorem grows_onSlot {f : Worker U → Worker U}
    (hf : ∀ w, m.worker? s = some w → (f w).control.quota = w.control.quota ∧
      w.control.completed ≤ (f w).control.completed) : m.Grows (m.onSlot s f) where
  slots := by simp
  worker s' w' hw' := by
    rw [worker?_onSlot] at hw'
    obtain ⟨w, hw, rfl⟩ := Option.map_eq_some_iff.mp hw'
    refine ⟨w, hw, ?_⟩
    by_cases hs : s' = s
    · subst hs
      simpa using hf w hw
    · simp [hs]

/-- While a caller has the lock, workers that keep count do nothing but finish units and look for
others. -/
theorem KeepsCount.grows (hk : m.KeepsCount) (hl : m.lock = some (.caller t))
    (hs : m.step work e = some m') (he : e.isWorkers = true) :
    m.Grows m' ∧ m'.lock = m.lock := by
  -- a worker that delivers would have the lock
  have hno : ∀ s w, m.worker? s = some w → w.point.holds = false := by
    intro s w hw
    rw [← Bool.not_eq_true]
    intro hholds
    have hlock := hk.held s (by rw [holdsAt_of_worker? hw, hholds])
    rw [hl] at hlock
    cases hlock
  cases Move.of_step hs with
  | @own s w c p hw hn =>
    refine ⟨grows_onSlot fun w' hw' => ?_, by simp⟩
    obtain rfl : w = w' := Option.some.inj (hw.symm.trans hw')
    exact ⟨Point.quota_of_next hn, (Point.counts_of_next hn (hk.worker _ _ hw).inHand).1⟩
  | accept _ _ hfree | refuse _ _ hfree => simp [hl] at hfree
  | freeze hw hp | count hw hp | release hw hp =>
    have hnot := hno _ _ hw
    rw [hp] at hnot
    cases hnot
  | @finish s w done =>
    have hg := grows_onSlot (m := { m with shared := (work w.unit m.shared).2 }) (s := s)
      (f := fun w' =>
        { w' with unit := (work w.unit m.shared).1, point := .publish (done + 1) })
      fun _ _ => ⟨rfl, Nat.le_refl _⟩
    exact ⟨⟨hg.slots, hg.worker⟩, by simp⟩
  | panic => exact ⟨grows_onSlot fun _ _ => ⟨rfl, Nat.le_refl _⟩, by simp⟩
  | ask h => rcases h with rfl | ⟨_, rfl⟩ <;> cases he
  | fail h => rcases h with rfl | ⟨_, _, _, rfl⟩ <;> cases he
  | _ => cases he

/-! ## The two rounds of a reset -/

/-- A reset is in its first round: the workers that it has passed are idle. -/
inductive Checking (m : Machine U S) : Nat → List (Slot × Access) → Prop where
  | reading {kept : Nat} {before after : List Slot} : m.slots = before ++ after →
      (∀ s ∈ before, m.IdleAt s) →
      Checking m kept (forEach after Control.checkingIdle ++ forEach m.slots Control.resetting)
  | comparing {kept : Nat} {before after : List Slot} {s : Slot} :
      m.slots = before ++ s :: after → (∀ s ∈ before, m.IdleAt s) →
      (∀ w, m.worker? s = some w → w.control.quota ≤ kept) →
      Checking m kept ((s, .requireIdle) ::
        (forEach after Control.checkingIdle ++ forEach m.slots Control.resetting))

/-- A reset is in its second round. -/
inductive Clearing (m : Machine U S) : Nat → List (Slot × Access) → Prop where
  | reading {kept : Nat} {after : List Slot} : Clearing m kept (forEach after Control.resetting)
  | comparing {kept : Nat} {s : Slot} {after : List Slot} :
      (∀ w, m.worker? s = some w → kept ≤ w.control.completed) →
      Clearing m kept ((s, .requireIdle) :: (s, .setQuota 0) :: (s, .setCompleted 0) ::
        (s, .setPending 0) :: forEach after Control.resetting)
  | emptying {kept : Nat} {s : Slot} {after : List Slot} :
      Clearing m kept ((s, .setQuota 0) :: (s, .setCompleted 0) :: (s, .setPending 0) ::
        forEach after Control.resetting)
  | zeroing {kept : Nat} {s : Slot} {after : List Slot} :
      (∀ w, m.worker? s = some w → w.control.quota = 0) →
      Clearing m kept ((s, .setCompleted 0) :: (s, .setPending 0) ::
        forEach after Control.resetting)
  | disarming {kept : Nat} {s : Slot} {after : List Slot} :
      Clearing m kept ((s, .setPending 0) :: forEach after Control.resetting)

theorem Checking.grow (hc : m.Checking kept todo) (hg : m.Grows m') : m'.Checking kept todo := by
  -- What the constructor says of single workers is about quotas and units published, and these are
  -- kept.
  cases hc with
  | reading hslots hbefore =>
    rw [← hg.slots] at hslots ⊢
    exact .reading hslots fun s hs => hg.idleAt (hbefore s hs)
  | comparing hslots hbefore hkept =>
    rw [← hg.slots] at hslots ⊢
    refine .comparing hslots (fun s hs => hg.idleAt (hbefore s hs)) fun w' hw' => ?_
    obtain ⟨w, hw, hquota, -⟩ := hg.worker _ w' hw'
    exact hquota ▸ hkept w hw

theorem Clearing.grow (hc : m.Clearing kept todo) (hg : m.Grows m') : m'.Clearing kept todo := by
  cases hc with
  | reading => exact .reading
  | comparing hkept =>
    refine .comparing fun w' hw' => ?_
    obtain ⟨w, hw, -, hle⟩ := hg.worker _ w' hw'
    exact (hkept w hw).trans hle
  | emptying => exact .emptying
  | zeroing hzero =>
    refine .zeroing fun w' hw' => ?_
    obtain ⟨w, hw, hquota, -⟩ := hg.worker _ w' hw'
    exact hquota.trans (hzero w hw)
  | disarming => exact .disarming

/-- The first round goes on, ends, or finds a busy worker. -/
theorem Checking.next (hc : m.Checking kept todo) :
    ((∀ s, m.IdleAt s) ∧ m.Clearing kept todo) ∨
    ∃ s a rest, todo = (s, a) :: rest ∧ (a = .readQuota ∨ a = .requireIdle) ∧
      ((a = .requireIdle → ∀ w, m.worker? s = some w → kept ≤ w.control.completed) →
        m.Checking (m.keptAfter kept s a) rest) := by
  cases hc with
  | @reading before after hslots hbefore =>
    cases after with
    | nil =>
      -- the whole roster has been passed
      refine .inl ⟨fun s w hw => hbefore s ?_ w hw, .reading⟩
      rw [List.append_nil] at hslots
      exact hslots ▸ mem_slots_of_worker? hw
    | cons s after =>
      refine .inr ⟨s, _, _, rfl, .inl rfl, fun _ => .comparing hslots hbefore fun w hw => ?_⟩
      simp [keptAfter, hw, Access.keep]
  | @comparing before after s hslots hbefore hkept =>
    refine .inr ⟨s, _, _, rfl, .inr rfl, fun hle => ?_⟩
    have hslots' : m.slots = (before ++ [s]) ++ after := by
      rw [hslots, List.append_assoc]
      rfl
    refine .reading hslots' fun s' hs' => ?_
    rcases List.mem_append.mp hs' with hs' | hs'
    · exact hbefore s' hs'
    · -- what the worker has performed has reached the quota that was read
      obtain rfl := List.mem_singleton.mp hs'
      intro w hw
      have hreached := (hkept w hw).trans (hle rfl w hw)
      simpa [Worker.isBusy] using hreached

/-- A store to one block leaves the others idle. -/
theorem idleAt_onSlot_write (hidle : ∀ s, m.IdleAt s)
    (ha : ∀ w, m.worker? s = some w → (w.write a).isBusy = false) (s' : Slot) :
    (m.onSlot s (Worker.write a)).IdleAt s' := by
  intro w' hw'
  rw [worker?_onSlot] at hw'
  obtain ⟨w, hw, rfl⟩ := Option.map_eq_some_iff.mp hw'
  split
  · next heq => exact ha w (heq ▸ hw)
  · exact hidle s' w hw

/-- The second round goes on, and leaves all workers idle. -/
theorem Clearing.next {rest : List (Slot × Access)} (hc : m.Clearing kept todo)
    (htodo : todo = (s, a) :: rest) (hidle : ∀ s, m.IdleAt s) :
    (a = .requireIdle → ∀ w, m.worker? s = some w → kept ≤ w.control.completed) ∧
      (∀ c : Control, (a.write c).completed ≤ c.completed) ∧
      (∀ s', (m.onSlot s (Worker.write a)).IdleAt s') ∧
      (m.onSlot s (Worker.write a)).Clearing (m.keptAfter kept s a) rest := by
  -- the accesses of one worker in their order: the two that look at it, and the three that take it
  -- back
  cases hc with
  | @reading after =>
    cases after with
    | nil => cases htodo
    | cons s' after =>
      cases htodo
      rw [onSlot_write_reading (.inl rfl)]
      exact ⟨Access.noConfusion, fun _ => Nat.le_refl _, hidle,
        .comparing (le_of_keptAfter (hidle s) kept)⟩
  | comparing hkept =>
    cases htodo
    rw [onSlot_write_reading (.inr rfl)]
    exact ⟨fun _ => hkept, fun _ => Nat.le_refl _, hidle, .emptying⟩
  | emptying =>
    -- without quota no worker is busy
    cases htodo
    refine ⟨Access.noConfusion, fun _ => Nat.le_refl _, idleAt_onSlot_write hidle fun w _ => rfl,
      .zeroing fun w' hw' => ?_⟩
    rw [worker?_onSlot] at hw'
    obtain ⟨w, -, rfl⟩ := Option.map_eq_some_iff.mp hw'
    simp [Worker.write, Access.write]
  | zeroing hzero =>
    cases htodo
    refine ⟨Access.noConfusion, fun _ => Nat.zero_le _,
      idleAt_onSlot_write hidle fun w hw => ?_, .disarming⟩
    simp [Worker.isBusy, Worker.write, Access.write, hzero w hw]
  | disarming =>
    cases htodo
    exact ⟨Access.noConfusion, fun _ => Nat.le_refl _,
      idleAt_onSlot_write hidle fun w hw => hidle s w hw, .reading⟩

end Machine

/-! ## The course of an operation -/

/-- An operation that stands here has stored nothing, and will if at all in the step that takes it
on from here. -/
def Call.isAsking : Call → Bool
  | .runAtLock _ => true
  | .runAtFlag _ => true
  | .waitAtLock _ => true
  | .waitAtFlag _ _ => true
  | .waitAtThreads _ _ => true
  | .waitAtClock _ _ => true
  | .releasing (.error _) => true
  | _ => false

/-- Only steps of workers have changed anything. -/
def Untouched (h : History U S) : Prop :=
  ∀ x ∈ h, x.event.isWorkers = false → x.after.board = x.before.board

/-- Either the workers do nothing meanwhile, or they keep count. -/
def Machine.Steady (alone : Prop) (m : Machine U S) : Prop := alone ∨ m.KeepsCount

/-- How far an operation of a thread is that does not stop the workers: as long as it may fail,
nothing has changed. -/
inductive Stage (alone : Prop) (t : Thread) (h : History U S) (m : Machine U S) : Prop where
  | asking : Untouched h → (m.caller t).call.isAsking = true → Stage alone t h m
  | refused {err : TrialError} : Untouched h → m.caller t = ⟨.idle, some (.error err)⟩ →
      Stage alone t h m
  /-- A reset has not taken the lock yet. -/
  | waiting : Untouched h → (m.caller t).call = .resetAtLock → m.Steady alone → Stage alone t h m
  | checking {kept : Nat} {todo : List (Slot × Access)} : Untouched h →
      (m.caller t).call = .resetting kept todo → m.lock = some (.caller t) → m.Steady alone →
      m.Checking kept todo → Stage alone t h m
  | clearing {kept : Nat} {todo : List (Slot × Access)} :
      (m.caller t).call = .resetting kept todo → m.lock = some (.caller t) → m.Steady alone →
      (∀ s, m.IdleAt s) → m.Clearing kept todo → Stage alone t h m
  /-- A start of a trial hands out quota. -/
  | handing {quota : Nat} {todo : List (Slot × Access)} :
      (m.caller t).call = .resuming quota todo → Stage alone t h m
  | succeeded {a : Answer} : m.caller t = ⟨.idle, some (.ok a)⟩ → Stage alone t h m

section stage

variable {alone : Prop}

theorem Untouched.cons (hu : Untouched h) (hb : e.isWorkers = false → m'.board = m.board) :
    Untouched (⟨m, e, m'⟩ :: h) := by
  intro x hx
  rcases List.mem_cons.mp hx with rfl | hx
  · exact hb
  · exact hu x hx

/-- What others do keeps them steady, and while a caller has the lock nobody becomes busy. -/
theorem Machine.Steady.step (hst : m.Steady alone) (hs : m.step work e = some m')
    (he : e.isWorkers = true ∨ ∃ nanos, e = .tick nanos) (halone : alone → e.isWorkers = false) :
    m'.Steady alone ∧ (m.lock = some (.caller t) → m.Grows m' ∧ m'.lock = m.lock) := by
  rcases he with he | ⟨nanos, rfl⟩
  · rcases hst with hst | hk
    · simp [halone hst] at he
    · exact ⟨.inr (hk.step hs he), fun hl => hk.grows hl hs he⟩
  · obtain rfl := Option.some.inj hs
    refine ⟨hst.imp_right fun hk => ⟨hk.worker, hk.held⟩, fun _ => ⟨?_, rfl⟩⟩
    exact Machine.grows_of_same rfl fun _ => rfl

theorem Stage.others (hst : Stage alone t h m) (hs : m.step work e = some m')
    (he : e.isWorkers = true ∨ ∃ nanos, e = .tick nanos) (halone : alone → e.isWorkers = false) :
    Stage alone t (⟨m, e, m'⟩ :: h) m' := by
  have hcaller : m'.caller t = m.caller t := Machine.caller_of_others hs he
  have hcons : Untouched h → Untouched (⟨m, e, m'⟩ :: h) := by
    intro hu
    refine hu.cons fun hno => ?_
    rcases he with he | ⟨nanos, rfl⟩
    · simp [hno] at he
    · obtain rfl := Option.some.inj hs
      rfl
  -- each stage is kept by what others do, for neither the caller nor, under the lock, a quota changes
  cases hst with
  | asking hu hcall => exact .asking (hcons hu) (by rwa [hcaller])
  | refused hu hcall => exact .refused (hcons hu) (hcaller.trans hcall)
  | waiting hu hcall hsteady =>
    exact .waiting (hcons hu) (by rwa [hcaller]) (hsteady.step (t := t) hs he halone).1
  | checking hu hcall hl hsteady hc =>
    obtain ⟨hsteady', hgrow⟩ := hsteady.step hs he halone
    obtain ⟨hg, hl'⟩ := hgrow hl
    exact .checking (hcons hu) (by rwa [hcaller]) (hl'.trans hl) hsteady' (hc.grow hg)
  | clearing hcall hl hsteady hidle hc =>
    obtain ⟨hsteady', hgrow⟩ := hsteady.step hs he halone
    obtain ⟨hg, hl'⟩ := hgrow hl
    exact .clearing (by rwa [hcaller]) (hl'.trans hl) hsteady' (fun s => hg.idleAt (hidle s))
      (hc.grow hg)
  | handing hcall => exact .handing (by rwa [hcaller])
  | succeeded hcall => exact .succeeded (hcaller.trans hcall)

/-- A thread that goes on without a store. -/
theorem Stage.of_goOn {m₁ : Machine U S} {c : Call} (hu : Untouched h) (hb : m₁.board = m.board)
    (hc : c.isAsking = true) : Stage alone t (⟨m, e, m₁.goOn t c⟩ :: h) (m₁.goOn t c) :=
  .asking (hu.cons fun _ => by simpa using hb) (by rwa [Machine.caller_goOn])

/-- A thread that is answered without a store. -/
theorem Stage.of_reply {m₁ : Machine U S} (hu : Untouched h) (hb : m₁.board = m.board)
    (a : Except TrialError Answer) : Stage alone t (⟨m, e, m₁.reply t a⟩ :: h) (m₁.reply t a) := by
  cases a with
  | error err => exact .refused (hu.cons fun _ => by simpa using hb) (Machine.caller_reply ..)
  | ok a => exact .succeeded (Machine.caller_reply ..)

/-- A step from where nothing is stored yet. -/
theorem Stage.own_asking (hu : Untouched h) (hcall : (m.caller t).call.isAsking = true)
    (hs : m.step work (.call t) = some m') : Stage alone t (⟨m, .call t, m'⟩ :: h) m' := by
  simp only [Machine.step, Machine.stepCall] at hs
  -- None of these calls stores anything on the way to an answer; a start stores once it hands out
  -- quota.
  generalize (m.caller t).call = c at hcall hs
  cases c with
  | runAtLock total =>
    obtain ⟨-, rfl⟩ := Machine.takeLock_eq_some hs
    exact .of_goOn hu rfl rfl
  | runAtFlag total =>
    cases hs
    unfold Machine.startTrial
    split
    · exact .of_goOn hu rfl rfl
    · cases m.tally.phase with
      | running => exact .of_goOn hu rfl rfl
      | complete => exact .of_goOn hu rfl rfl
      | ready => exact .handing (by rw [Machine.caller_goOn])
  | waitAtLock waiting =>
    obtain ⟨-, rfl⟩ := Machine.lookAtPhase_eq_some hs
    cases m.tally.phase with
    | ready => exact .of_reply hu rfl _
    | complete => exact .of_reply hu rfl _
    | running => exact .of_goOn hu rfl rfl
  | waitAtFlag waiting trial =>
    cases hs
    split
    · exact .of_reply hu rfl _
    · exact .of_goOn hu rfl rfl
  | waitAtThreads waiting trial =>
    cases hs
    split
    · exact .of_reply hu rfl _
    · exact .of_goOn hu rfl rfl
  | waitAtClock waiting trial =>
    cases hs
    split
    · exact .of_reply hu rfl _
    · exact .of_goOn hu rfl rfl
  | releasing answer =>
    cases hs
    have hboard : ({ m with lock := none } : Machine U S).board = m.board := rfl
    exact .of_reply hu hboard answer
  | _ => cases hcall

/-- The stores of a reset leave the workers steady. -/
theorem Machine.Steady.write (hst : m.Steady alone)
    (ha : ∀ c : Control, (a.write c).completed ≤ c.completed) (c : Call) :
    ((m.onSlot s (Worker.write a)).goOn t c).Steady alone :=
  hst.imp_right fun hk => (hk.write ha).goOn t c

/-- A reset takes the lock, or has to wait for it. -/
theorem Stage.own_waiting (hu : Untouched h) (hcall : (m.caller t).call = .resetAtLock)
    (hst : m.Steady alone) (hs : m.step work (.call t) = some m') :
    Stage alone t (⟨m, .call t, m'⟩ :: h) m' := by
  cases hfree : m.lock with
  | some holder => simp [Machine.step, Machine.stepCall, hcall, Machine.takeLock, hfree] at hs
  | none =>
    rw [Machine.step_resetAtLock hcall hfree, Option.some.injEq] at hs
    subst hs
    split
    · exact .of_goOn hu rfl rfl
    · have hst' : ({ m with lock := some (.caller t) }.goOn t
          (.resetting 0 m.resetScript)).Steady alone :=
        hst.imp_right fun hk => (hk.locked hfree _).goOn t _
      have hg : m.Grows ({ m with lock := some (.caller t) }.goOn t (.resetting 0 m.resetScript)) :=
        Machine.grows_of_same (by simp [Machine.goOn]) (by simp [Machine.goOn])
      have hc : m.Checking 0 m.resetScript := .reading (List.nil_append _).symm (by simp)
      exact .checking (hu.cons fun _ => Machine.board_goOn ..) (by rw [Machine.caller_goOn])
        (by simp [Machine.goOn]) hst' (hc.grow hg)

theorem Stage.own_clearing (hcall : (m.caller t).call = .resetting kept todo)
    (hl : m.lock = some (.caller t)) (hst : m.Steady alone) (hidle : ∀ s, m.IdleAt s)
    (hc : m.Clearing kept todo) (hs : m.step work (.call t) = some m') :
    Stage alone t (⟨m, .call t, m'⟩ :: h) m' := by
  cases todo with
  | nil =>
    simp only [Machine.step, Machine.stepCall, hcall, Option.some.injEq] at hs
    subst hs
    exact .succeeded (Machine.caller_unlock ..)
  | cons x rest =>
    obtain ⟨s, a⟩ := x
    obtain ⟨hreached, hzero, hidle', hnext⟩ := hc.next rfl hidle
    rw [Machine.step_access hcall hreached, Option.some.injEq] at hs
    subst hs
    have hg := (m.onSlot s (Worker.write a)).grows_goOn t
      (.resetting (m.keptAfter kept s a) rest)
    exact .clearing (by rw [Machine.caller_goOn]) (by simpa [Machine.goOn] using hl)
      (hst.write hzero _) (fun s' => hg.idleAt (hidle' s')) (hnext.grow hg)

theorem Stage.own_checking (hu : Untouched h) (hcall : (m.caller t).call = .resetting kept todo)
    (hl : m.lock = some (.caller t)) (hst : m.Steady alone) (hc : m.Checking kept todo)
    (hs : m.step work (.call t) = some m') : Stage alone t (⟨m, .call t, m'⟩ :: h) m' := by
  rcases hc.next with ⟨hidle, hc⟩ | ⟨s, a, rest, rfl, ha, hnext⟩
  · exact .own_clearing hcall hl hst hidle hc hs
  · by_cases hreached : a = .requireIdle → ∀ w, m.worker? s = some w → kept ≤ w.control.completed
    · -- the reading changes nothing
      rw [Machine.step_access hcall hreached, Option.some.injEq,
        Machine.onSlot_write_reading ha] at hs
      subst hs
      have hg := m.grows_goOn t (.resetting (m.keptAfter kept s a) rest)
      exact .checking (hu.cons fun _ => by simp) (by rw [Machine.caller_goOn])
        (by simpa [Machine.goOn] using hl) (hst.imp_right fun hk => hk.goOn t _)
        ((hnext hreached).grow hg)
    · -- the worker is busy
      obtain ⟨rfl, w, hw, hlt⟩ : a = .requireIdle ∧ ∃ w, m.worker? s = some w ∧
          w.control.completed < kept := by
        simpa using hreached
      rw [Machine.step_access_busy hcall hw hlt, Option.some.injEq] at hs
      subst hs
      exact .of_goOn hu rfl rfl

theorem Stage.own (hst : Stage alone t h m) (hs : m.step work (.call t) = some m') :
    Stage alone t (⟨m, .call t, m'⟩ :: h) m' := by
  cases hst with
  | asking hu hcall => exact .own_asking hu hcall hs
  | refused hu hcall =>
    -- the call is over
    simp [Machine.step, Machine.stepCall, hcall] at hs
  | waiting hu hcall hsteady => exact .own_waiting hu hcall hsteady hs
  | checking hu hcall hl hsteady hc => exact .own_checking hu hcall hl hsteady hc hs
  | clearing hcall hl hsteady hidle hc => exact .own_clearing hcall hl hsteady hidle hc hs
  | @handing quota todo hcall =>
    cases todo with
    | nil =>
      simp only [Machine.step, Machine.stepCall, hcall, Option.some.injEq] at hs
      subst hs
      exact .succeeded (Machine.caller_unlock ..)
    | cons x rest =>
      simp only [Machine.step, Machine.stepCall, hcall, Option.some.injEq] at hs
      subst hs
      exact .handing (by rw [Machine.caller_goOn])
  | succeeded hcall => simp [Machine.step, Machine.stepCall, hcall] at hs

/-- A thread that calls an operation is answered at once, or has stored nothing yet. -/
theorem Stage.begun (hs : m.step work (.invoke t op) = some m') (hop : op ≠ .stop)
    (hsteady : op = .reset → m.Steady alone) :
    Stage alone t [⟨m, .invoke t op, m'⟩] m' := by
  have hu : Untouched ([] : History U S) := by simp [Untouched]
  simp only [Machine.step, Machine.invoke] at hs
  split at hs
  · obtain rfl := Option.some.inj hs
    cases op with
    | stop => exact absurd rfl hop
    | run total =>
      dsimp only
      split
      · exact .of_reply hu rfl _
      · split
        · exact .of_reply hu rfl _
        · exact .of_goOn hu rfl rfl
    | wait limit =>
      dsimp only
      split
      · exact .of_reply hu rfl _
      · exact .of_goOn hu rfl rfl
    | reset =>
      dsimp only
      split
      · exact .of_reply hu rfl _
      · exact .waiting (hu.cons fun _ => by simp) (by rw [Machine.caller_goOn])
          ((hsteady rfl).imp_right fun hk => hk.goOn t _)
  · cases hs

/-- How far an operation is, at every moment of its call. -/
theorem Machine.Calls.stage (hcalls : m.Calls work t op h m') (hop : op ≠ .stop)
    (hsteady : op = .reset → m.Steady alone)
    (halone : alone → ∀ x ∈ h, x.event.isWorkers = false) : Stage alone t h m' := by
  -- by induction on what has happened since the operation was called
  induction hcalls with
  | begin hs => exact .begun hs hop hsteady
  | next hcalls he hs ih =>
    have hst := ih fun ha x hx => halone ha x (List.mem_cons_of_mem _ hx)
    rcases he with rfl | he
    · exact hst.own hs
    · exact hst.others hs he fun ha => halone ha _ (List.mem_cons_self ..)

/-- An operation that is refused has stored nothing. -/
theorem Stage.untouched {err : TrialError} (hst : Stage alone t h m)
    (hans : m.caller t = ⟨.idle, some (.error err)⟩) : Untouched h := by
  cases hst with
  | refused hu => exact hu
  | asking _ hcall =>
    rw [hans] at hcall
    cases hcall
  | waiting _ hcall | checking _ hcall | clearing hcall | handing hcall | succeeded hcall =>
    rw [hans] at hcall
    cases hcall

/-- As long as no worker does anything, what an untouched machine shows stays. -/
theorem Machine.Calls.board_eq (hcalls : m.Calls work t op h m') (hu : Untouched h)
    (hquiet : ∀ x ∈ h, x.event.isWorkers = false) : m'.board = m.board := by
  induction hcalls with
  | begin hs => exact Machine.board_of_invoke hs
  | next hcalls he hs ih =>
    have hlast := hu _ (List.mem_cons_self ..) (hquiet _ (List.mem_cons_self ..))
    exact hlast.trans (ih (fun x hx => hu x (List.mem_cons_of_mem _ hx))
      fun x hx => hquiet x (List.mem_cons_of_mem _ hx))

end stage

/-! ## Operations that fail -/

/-- An operation that fails changes nothing, whatever the machine is like.

* A registration or a launch that fails leaves the machine as it is.
* A start, a wait and a reset that fail leave the coordinator and all workers as they are, but for
  what the workers do themselves.  For a reset this is so if they do nothing meanwhile or if they
  keep count: a worker that published fewer units than before could pass the first look and not the
  second.
* A reset that runs alone while no trial is running fails exactly if a worker has units left; it
  names the first such worker of the roster.  Otherwise it takes back all workers and the tally, and
  after that another reset changes nothing.  Before the launch it has nothing to do. -/
theorem failed_operations_change_nothing (work : U → S → U × S) (m : Machine U S) (t : Thread) :
    (∀ expected actual unit err m', m.register expected actual unit = .error err →
      m.step work (.register expected actual unit) = some m' → m' = m) ∧
    (∀ err m', m.launch = .error err → m.step work .launch = some m' → m' = m) ∧
    (∀ op h m' err, op ≠ .stop → m.Calls work t op h m' →
      m'.caller t = ⟨.idle, some (.error err)⟩ →
      (op = .reset → (∀ x ∈ h, x.event.isWorkers = false) ∨ m.KeepsCount) →
      (∀ x ∈ h, x.event.isWorkers = false → x.after.board = x.before.board) ∧
        ((∀ x ∈ h, x.event.isWorkers = false) → m'.board = m.board)) ∧
    ((m.caller t).call = .idle → m.launched = true → m.lock = none → m.tally.phase ≠ .running →
      (m.firstBusy? = none ↔
        ∀ s w, m.worker? s = some w → w.control.quota ≤ w.control.completed) ∧
      (∀ s c, m.firstBusy? = some (s, c) →
        ∃ n, m.steps work (.invoke t .reset :: List.replicate n (.call t)) =
          some (m.reply t (.error (.workerBusy s c.completed c.quota)))) ∧
      (m.firstBusy? = none →
        ∃ n, m.steps work (.invoke t .reset :: List.replicate n (.call t)) =
          some (m.cleared.reply t (.ok .done))) ∧
      ∃ n, (m.cleared.reply t (.ok .done)).steps work
          (.invoke t .reset :: List.replicate n (.call t)) =
        some (m.cleared.reply t (.ok .done))) ∧
    ((m.caller t).call = .idle → m.launched = false →
      m.step work (.invoke t .reset) = some (m.reply t (.ok .done))) := by
  refine ⟨?_, ?_, ?_, ?_, ?_⟩
  · intro expected actual unit err m' hfails hs
    simp only [Machine.step, hfails] at hs
    split at hs
    · exact (Option.some.inj hs).symm
    · cases hs
  · intro err m' hfails hs
    simp only [Machine.step, hfails] at hs
    split at hs
    · exact (Option.some.inj hs).symm
    · cases hs
  · intro op h m' err hop hcalls hans hsteady
    have hu := (hcalls.stage hop hsteady id).untouched hans
    exact ⟨hu, hcalls.board_eq hu⟩
  · intro hcall hlaunched hfree hph
    have hidle : m.firstBusy? = none ↔
        ∀ s w, m.worker? s = some w → w.control.quota ≤ w.control.completed := by
      simp [Machine.firstBusy?_eq_none, Machine.IdleAt, Worker.isBusy]
    exact ⟨hidle, fun s c hbusy => Machine.lone_reset_busy hlaunched hcall hfree hph hbusy,
      fun hnone => Machine.lone_reset_done hlaunched hcall hfree hph
        (Machine.firstBusy?_eq_none.mp hnone),
      Machine.lone_reset_again hlaunched hfree⟩
  · intro hcall hlaunched
    simp [Machine.step, Machine.invoke, hcall, hlaunched]

/-- Two writers and a reader between two trials.  The second writer was given three units although
no trial is running, and is inside the second of them. -/
def rearmed : Machine Unit Unit where
  freeze := .everyone
  launched := true
  tally := { Tally.fresh 2 1 with trial := 1 }
  writers := [{ point := .top, unit := () },
    { control := { quota := 3, completed := 1 }, point := .inUnit 1, unit := () }]
  readers := [{ point := .top, unit := () }]
  shared := ()

/-- The reset names the second writer and leaves everybody as it was, and nobody can be registered
or launched. -/
theorem failed_operations_change_nothing_rearmed :
    (∀ m', rearmed.step idleWork (.register .reader .reader ()) = some m' → m' = rearmed) ∧
    (∀ m', rearmed.step idleWork .launch = some m' → m' = rearmed) ∧
    (∃ h m', rearmed.Calls idleWork .controlling .reset h m' ∧
      m'.caller .controlling = ⟨.idle, some (.error (.workerBusy ⟨.writer, 1⟩ 1 3))⟩ ∧
      m'.board = rearmed.board) ∧
    ∃ n, rearmed.steps idleWork (.invoke .controlling .reset ::
        List.replicate n (.call .controlling)) =
      some (rearmed.reply .controlling (.error (.workerBusy ⟨.writer, 1⟩ 1 3))) := by
  obtain ⟨hregister, hlaunch, hcalls, hreset, -⟩ :=
    failed_operations_change_nothing idleWork rearmed .controlling
  refine ⟨fun m' => hregister .reader .reader () _ m' rfl, fun m' => hlaunch _ m' rfl, ?_, ?_⟩
  · -- the lock, two accesses to each writer, and the lock again
    have hbegin : rearmed.Calls idleWork .controlling .reset _ _ := .begin rfl
    have hsix : ∀ e ∈ List.replicate 6 (.call .controlling : Machine.Event Unit),
        e.During .controlling := fun e he => .inl (List.eq_of_mem_replicate he)
    obtain ⟨h, m', hcall, hquiet, hans⟩ : ∃ h m', rearmed.Calls idleWork .controlling .reset h m' ∧
        (∀ x ∈ h, x.event.isWorkers = false) ∧
        m'.caller .controlling = ⟨.idle, some (.error (.workerBusy ⟨.writer, 1⟩ 1 3))⟩ :=
      ⟨_, _, hbegin.of_steps hsix rfl, by decide, rfl⟩
    exact ⟨h, m', hcall, hans, (hcalls _ h m' _ (by simp) hcall hans fun _ => .inl hquiet).2 hquiet⟩
  · exact (hreset rfl rfl rfl (by decide)).2.1 ⟨.writer, 1⟩ _ rfl

end SpeedTrial.Trial
