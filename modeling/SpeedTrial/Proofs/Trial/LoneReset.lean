import SpeedTrial.Proofs.Trial.Calls

/-!
# A reset that runs alone

A reset on which nobody acts while it runs is a function of the machine, whatever the machine is
like.  It goes through the roster twice.  In the first round it only compares, and gives up at the
first worker that has units left; in the second it takes everything back.

* `advances_checks` and `advances_check_busy` are the first round, `advances_clears` is the second.
* `lone_reset_busy` and `lone_reset_done` are the whole reset.
-/

namespace SpeedTrial.Trial

variable {U S : Type}

/-! ## Busy workers -/

/-- A worker that has units left. -/
def Worker.isBusy (w : Worker U) : Bool := decide (w.control.completed < w.control.quota)

/-- A worker that is taken back: nothing to do, nothing done and nothing due.  Whether it is stopped
stays. -/
def Worker.cleared (w : Worker U) : Worker U :=
  { w with control := { stopped := w.control.stopped } }

namespace Machine

/-- The first worker of the roster that has units left, with its block. -/
def firstBusy? (m : Machine U S) : Option (Slot × Control) :=
  m.slots.findSome? fun s =>
    ((m.worker? s).filter Worker.isBusy).map fun w => (s, w.control)

/-- The machine with all workers and the tally taken back. -/
def cleared (m : Machine U S) : Machine U S :=
  { m with
    tally := m.tally.reset
    writers := m.writers.map Worker.cleared
    readers := m.readers.map Worker.cleared }

/-- No worker in a slot has units left. -/
def IdleAt (m : Machine U S) (s : Slot) : Prop :=
  ∀ w, m.worker? s = some w → w.isBusy = false

variable {work : U → S → U × S} {m m' : Machine U S} {t : Thread} {s : Slot} {w : Worker U}

theorem firstBusy?_eq_none : m.firstBusy? = none ↔ ∀ s, m.IdleAt s := by
  simp only [firstBusy?, List.findSome?_eq_none_iff, Option.map_eq_none_iff,
    Option.filter_eq_none_iff, Bool.not_eq_true]
  refine ⟨fun h s w hw => h s (mem_slots_of_worker? hw) w hw, fun h s _ w hw => h s w hw⟩

/-- Everybody before the first busy worker is idle. -/
theorem firstBusy?_eq_some {c : Control} :
    m.firstBusy? = some (s, c) ↔ ∃ before after w, m.slots = before ++ s :: after ∧
      (∀ s' ∈ before, m.IdleAt s') ∧ m.worker? s = some w ∧ w.isBusy = true ∧ w.control = c := by
  simp only [firstBusy?, List.findSome?_eq_some_iff, Option.map_eq_none_iff,
    Option.filter_eq_none_iff, Bool.not_eq_true, Option.map_eq_some_iff, Option.filter_eq_some_iff,
    Prod.mk.injEq]
  constructor
  · rintro ⟨before, s', after, hslots, ⟨w, ⟨hw, hbusy⟩, rfl, rfl⟩, hbefore⟩
    exact ⟨before, after, w, hslots, fun s' hs' w' hw' => hbefore s' hs' w' hw', hw, hbusy, rfl⟩
  · rintro ⟨before, after, w, hslots, hbefore, hw, hbusy, rfl⟩
    exact ⟨before, s, after, hslots, ⟨w, ⟨hw, hbusy⟩, rfl, rfl⟩, fun s' hs' w' hw' =>
      hbefore s' hs' w' hw'⟩

/-! ## All slots -/

/-- A change in place in all slots of a list. -/
def onSlots (m : Machine U S) (slots : List Slot) (f : Worker U → Worker U) : Machine U S :=
  slots.foldl (fun m s => m.onSlot s f) m

theorem getElem?_foldl_modify {α : Type} (f : α → α) (l : List α) (n j : Nat) :
    ((List.range n).foldl (fun l i => l.modify i f) l)[j]? =
      l[j]?.map fun a => if j < n then f a else a := by
  induction n with
  | zero => simp
  | succ n ih =>
    rw [List.range_succ, List.foldl_append, List.foldl_cons, List.foldl_nil, List.getElem?_modify,
      ih, Option.map_eq_map, Option.map_map]
    apply Option.map_congr
    intro a _
    by_cases hj : n = j
    · simp [hj]
    · have hiff : j < n + 1 ↔ j < n := by omega
      simp [hj, hiff]

theorem foldl_modify_length {α : Type} (f : α → α) (l : List α) :
    (List.range l.length).foldl (fun l i => l.modify i f) l = l.map f := by
  apply List.ext_getElem?
  intro j
  rw [getElem?_foldl_modify, List.getElem?_map]
  apply Option.map_congr
  intro a ha
  simp [(List.getElem?_eq_some_iff.mp ha).1]

/-- A change in all slots is a change of all workers. -/
theorem onSlots_slots (m : Machine U S) (f : Worker U → Worker U) :
    m.onSlots m.slots f = { m with writers := m.writers.map f, readers := m.readers.map f } := by
  have hwriters : ∀ (is : List Nat) (m : Machine U S),
      m.onSlots (is.map fun i => ⟨.writer, i⟩) f =
        { m with writers := is.foldl (fun l i => l.modify i f) m.writers } := by
    intro is
    induction is with
    | nil => exact fun m => rfl
    | cons i is ih => exact fun m => ih (m.onSlot ⟨.writer, i⟩ f)
  have hreaders : ∀ (is : List Nat) (m : Machine U S),
      m.onSlots (is.map fun i => ⟨.reader, i⟩) f =
        { m with readers := is.foldl (fun l i => l.modify i f) m.readers } := by
    intro is
    induction is with
    | nil => exact fun m => rfl
    | cons i is ih => exact fun m => ih (m.onSlot ⟨.reader, i⟩ f)
  have hsplit : m.onSlots m.slots f = (m.onSlots m.writerSlots f).onSlots m.readerSlots f :=
    List.foldl_append
  rw [hsplit, writerSlots, readerSlots, hwriters, hreaders, foldl_modify_length,
    foldl_modify_length]

/-! ## One access -/

theorem onSlot_goOn (m : Machine U S) (t : Thread) (c : Call) (s : Slot)
    (f : Worker U → Worker U) : (m.goOn t c).onSlot s f = (m.onSlot s f).goOn t c := by
  obtain ⟨r, i⟩ := s
  cases r <;> cases t <;> rfl

theorem goOn_goOn (m : Machine U S) (t : Thread) (c c' : Call) :
    (m.goOn t c).goOn t c' = m.goOn t c' := by
  cases t <;> rfl

/-- The quota that is kept after an access to a slot. -/
def keptAfter (m : Machine U S) (kept : Nat) (s : Slot) (a : Access) : Nat :=
  match m.worker? s with
  | none => kept
  | some w => a.keep kept w.control

/-- A reset takes its next access, unless that finds a busy worker. -/
theorem step_access {kept : Nat} {a : Access} {todo : List (Slot × Access)}
    (hcall : (m.caller t).call = .resetting kept ((s, a) :: todo))
    (hidle : a = .requireIdle → ∀ w, m.worker? s = some w → kept ≤ w.control.completed) :
    m.step work (.call t) =
      some ((m.onSlot s (Worker.write a)).goOn t (.resetting (m.keptAfter kept s a) todo)) := by
  simp only [step, stepCall, hcall, access_eq]
  cases hw : m.worker? s with
  | none =>
    have hsame : m.onSlot s (Worker.write a) = m := by
      rw [onSlot_congr (g := id) (by simp [hw]), onSlot_id]
    simp only [keptAfter, hw, hsame]
  | some w =>
    have hnot : ¬ (a = .requireIdle ∧ w.control.completed < kept) := fun h =>
      Nat.not_lt.mpr (hidle h.1 w hw) h.2
    simp only [keptAfter, hw, hnot, if_false]

/-- At a busy worker it gives up. -/
theorem step_access_busy {kept : Nat} {todo : List (Slot × Access)}
    (hcall : (m.caller t).call = .resetting kept ((s, .requireIdle) :: todo))
    (hw : m.worker? s = some w) (hlt : w.control.completed < kept) :
    m.step work (.call t) =
      some (m.goOn t (.releasing (.error (.workerBusy s w.control.completed kept)))) := by
  simp only [step, stepCall, hcall, access_eq, hw, hlt, and_self, if_true]

/-- The same for a reset that has just come to this access. -/
theorem step_goOn_access {kept : Nat} {a : Access} {todo : List (Slot × Access)}
    (hidle : a = .requireIdle → ∀ w, m.worker? s = some w → kept ≤ w.control.completed) :
    (m.goOn t (.resetting kept ((s, a) :: todo))).step work (.call t) =
      some ((m.onSlot s (Worker.write a)).goOn t (.resetting (m.keptAfter kept s a) todo)) := by
  have hworker : (m.goOn t (.resetting kept ((s, a) :: todo))).worker? s = m.worker? s := by
    simp [goOn]
  rw [step_access (by rw [caller_goOn]) (by rwa [hworker]), onSlot_goOn, goOn_goOn, keptAfter,
    hworker, keptAfter]

/-- A reading changes nothing. -/
theorem onSlot_write_reading {a : Access} (ha : a = .readQuota ∨ a = .requireIdle)
    (m : Machine U S) (s : Slot) : m.onSlot s (Worker.write a) = m := by
  have hid : (Worker.write a : Worker U → Worker U) = id := by
    rcases ha with rfl | rfl <;> rfl
  rw [hid, onSlot_id]

theorem step_readQuota (kept : Nat) (todo : List (Slot × Access)) :
    (m.goOn t (.resetting kept ((s, .readQuota) :: todo))).step work (.call t) =
      some (m.goOn t (.resetting (m.keptAfter kept s .readQuota) todo)) := by
  have hnot : Access.readQuota ≠ .requireIdle := Access.noConfusion
  rw [step_goOn_access fun ha => absurd ha hnot, onSlot_write_reading (.inl rfl)]

theorem step_requireIdle {kept : Nat} {todo : List (Slot × Access)}
    (hidle : ∀ w, m.worker? s = some w → kept ≤ w.control.completed) :
    (m.goOn t (.resetting kept ((s, .requireIdle) :: todo))).step work (.call t) =
      some (m.goOn t (.resetting (m.keptAfter kept s .requireIdle) todo)) := by
  rw [step_goOn_access fun _ => hidle, onSlot_write_reading (.inr rfl)]

theorem step_requireIdle_busy {kept : Nat} {todo : List (Slot × Access)}
    (hw : m.worker? s = some w) (hlt : w.control.completed < kept) :
    (m.goOn t (.resetting kept ((s, .requireIdle) :: todo))).step work (.call t) =
      some (m.goOn t (.releasing (.error (.workerBusy s w.control.completed kept)))) := by
  rw [step_access_busy (by rw [caller_goOn]) (by simpa [goOn] using hw) hlt, goOn_goOn]

/-! ## One block -/

theorem forEach_cons (s : Slot) (slots : List Slot) (accesses : List Access) :
    forEach (s :: slots) accesses = accesses.map (fun a => (s, a)) ++ forEach slots accesses := by
  simp [forEach]

theorem forEach_append (slots slots' : List Slot) (accesses : List Access) :
    forEach (slots ++ slots') accesses = forEach slots accesses ++ forEach slots' accesses := by
  simp [forEach]

/-- The quota that is read is the one that the units performed are compared with. -/
theorem le_of_keptAfter (hidle : m.IdleAt s) (kept : Nat) :
    ∀ w, m.worker? s = some w → m.keptAfter kept s .readQuota ≤ w.control.completed := by
  intro w hw
  have hnot := hidle w hw
  simp only [Worker.isBusy, decide_eq_false_iff_not, Nat.not_lt] at hnot
  simpa [keptAfter, hw, Access.keep] using hnot

section rounds

variable {todo : List (Slot × Access)} {slots : List Slot}

/-- An idle worker passes the check, which changes nothing. -/
theorem advances_check (hidle : m.IdleAt s) (kept : Nat)
    (hrest : ∀ kept, Advances work t (m.goOn t (.resetting kept todo)) m') :
    Advances work t
      (m.goOn t (.resetting kept (Control.checkingIdle.map (fun a => (s, a)) ++ todo))) m' := by
  refine .step (step_readQuota kept ((s, .requireIdle) :: todo)) ?_
  exact .step (step_requireIdle (le_of_keptAfter hidle kept)) (hrest _)

/-- A busy worker does not. -/
theorem advances_check_busy (hw : m.worker? s = some w) (hbusy : w.isBusy = true) (kept : Nat) :
    Advances work t
      (m.goOn t (.resetting kept (Control.checkingIdle.map (fun a => (s, a)) ++ todo)))
      (m.goOn t (.releasing (.error (.workerBusy s w.control.completed w.control.quota)))) := by
  have hkept : m.keptAfter kept s .readQuota = w.control.quota := by
    simp [keptAfter, hw, Access.keep]
  refine .step (step_readQuota kept ((s, .requireIdle) :: todo)) ?_
  rw [hkept]
  exact .step (step_requireIdle_busy hw (by simpa [Worker.isBusy] using hbusy)) (.refl _)

/-- An idle worker is taken back. -/
theorem advances_clear (hidle : m.IdleAt s) (kept : Nat)
    (hrest : ∀ kept,
      Advances work t ((m.onSlot s Worker.cleared).goOn t (.resetting kept todo)) m') :
    Advances work t
      (m.goOn t (.resetting kept (Control.resetting.map (fun a => (s, a)) ++ todo))) m' := by
  have hclear : ((m.onSlot s (Worker.write (.setQuota 0))).onSlot s
      (Worker.write (.setCompleted 0))).onSlot s (Worker.write (.setPending 0)) =
        m.onSlot s Worker.cleared := by
    obtain ⟨r, i⟩ := s
    cases r <;> simp [onSlot, List.modify_modify_eq] <;> rfl
  have hstores : ∀ kept, Advances work t (m.goOn t (.resetting kept
      ((s, .setQuota 0) :: (s, .setCompleted 0) :: (s, .setPending 0) :: todo))) m' := by
    intro kept
    refine .step (step_goOn_access Access.noConfusion) ?_
    refine .step (step_goOn_access Access.noConfusion) ?_
    refine .step (step_goOn_access Access.noConfusion) ?_
    rw [hclear]
    exact hrest _
  exact advances_check hidle kept hstores

/-! ## Both rounds -/

/-- In the first round a reset passes over idle workers. -/
theorem advances_checks (hidle : ∀ s ∈ slots, m.IdleAt s) (kept : Nat)
    (hrest : ∀ kept, Advances work t (m.goOn t (.resetting kept todo)) m') :
    Advances work t
      (m.goOn t (.resetting kept (forEach slots Control.checkingIdle ++ todo))) m' := by
  -- by induction on the slots that are left
  induction slots generalizing kept with
  | nil => exact hrest kept
  | cons s slots ih =>
    rw [forEach_cons, List.append_assoc]
    exact advances_check (hidle s (List.mem_cons_self ..)) kept
      (ih fun s' hs' => hidle s' (List.mem_cons_of_mem _ hs'))

/-- In the second round it takes idle workers back. -/
theorem advances_clears (hidle : ∀ s, m.IdleAt s) (kept : Nat)
    (hrest : ∀ kept, Advances work t ((m.onSlots slots Worker.cleared).goOn t (.resetting kept []))
      m') :
    Advances work t (m.goOn t (.resetting kept (forEach slots Control.resetting))) m' := by
  -- by induction on the slots that are left, for every machine that has idle workers only
  induction slots generalizing m kept with
  | nil => exact hrest kept
  | cons s slots ih =>
    rw [forEach_cons]
    refine advances_clear (hidle s) kept fun kept => ih ?_ kept hrest
    intro s' w' hw'
    rw [worker?_onSlot] at hw'
    obtain ⟨w, hw, rfl⟩ := Option.map_eq_some_iff.mp hw'
    split
    · rfl
    · exact hidle s' w hw

end rounds

/-! ## The whole reset -/

section whole

variable {c : Control}

/-- Once the lock is given back the answer is all that is left. -/
theorem unlock_goOn (hfree : m.lock = none) (holder : Option Holder) (c : Call)
    (a : Except TrialError Answer) :
    ({ m with lock := holder }.goOn t c).unlock t a = m.reply t a := by
  obtain ⟨⟩ := m
  cases hfree
  cases t <;> rfl

/-- A reset that gets the lock begins its first round, unless a trial is running. -/
theorem step_resetAtLock (hcall : (m.caller t).call = .resetAtLock) (hfree : m.lock = none) :
    m.step work (.call t) = some ({ m with lock := some (.caller t) }.goOn t
      (if m.tally.phase = Phase.running then .releasing (.error (.inFlight m.tally.trial))
        else .resetting 0 m.resetScript)) := by
  simp only [step, stepCall, hcall, takeLock, hfree, Option.map_some, startReset, resetScript]
  by_cases hph : m.tally.phase = .running <;> cases t <;> simp [goOn, setCaller, slots,
    writerSlots, readerSlots, hph]

/-- Two steps after it is called a reset has the lock and is about to look at the first worker. -/
theorem advances_reset (hlaunched : m.launched = true) (hcall : (m.caller t).call = .idle)
    (hfree : m.lock = none) (hph : m.tally.phase ≠ .running)
    (hrest : Advances work t
      ({ m with lock := some (.caller t) }.goOn t (.resetting 0 m.resetScript)) m') :
    ∃ n, m.steps work (.invoke t .reset :: List.replicate n (.call t)) = some m' := by
  have hinvoke : m.step work (.invoke t .reset) = some (m.goOn t .resetAtLock) := by
    simp [step, invoke, hcall, hlaunched]
  have hstart : (m.goOn t .resetAtLock).step work (.call t) =
      some ({ m with lock := some (.caller t) }.goOn t (.resetting 0 m.resetScript)) := by
    rw [step_resetAtLock (by rw [caller_goOn]) (by simpa [goOn] using hfree),
      if_neg (by simpa [goOn] using hph)]
    cases t <;> rfl
  obtain ⟨n, hn⟩ := Advances.step hstart hrest
  exact ⟨n, by rw [steps_cons hinvoke, hn]⟩

/-- A reset gives up at the first busy worker, and nothing has changed. -/
theorem lone_reset_busy (hlaunched : m.launched = true) (hcall : (m.caller t).call = .idle)
    (hfree : m.lock = none) (hph : m.tally.phase ≠ .running) (hbusy : m.firstBusy? = some (s, c)) :
    ∃ n, m.steps work (.invoke t .reset :: List.replicate n (.call t)) =
      some (m.reply t (.error (.workerBusy s c.completed c.quota))) := by
  obtain ⟨before, after, w, hslots, hbefore, hw, hunits, rfl⟩ := firstBusy?_eq_some.mp hbusy
  have hback : ∀ a, (({ m with lock := some (.caller t) }.goOn t (.releasing a)).step work
      (.call t)) = some (m.reply t a) := by
    intro a
    simp only [step, stepCall, caller_goOn, unlock_goOn hfree]
  refine advances_reset hlaunched hcall hfree hph ?_
  -- the idle workers before it, then the busy one, and the lock is given back
  rw [resetScript, hslots, forEach_append, List.append_assoc, forEach_cons, List.append_assoc]
  refine advances_checks (m := { m with lock := some (.caller t) }) hbefore 0 fun kept => ?_
  exact (advances_check_busy (m := { m with lock := some (.caller t) }) hw hunits kept).trans
    (.step (hback _) (.refl _))

/-- A reset that finds nobody busy takes everything back. -/
theorem lone_reset_done (hlaunched : m.launched = true) (hcall : (m.caller t).call = .idle)
    (hfree : m.lock = none) (hph : m.tally.phase ≠ .running) (hidle : ∀ s, m.IdleAt s) :
    ∃ n, m.steps work (.invoke t .reset :: List.replicate n (.call t)) =
      some (m.cleared.reply t (.ok .done)) := by
  have hback : ∀ kept, ({ m.cleared with tally := m.tally, lock := some (.caller t) }.goOn t
      (.resetting kept [])).step work (.call t) = some (m.cleared.reply t (.ok .done)) := by
    intro kept
    have hfree' : m.cleared.lock = none := hfree
    rw [← unlock_goOn hfree' (some (.caller t)) (.resetting kept [])]
    cases t <;> rfl
  have hslots : { m with lock := some (.caller t) }.onSlots m.slots Worker.cleared =
      { m.cleared with tally := m.tally, lock := some (.caller t) } :=
    onSlots_slots { m with lock := some (.caller t) } Worker.cleared
  refine advances_reset hlaunched hcall hfree hph ?_
  refine advances_checks (m := { m with lock := some (.caller t) }) (fun s _ => hidle s) 0
    fun kept => ?_
  refine advances_clears (m := { m with lock := some (.caller t) }) hidle kept fun kept => ?_
  rw [hslots]
  exact .step (hback kept) (.refl _)

@[simp] theorem worker?_cleared (m : Machine U S) (s : Slot) :
    m.cleared.worker? s = (m.worker? s).map Worker.cleared := by
  obtain ⟨r, i⟩ := s
  cases r <;> simp [cleared, worker?, workers]

/-- A machine that is taken back has idle workers only. -/
theorem idleAt_cleared (m : Machine U S) (s : Slot) : m.cleared.IdleAt s := by
  intro w hw
  rw [worker?_cleared] at hw
  obtain ⟨w, -, rfl⟩ := Option.map_eq_some_iff.mp hw
  rfl

theorem cleared_cleared (m : Machine U S) : m.cleared.cleared = m.cleared := by
  have hworker : (Worker.cleared ∘ Worker.cleared : Worker U → Worker U) = Worker.cleared := rfl
  simp [cleared, hworker, Tally.reset, Tally.cleared]

theorem cleared_reply (m : Machine U S) (t : Thread) (a : Except TrialError Answer) :
    (m.reply t a).cleared = m.cleared.reply t a := by
  cases t <;> rfl

theorem reply_reply (m : Machine U S) (t : Thread) (a a' : Except TrialError Answer) :
    (m.reply t a).reply t a' = m.reply t a' := by
  cases t <;> rfl

/-- Another reset finds nothing to do. -/
theorem lone_reset_again (hlaunched : m.launched = true) (hfree : m.lock = none) :
    ∃ n, (m.cleared.reply t (.ok .done)).steps work
        (.invoke t .reset :: List.replicate n (.call t)) =
      some (m.cleared.reply t (.ok .done)) := by
  have hidle : ∀ s, (m.cleared.reply t (.ok .done)).IdleAt s := by
    intro s w hw
    exact m.idleAt_cleared s w (by simpa [reply] using hw)
  have hsame : (m.cleared.reply t (.ok .done)).cleared.reply t (.ok .done) =
      m.cleared.reply t (.ok .done) := by
    rw [cleared_reply, cleared_cleared, reply_reply]
  have hagain := @lone_reset_done _ _ work _ t (by simpa [reply, cleared] using hlaunched)
    (by rw [caller_reply]) (by simpa [reply, cleared] using hfree) (by simp [reply, cleared]) hidle
  rwa [hsame] at hagain

end whole

end Machine

end SpeedTrial.Trial
