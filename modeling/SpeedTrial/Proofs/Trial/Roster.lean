import SpeedTrial.Trial.Machine
import Mathlib.Data.List.Nodup

/-!
# Workers by slot

What the operations on one worker do to the roster of a machine and to the rest of it.  Every
step of a machine that touches a worker changes it in place, `Machine.onSlot`, and a list of
accesses that an operation has still to perform is looked at slot by slot, `forSlot`.

Main statements: `worker?_onSlot` says what is on the roster after a change in place, `store_eq`
and `moveTo_eq` reduce the operations of the machine to such changes, and `forSlot_forEach` says
what a list of accesses for several slots holds for one of them.
-/

namespace SpeedTrial.Trial

/-! ## Accesses -/

/-- What an access that succeeds leaves of a control block. -/
def Access.write (a : Access) (c : Control) : Control :=
  match a with
  | .setQuota units => { c with quota := units }
  | .setCompleted units => { c with completed := units }
  | .setPending trial => { c with pending := trial }
  | .raiseStop => { c with stopped := true }
  | .readQuota => c
  | .requireIdle => c

/-- The quota that is kept after an access. -/
def Access.keep (a : Access) (kept : Nat) (c : Control) : Nat :=
  match a with
  | .readQuota => c.quota
  | _ => kept

/-- An access fails only if it requires an idle worker and finds a busy one. -/
theorem Access.perform_eq (a : Access) (kept : Nat) (c : Control) :
    a.perform kept c =
      if a = .requireIdle ∧ c.completed < kept then .error ⟨c.completed, kept⟩
      else .ok (a.keep kept c, a.write c) := by
  cases a with
  | requireIdle => by_cases h : c.completed < kept <;> simp [perform, keep, write, h]
  | _ => simp [perform, keep, write]

/-- What a list of accesses holds for one slot. -/
def forSlot (s : Slot) (todo : List (Slot × Access)) : List Access :=
  todo.filterMap fun x => if x.1 = s then some x.2 else none

@[simp] theorem forSlot_nil (s : Slot) : forSlot s [] = [] := rfl

@[simp] theorem forSlot_cons_self (s : Slot) (a : Access) (todo : List (Slot × Access)) :
    forSlot s ((s, a) :: todo) = a :: forSlot s todo := by
  simp [forSlot]

theorem forSlot_cons_of_ne {s t : Slot} (h : t ≠ s) (a : Access)
    (todo : List (Slot × Access)) : forSlot s ((t, a) :: todo) = forSlot s todo := by
  simp [forSlot, h]

@[simp] theorem forSlot_append (s : Slot) (todo rest : List (Slot × Access)) :
    forSlot s (todo ++ rest) = forSlot s todo ++ forSlot s rest :=
  List.filterMap_append

/-- Of the same accesses for each of several slots, each slot finds its own. -/
theorem forSlot_forEach {slots : List Slot} (hnd : slots.Nodup) (s : Slot)
    (accesses : List Access) :
    forSlot s (Machine.forEach slots accesses) = if s ∈ slots then accesses else [] := by
  -- by induction on the slots: the accesses of the first one come before the others
  induction slots with
  | nil => simp [Machine.forEach]
  | cons t rest ih =>
    have hsplit : Machine.forEach (t :: rest) accesses =
        accesses.map (fun a => (t, a)) ++ Machine.forEach rest accesses := by
      simp [Machine.forEach]
    have hown : forSlot s (accesses.map fun a => (t, a)) = if t = s then accesses else [] := by
      by_cases h : t = s <;> simp [forSlot, List.filterMap_map, h]
    rw [hsplit, forSlot_append, hown, ih hnd.tail]
    by_cases h : t = s
    · -- the slot does not come again
      subst h
      simp [(List.nodup_cons.mp hnd).1]
    · simp [h, Ne.symm h]

theorem mem_forEach {slots : List Slot} {accesses : List Access} {x : Slot × Access} :
    x ∈ Machine.forEach slots accesses ↔ x.1 ∈ slots ∧ x.2 ∈ accesses := by
  obtain ⟨s, a⟩ := x
  simp [Machine.forEach]

variable {U S : Type}

/-- Performs an access that succeeds on the control block of a worker. -/
def Worker.write (a : Access) (w : Worker U) : Worker U :=
  { w with control := a.write w.control }

/-- Moves a worker to another point of its loop. -/
def Worker.goTo (p : Point) (w : Worker U) : Worker U := { w with point := p }

@[simp] theorem Worker.write_control (a : Access) (w : Worker U) :
    (w.write a).control = a.write w.control := rfl

@[simp] theorem Worker.write_point (a : Access) (w : Worker U) :
    (w.write a).point = w.point := rfl

@[simp] theorem Worker.goTo_control (p : Point) (w : Worker U) :
    (w.goTo p).control = w.control := rfl

@[simp] theorem Worker.goTo_point (p : Point) (w : Worker U) : (w.goTo p).point = p := rfl

namespace Machine

/-! ## Changes in place -/

/-- The machine with the worker in a slot changed in place; nothing changes without one. -/
def onSlot (m : Machine U S) (s : Slot) (f : Worker U → Worker U) : Machine U S :=
  match s.role with
  | .writer => { m with writers := m.writers.modify s.index f }
  | .reader => { m with readers := m.readers.modify s.index f }

section onSlot

variable (m : Machine U S) (s : Slot) (f : Worker U → Worker U)

@[simp] theorem worker?_onSlot (t : Slot) :
    (m.onSlot s f).worker? t = (m.worker? t).map fun w => if t = s then f w else w := by
  obtain ⟨rs, i⟩ := s
  obtain ⟨rt, j⟩ := t
  cases rs <;> cases rt <;>
    simp [onSlot, worker?, workers, List.getElem?_modify, eq_comm (a := i)]

@[simp] theorem length_workers_onSlot (r : Role) :
    ((m.onSlot s f).workers r).length = (m.workers r).length := by
  obtain ⟨rs, i⟩ := s
  cases rs <;> cases r <;> simp [onSlot, workers]

@[simp] theorem length_writers_onSlot : (m.onSlot s f).writers.length = m.writers.length :=
  length_workers_onSlot m s f .writer

@[simp] theorem length_readers_onSlot : (m.onSlot s f).readers.length = m.readers.length :=
  length_workers_onSlot m s f .reader

@[simp] theorem slots_onSlot : (m.onSlot s f).slots = m.slots := by
  simp only [slots, writerSlots, readerSlots, length_writers_onSlot, length_readers_onSlot]

@[simp] theorem writers_onSlot_eq_nil : (m.onSlot s f).writers = [] ↔ m.writers = [] := by
  rw [← List.length_eq_zero_iff, length_writers_onSlot, List.length_eq_zero_iff]

@[simp] theorem tally_onSlot : (m.onSlot s f).tally = m.tally := by
  unfold onSlot; split <;> rfl

@[simp] theorem lock_onSlot : (m.onSlot s f).lock = m.lock := by
  unfold onSlot; split <;> rfl

@[simp] theorem launched_onSlot : (m.onSlot s f).launched = m.launched := by
  unfold onSlot; split <;> rfl

@[simp] theorem freeze_onSlot : (m.onSlot s f).freeze = m.freeze := by
  unfold onSlot; split <;> rfl

@[simp] theorem stopped_onSlot : (m.onSlot s f).stopped = m.stopped := by
  unfold onSlot; split <;> rfl

@[simp] theorem clock_onSlot : (m.onSlot s f).clock = m.clock := by
  unfold onSlot; split <;> rfl

@[simp] theorem caller_onSlot (t : Thread) : (m.onSlot s f).caller t = m.caller t := by
  unfold onSlot; split <;> rfl

end onSlot

/-- Only what a change does to the element that is there matters. -/
theorem modify_congr {α : Type} {l : List α} {i : Nat} {f g : α → α}
    (h : ∀ a, l[i]? = some a → f a = g a) : l.modify i f = l.modify i g := by
  apply List.ext_getElem?
  intro j
  rw [List.getElem?_modify, List.getElem?_modify]
  apply Option.map_congr
  intro a ha
  by_cases hij : i = j
  · subst hij
    simpa using h a ha
  · simp [hij]

theorem onSlot_congr {m : Machine U S} {s : Slot} {f g : Worker U → Worker U}
    (h : ∀ w, m.worker? s = some w → f w = g w) : m.onSlot s f = m.onSlot s g := by
  unfold onSlot
  obtain ⟨r, i⟩ := s
  cases r with
  | writer =>
    have hlist : m.writers.modify i f = m.writers.modify i g := modify_congr h
    simp only [hlist]
  | reader =>
    have hlist : m.readers.modify i f = m.readers.modify i g := modify_congr h
    simp only [hlist]

theorem onSlot_id (m : Machine U S) (s : Slot) : m.onSlot s id = m := by
  obtain ⟨r, i⟩ := s
  cases r <;> simp [onSlot]

theorem setWorker_eq_onSlot (m : Machine U S) (s : Slot) (w : Worker U) :
    m.setWorker s w = m.onSlot s fun _ => w := by
  obtain ⟨r, i⟩ := s
  cases r <;> simp [setWorker, onSlot, List.set_eq_modify]

/-- An access that does not fail is a change in place. -/
theorem access_eq (m : Machine U S) (kept : Nat) (s : Slot) (a : Access) :
    m.access kept s a =
      match m.worker? s with
      | none => .ok (kept, m)
      | some w =>
        if a = .requireIdle ∧ w.control.completed < kept then .error ⟨w.control.completed, kept⟩
        else .ok (a.keep kept w.control, m.onSlot s (Worker.write a)) := by
  unfold access
  cases hw : m.worker? s with
  | none => rfl
  | some w =>
    simp only [Access.perform_eq]
    by_cases hbusy : a = .requireIdle ∧ w.control.completed < kept
    · simp only [hbusy, and_self, if_true]
    · simp only [hbusy, if_false]
      rw [setWorker_eq_onSlot]
      congr 2
      -- the worker that is put back is the one that was there
      apply onSlot_congr
      intro w' hw'
      cases hw.symm.trans hw'
      rfl

/-- The accesses of a stop, of a freeze and of a start never fail. -/
theorem store_eq (m : Machine U S) (s : Slot) (a : Access) :
    m.store s a = m.onSlot s (Worker.write a) := by
  unfold store
  rw [access_eq]
  cases hw : m.worker? s with
  | none =>
    rw [onSlot_congr (g := id) (by simp [hw]), onSlot_id]
  | some w => simp

theorem moveTo_eq (m : Machine U S) (s : Slot) (p : Point) :
    m.moveTo s p = m.onSlot s (Worker.goTo p) := by
  unfold moveTo
  cases hw : m.worker? s with
  | none =>
    rw [onSlot_congr (g := id) (by simp [hw]), onSlot_id]
  | some w =>
    simp only
    rw [setWorker_eq_onSlot]
    apply onSlot_congr
    intro w' hw'
    cases hw.symm.trans hw'
    rfl

/-! ## Changes of the roster -/

/-- A coordinator that has just been made: no workers, nothing launched, no operation. -/
def empty (freeze : FreezeScope) (shared : S) : Machine U S :=
  { freeze := freeze, shared := shared }

@[simp] theorem worker?_empty (freeze : FreezeScope) (shared : S) (s : Slot) :
    (empty freeze shared : Machine U S).worker? s = none := by
  obtain ⟨r, i⟩ := s
  cases r <;> simp [empty, worker?, workers]

/-- The machine with one more worker of a role. -/
def enrol (m : Machine U S) (r : Role) (unit : U) : Machine U S :=
  match r with
  | .writer => { m with writers := m.writers ++ [{ unit := unit }] }
  | .reader => { m with readers := m.readers ++ [{ unit := unit }] }

/-- The machine with every worker moved to another point. -/
def sendAll (m : Machine U S) (p : Point) : Machine U S :=
  { m with
    writers := m.writers.map (Worker.goTo p)
    readers := m.readers.map (Worker.goTo p) }

section roster

variable (m : Machine U S) (r : Role) (unit : U) (p : Point)

@[simp] theorem workers_enrol (r' : Role) :
    (m.enrol r unit).workers r' =
      if r' = r then m.workers r ++ [{ unit := unit }] else m.workers r' := by
  cases r <;> cases r' <;> rfl

@[simp] theorem tally_enrol : (m.enrol r unit).tally = m.tally := by cases r <;> rfl

@[simp] theorem lock_enrol : (m.enrol r unit).lock = m.lock := by cases r <;> rfl

@[simp] theorem launched_enrol : (m.enrol r unit).launched = m.launched := by cases r <;> rfl

@[simp] theorem freeze_enrol : (m.enrol r unit).freeze = m.freeze := by cases r <;> rfl

@[simp] theorem stopped_enrol : (m.enrol r unit).stopped = m.stopped := by cases r <;> rfl

@[simp] theorem caller_enrol (t : Thread) : (m.enrol r unit).caller t = m.caller t := by
  cases r <;> rfl

/-- Whoever is on the roster with one more worker was there before, or has just come. -/
theorem worker?_enrol {s : Slot} {w : Worker U} (h : (m.enrol r unit).worker? s = some w) :
    m.worker? s = some w ∨ m.worker? s = none ∧ w = { unit := unit } := by
  simp only [worker?, workers_enrol] at h ⊢
  -- the new worker comes after those of its role, which keep their slots
  by_cases hr : s.role = r
  · subst hr
    rw [if_pos rfl] at h
    by_cases hlt : s.index < (m.workers s.role).length
    · exact .inl (by rwa [List.getElem?_append_left hlt] at h)
    · have hge := Nat.le_of_not_lt hlt
      rw [List.getElem?_append_right hge, List.getElem?_singleton] at h
      refine .inr ⟨List.getElem?_eq_none hge, ?_⟩
      split at h
      · exact (Option.some.inj h).symm
      · cases h
  · rw [if_neg hr] at h
    exact .inl h

/-- Nobody loses its slot. -/
theorem worker?_enrol_of_some {s : Slot} {w : Worker U} (h : m.worker? s = some w) :
    (m.enrol r unit).worker? s = some w := by
  simp only [worker?, workers_enrol] at h ⊢
  split
  · next hr =>
    subst hr
    exact List.getElem?_append_left (List.getElem?_eq_some_iff.mp h).1 ▸ h
  · exact h

@[simp] theorem worker?_sendAll (s : Slot) :
    (m.sendAll p).worker? s = (m.worker? s).map (Worker.goTo p) := by
  obtain ⟨r, i⟩ := s
  cases r <;> simp [sendAll, worker?, workers]

@[simp] theorem lock_sendAll : (m.sendAll p).lock = m.lock := rfl

@[simp] theorem freeze_sendAll : (m.sendAll p).freeze = m.freeze := rfl

@[simp] theorem stopped_sendAll : (m.sendAll p).stopped = m.stopped := rfl

@[simp] theorem caller_sendAll (t : Thread) : (m.sendAll p).caller t = m.caller t := by
  cases t <;> rfl

end roster

/-! ## The rest of a machine -/

section setCaller

variable (m : Machine U S) (t : Thread) (c : Caller)

@[simp] theorem caller_setCaller (t' : Thread) :
    (m.setCaller t c).caller t' = if t' = t then c else m.caller t' := by
  cases t <;> cases t' <;> rfl

@[simp] theorem setCaller_setCaller (c' : Caller) :
    (m.setCaller t c).setCaller t c' = m.setCaller t c' := by
  cases t <;> rfl

@[simp] theorem slots_setCaller : (m.setCaller t c).slots = m.slots := by
  cases t <;> rfl

@[simp] theorem worker?_setCaller (s : Slot) : (m.setCaller t c).worker? s = m.worker? s := by
  cases t <;> rfl

@[simp] theorem workers_setCaller (r : Role) : (m.setCaller t c).workers r = m.workers r := by
  cases t <;> rfl

@[simp] theorem writers_setCaller : (m.setCaller t c).writers = m.writers := by
  cases t <;> rfl

@[simp] theorem readers_setCaller : (m.setCaller t c).readers = m.readers := by
  cases t <;> rfl

@[simp] theorem tally_setCaller : (m.setCaller t c).tally = m.tally := by
  cases t <;> rfl

@[simp] theorem lock_setCaller : (m.setCaller t c).lock = m.lock := by
  cases t <;> rfl

@[simp] theorem launched_setCaller : (m.setCaller t c).launched = m.launched := by
  cases t <;> rfl

@[simp] theorem freeze_setCaller : (m.setCaller t c).freeze = m.freeze := by
  cases t <;> rfl

@[simp] theorem stopped_setCaller : (m.setCaller t c).stopped = m.stopped := by
  cases t <;> rfl

end setCaller

section fields

variable (m : Machine U S) (fr : FreezeScope) (la st : Bool) (lk : Option Holder) (ta : Tally)
  (co ot : Caller) (cl : Nat) (sh : S)

/-- The worker in a slot depends on the roster alone. -/
@[simp] theorem worker?_mk (s : Slot) :
    (Machine.mk fr la st lk ta m.writers m.readers co ot cl sh).worker? s = m.worker? s := rfl

@[simp] theorem workers_mk (r : Role) :
    (Machine.mk fr la st lk ta m.writers m.readers co ot cl sh).workers r = m.workers r := rfl

@[simp] theorem slots_mk :
    (Machine.mk fr la st lk ta m.writers m.readers co ot cl sh).slots = m.slots := rfl

@[simp] theorem caller_mk (ws rs : List (Worker U)) (t : Thread) :
    (Machine.mk fr la st lk ta ws rs m.controlling m.other cl sh).caller t = m.caller t := rfl

end fields

/-! ## Slots -/

theorem mem_slots_iff (m : Machine U S) (s : Slot) :
    s ∈ m.slots ↔ s.index < (m.workers s.role).length := by
  obtain ⟨r, i⟩ := s
  cases r <;> simp [slots, writerSlots, readerSlots, workers]

theorem mem_slots_of_worker? {m : Machine U S} {s : Slot} {w : Worker U}
    (hw : m.worker? s = some w) : s ∈ m.slots := by
  rw [mem_slots_iff]
  exact (List.getElem?_eq_some_iff.mp hw).1

theorem worker?_of_lt {m : Machine U S} {r : Role} {i : Nat} (hi : i < (m.workers r).length) :
    ∃ w, m.worker? ⟨r, i⟩ = some w :=
  ⟨(m.workers r)[i], List.getElem?_eq_getElem hi⟩

theorem nodup_writerSlots (m : Machine U S) : m.writerSlots.Nodup :=
  List.nodup_range.map fun _ _ h => congrArg Slot.index h

theorem nodup_readerSlots (m : Machine U S) : m.readerSlots.Nodup :=
  List.nodup_range.map fun _ _ h => congrArg Slot.index h

theorem nodup_slots (m : Machine U S) : m.slots.Nodup := by
  refine List.Nodup.append m.nodup_writerSlots m.nodup_readerSlots ?_
  intro s hw hr
  -- no slot is that of a writer and of a reader
  simp only [writerSlots, readerSlots, List.mem_map] at hw hr
  obtain ⟨i, -, rfl⟩ := hw
  obtain ⟨j, -, h⟩ := hr
  cases h

end Machine

end SpeedTrial.Trial
