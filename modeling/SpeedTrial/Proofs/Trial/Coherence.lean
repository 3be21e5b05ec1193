import SpeedTrial.Proofs.Trial.Counting
import SpeedTrial.Proofs.Trial.Move

/-!
# A coherent machine

What the parts of a machine have in common: the lock has one holder, and that is who stands at a
point that needs it; the flags of the tally are those of the roster, and as many workers are
counted as are marked, but for one that holds the lock; a worker that freezes others does so to
those that it is meant to freeze.

Main statement: `Coherent.move`, every move keeps a machine coherent.
-/

namespace SpeedTrial.Trial

namespace Machine

variable {U S : Type}

/-! ## Points by slot -/

/-- Where the worker in a slot stands. -/
def point? (m : Machine U S) (s : Slot) : Option Point := (m.worker? s).map Worker.point

section point

variable (m : Machine U S) (s t : Slot)

theorem point?_of_worker? {m : Machine U S} {s : Slot} {w : Worker U}
    (hw : m.worker? s = some w) : m.point? s = some w.point := by
  simp [point?, hw]

theorem point?_onSlot {f : Worker U → Worker U} {p : Point} (hf : ∀ w, (f w).point = p) :
    (m.onSlot s f).point? t = (m.point? t).map fun q => if t = s then p else q := by
  simp only [point?, worker?_onSlot, Option.map_map]
  congr 1
  funext w
  by_cases h : t = s <;> simp [h, hf]

@[simp] theorem point?_onSlot_write (a : Access) :
    (m.onSlot s (Worker.write a)).point? t = m.point? t := by
  simp only [point?, worker?_onSlot, Option.map_map]
  congr 1
  funext w
  by_cases h : t = s <;> simp [h]

@[simp] theorem point?_onSlot_goTo (p : Point) :
    (m.onSlot s (Worker.goTo p)).point? t = (m.point? t).map fun q => if t = s then p else q :=
  m.point?_onSlot s t fun _ => rfl

@[simp] theorem point?_onSlot_own (c : Control) (p : Point) :
    (m.onSlot s fun w => { w with control := c, point := p }).point? t =
      (m.point? t).map fun q => if t = s then p else q :=
  m.point?_onSlot s t fun _ => rfl

@[simp] theorem point?_onSlot_finish (u : U) (p : Point) :
    (m.onSlot s fun w => { w with unit := u, point := p }).point? t =
      (m.point? t).map fun q => if t = s then p else q :=
  m.point?_onSlot s t fun _ => rfl

@[simp] theorem point?_setCaller (t : Thread) (c : Caller) :
    (m.setCaller t c).point? s = m.point? s := by
  simp [point?]

@[simp] theorem point?_mk (fr : FreezeScope) (la st : Bool) (lk : Option Holder) (ta : Tally)
    (co ot : Caller) (cl : Nat) (sh : S) :
    (Machine.mk fr la st lk ta m.writers m.readers co ot cl sh).point? s = m.point? s := rfl

@[simp] theorem point?_sendAll (p : Point) :
    (m.sendAll p).point? s = (m.point? s).map fun _ => p := by
  simp only [point?, worker?_sendAll, Option.map_map]
  rfl

/-- A worker that has just come is not started. -/
theorem point?_enrol {r : Role} {unit : U} {p : Point} (h : (m.enrol r unit).point? s = some p) :
    m.point? s = some p ∨ p = .unborn := by
  simp only [point?, Option.map_eq_some_iff] at h ⊢
  obtain ⟨w, hw, rfl⟩ := h
  rcases m.worker?_enrol r unit hw with hw | ⟨-, rfl⟩
  · exact .inl ⟨w, hw, rfl⟩
  · exact .inr rfl

end point

/-- The worker in a slot stands where it holds the lock. -/
def holdsAt (m : Machine U S) (s : Slot) : Bool := (m.point? s).any Point.holds

section holdsAt

variable (m : Machine U S) (s t : Slot)

theorem holdsAt_of_worker? {m : Machine U S} {s : Slot} {w : Worker U}
    (hw : m.worker? s = some w) : m.holdsAt s = w.point.holds := by
  simp [holdsAt, point?_of_worker? hw]

theorem holdsAt_eq_false {m : Machine U S} {s : Slot} {p : Point} (hp : p.holds = false)
    (h : ∀ q, m.point? s = some q → q = p) : m.holdsAt s = false := by
  rw [holdsAt]
  cases hs : m.point? s with
  | none => rfl
  | some q => rw [h q hs, Option.any_some, hp]

/-- A worker that moves is the only one of which this changes. -/
theorem holdsAt_onSlot {f : Worker U → Worker U} {p : Point} (hf : ∀ w, (f w).point = p) :
    (m.onSlot s f).holdsAt t =
      if t = s then (m.worker? s).isSome && p.holds else m.holdsAt t := by
  simp only [holdsAt, point?_onSlot m s t hf]
  by_cases h : t = s
  · subst h
    cases hw : m.worker? t <;> simp [point?, hw]
  · simp [h]

@[simp] theorem holdsAt_onSlot_goTo (p : Point) :
    (m.onSlot s (Worker.goTo p)).holdsAt t =
      if t = s then (m.worker? s).isSome && p.holds else m.holdsAt t :=
  m.holdsAt_onSlot s t fun _ => rfl

@[simp] theorem holdsAt_onSlot_own (c : Control) (p : Point) :
    (m.onSlot s fun w => { w with control := c, point := p }).holdsAt t =
      if t = s then (m.worker? s).isSome && p.holds else m.holdsAt t :=
  m.holdsAt_onSlot s t fun _ => rfl

@[simp] theorem holdsAt_onSlot_finish (u : U) (p : Point) :
    (m.onSlot s fun w => { w with unit := u, point := p }).holdsAt t =
      if t = s then (m.worker? s).isSome && p.holds else m.holdsAt t :=
  m.holdsAt_onSlot s t fun _ => rfl

@[simp] theorem holdsAt_onSlot_write (a : Access) :
    (m.onSlot s (Worker.write a)).holdsAt t = m.holdsAt t := by
  simp [holdsAt]

@[simp] theorem holdsAt_setCaller (t : Thread) (c : Caller) :
    (m.setCaller t c).holdsAt s = m.holdsAt s := by
  simp [holdsAt]

@[simp] theorem holdsAt_mk (fr : FreezeScope) (la st : Bool) (lk : Option Holder) (ta : Tally)
    (co ot : Caller) (cl : Nat) (sh : S) :
    (Machine.mk fr la st lk ta m.writers m.readers co ot cl sh).holdsAt s = m.holdsAt s := rfl

end holdsAt

/-- A worker that acts on its own block neither has the lock nor takes it. -/
theorem holds_of_next {c c' : Control} {p p' : Point} (h : p.next c = some (c', p')) :
    p.holds = false ∧ p'.holds = false := by
  cases p <;> grind [Point.next, Point.holds, Point.afterQuota, exchange]

/-! ## Coherence -/

/-- A report of a role is accepted but not yet counted. -/
def delivering (m : Machine U S) (r : Role) : Nat :=
  match m.lock with
  | some (.worker s) => if s.role = r ∧ m.point? s ≠ some .releasing then 1 else 0
  | _ => 0

structure Coherent (m : Machine U S) : Prop where
  lock_caller : ∀ t, m.lock = some (.caller t) ↔ (m.caller t).call.holds = true
  lock_worker : ∀ s, m.lock = some (.worker s) ↔ m.holdsAt s = true
  /-- Before the launch the only operation is a stop. -/
  free : m.launched = false → ∀ t, (m.caller t).call.isFree = true
  unborn : m.launched = false → m.tally = {} ∧ ∀ s p, m.point? s = some p → p = .unborn
  asked : ∀ t total, (m.caller t).call = .runAtLock total ∨ (m.caller t).call = .runAtFlag total →
    m.launched = true ∧ m.writers ≠ []
  resuming : ∀ t quota todo, (m.caller t).call = .resuming quota todo → m.tally.phase = .running
  stopping : ∀ t todo, (m.caller t).call = .stopping todo → ∀ x ∈ todo, x.2 ∈ Control.stopping
  staffed : m.tally.phase ≠ .ready → m.launched = true ∧ m.writers ≠ []
  length_flags : m.launched = true → ∀ r, (m.tally.flags r).length = (m.workers r).length
  /-- All that are marked are counted, but for one that holds the lock. -/
  count_flags : ∀ r, (m.tally.flags r).count true = m.tally.doneOf r + m.delivering r
  complete : m.tally.phase = .complete → ∀ s, m.tally.hasReported s = true
  /-- Whom a worker that reports has still to freeze. -/
  freezing : ∀ s trial done todo, m.point? s = some (.freezing trial done todo) →
    trial = m.tally.trial ∧ m.tally.phase = .running ∧ ∀ x ∈ todo, x ∈ m.freezeOthers s trial

variable {work : U → S → U × S} {m m' : Machine U S} {e : Event U}

/-! ## The lock -/

theorem Coherent.lock_of_holds (hc : m.Coherent) {s : Slot} {w : Worker U}
    (hw : m.worker? s = some w) (hp : w.point.holds = true) : m.lock = some (.worker s) :=
  (hc.lock_worker s).mpr (by rw [holdsAt_of_worker? hw, hp])

theorem Coherent.lock_of_freezing (hc : m.Coherent) {s : Slot} {w : Worker U}
    (hw : m.worker? s = some w) {trial done : Nat} {todo : List (Slot × Access)}
    (hp : w.point = .freezing trial done todo) : m.lock = some (.worker s) :=
  hc.lock_of_holds hw (by simp [hp, Point.holds])

theorem Coherent.lock_of_releasing (hc : m.Coherent) {s : Slot} {w : Worker U}
    (hw : m.worker? s = some w) (hp : w.point = .releasing) : m.lock = some (.worker s) :=
  hc.lock_of_holds hw (by simp [hp, Point.holds])

/-- While a caller has the lock no worker delivers. -/
theorem Coherent.not_worker_of_call (hc : m.Coherent) {t : Thread}
    (hcall : (m.caller t).call.holds = true) (s : Slot) : m.lock ≠ some (.worker s) := by
  rw [(hc.lock_caller t).mpr hcall]
  simp

/-- Nobody has the lock before the launch. -/
theorem Coherent.lock_of_not_launched (hc : m.Coherent) (hl : m.launched = false) :
    m.lock = none := by
  cases hlock : m.lock with
  | none => rfl
  | some holder =>
    cases holder with
    | worker s =>
      have hh := (hc.lock_worker s).mp hlock
      rw [holdsAt, Option.any_eq_true] at hh
      obtain ⟨p, hp, hh⟩ := hh
      rw [(hc.unborn hl).2 s p hp] at hh
      cases hh
    | caller t =>
      have hh := (hc.lock_caller t).mp hlock
      have hf := hc.free hl t
      cases hcall : (m.caller t).call <;> simp [hcall, Call.holds] at hh <;>
        simp [hcall, Call.isFree, Call.isStop] at hf

theorem Coherent.lock_caller_move (hc : m.Coherent) (hm : Move work m e m') :
    ∀ t, m'.lock = some (.caller t) ↔ (m'.caller t).call.holds = true := by
  have h := hc.lock_caller
  intro t'
  cases hm with
  -- what does not touch the lock does not move the callers either
  | own => simpa using h t'
  | freeze => simpa using h t'
  | finish => simpa using h t'
  | panic => simpa using h t'
  | register => simpa using h t'
  | launch => simpa using h t'
  | fail => exact h t'
  | tick => simpa using h t'
  -- a worker takes the lock from nobody, and gives back what no caller had
  | accept hw hp hl => simpa [hl] using h t'
  | refuse hw hp hl => simpa [hl] using h t'
  | count hw hp => simpa [hc.lock_of_freezing hw hp] using h t'
  | release hw hp => simpa [hc.lock_of_releasing hw hp] using h t'
  | _ =>
    -- a caller moves: the others see the lock taken from nobody, or given back by its holder
    simp
    grind [Call.holds]

theorem Coherent.lock_worker_move (hc : m.Coherent) (hm : Move work m e m') :
    ∀ s, m'.lock = some (.worker s) ↔ m'.holdsAt s = true := by
  have h := hc.lock_worker
  intro s'
  cases hm with
  | own hw hn =>
    -- the worker stands elsewhere than where it would hold the lock, before and after
    have hnext := holds_of_next hn
    have hp := holdsAt_of_worker? hw
    simp only [lock_onSlot, holdsAt_onSlot_own]
    grind
  | accept hw hp hl | refuse hw hp hl =>
    -- nobody else has the lock
    simp
    grind [Point.holds]
  | freeze hw hp | count hw hp =>
    -- the holder goes on, or lets go, and every other slot is not the holder
    have hl := hc.lock_of_freezing hw hp
    simp
    grind [Point.holds]
  | release hw hp =>
    have hl := hc.lock_of_releasing hw hp
    simp
    grind [Point.holds]
  | finish hw hp | panic hw hp =>
    have hh := holdsAt_of_worker? hw
    simp
    grind [Point.holds]
  | register hq hl =>
    have hnone := hc.lock_of_not_launched hl
    rw [lock_enrol, hnone, holdsAt_eq_false (p := .unborn) rfl]
    · simp
    · exact fun p hp => (m.point?_enrol s' hp).elim ((hc.unborn hl).2 s' p) id
  | launch hq hl =>
    have hnone := hc.lock_of_not_launched hl
    have hh : (m.sendAll .top).holdsAt s' = false :=
      holdsAt_eq_false (p := .top) rfl fun p hp => by simp_all
    simp [hnone, hh]
  | fail => exact h s'
  | _ =>
    -- a caller that takes or gives back the lock had it in common with no worker
    have hcl := hc.lock_caller
    simp
    grind [Call.holds]

/-! ## The launch -/

/-- An operation other than a stop shows that the threads run. -/
theorem Coherent.launched_of_call (hc : m.Coherent) {t : Thread}
    (hcall : (m.caller t).call.isFree = false) : m.launched = true := by
  cases hl : m.launched with
  | true => rfl
  | false =>
    rw [hc.free hl t] at hcall
    cases hcall

theorem Coherent.free_move (hc : m.Coherent) (hm : Move work m e m') :
    m'.launched = false → ∀ t, (m'.caller t).call.isFree = true := by
  have h := hc.free
  cases hm with
  | ask _ _ _ _ _ hfree =>
    intro hl t'
    simp at hl ⊢
    grind
  | fail => exact h
  | launch => simp
  | _ =>
    -- a caller that moves in any other way is in a stop, or was not free before
    simp
    grind [Call.isFree, Call.isStop]

theorem Coherent.unborn_move (hc : m.Coherent) (hm : Move work m e m') :
    m'.launched = false → m'.tally = {} ∧ ∀ s p, m'.point? s = some p → p = .unborn := by
  have h := hc.unborn
  have hf := hc.free
  cases hm with
  | own hw hn =>
    intro hl
    simp only [launched_onSlot] at hl
    have hp := (h hl).2 _ _ (point?_of_worker? hw)
    simp [hp, Point.next] at hn
  | accept hw hp | refuse hw hp | freeze hw hp | count hw hp | release hw hp | finish hw hp
  | panic hw hp =>
    -- a worker that is not started does nothing
    intro hl
    simp only [launched_onSlot] at hl
    have hp' := (h hl).2 _ _ (point?_of_worker? hw)
    simp [hp] at hp'
  | register hq hl =>
    intro _
    refine ⟨by rw [tally_enrol, (h hl).1], fun s p hp => ?_⟩
    exact (m.point?_enrol s hp).elim ((h hl).2 s p) id
  | launch => simp
  | fail => exact h
  | _ =>
    simp
    grind [Call.isFree, Call.isStop]

theorem Coherent.asked_move (hc : m.Coherent) (hm : Move work m e m') :
    ∀ t total, (m'.caller t).call = .runAtLock total ∨ (m'.caller t).call = .runAtFlag total →
      m'.launched = true ∧ m'.writers ≠ [] := by
  have h := hc.asked
  cases hm with
  | register hq hl | launch hq hl =>
    -- nobody asks for a trial before the launch
    have hf := hc.free hl
    simp
    grind [Call.isFree, Call.isStop]
  | fail => exact h
  | ask =>
    simp
    grind [Call.holds]
  | _ =>
    simp
    grind

theorem Coherent.resuming_move (hc : m.Coherent) (hm : Move work m e m') :
    ∀ t quota todo, (m'.caller t).call = .resuming quota todo → m'.tally.phase = .running := by
  have h := hc.resuming
  intro t' quota' todo' hcall'
  have hbefore := h t' quota' todo'
  cases hm with
  | count hw hp =>
    -- the lock is not with a caller
    have hl := hc.lock_of_freezing hw hp
    have hcall : (m.caller t').call = .resuming quota' todo' := by simpa using hcall'
    exact absurd hl (hc.not_worker_of_call (by rw [hcall]; rfl) _)
  | @endReset t kept hcall =>
    by_cases ht : t' = t
    · simp [ht] at hcall'
    · -- the lock would have two holders
      have hcall₂ : (m.caller t').call = .resuming quota' todo' := by simpa [ht] using hcall'
      have hl := (hc.lock_caller t).mpr (by rw [hcall]; rfl)
      have hl₂ := (hc.lock_caller t').mpr (by rw [hcall₂]; rfl)
      rw [hl] at hl₂
      cases hl₂
      exact absurd rfl ht
  | launch _ hl =>
    have hcall : (m.caller t').call = .resuming quota' todo' := by simpa using hcall'
    rw [hc.launched_of_call (by rw [hcall]; rfl)] at hl
    cases hl
  | begin => simp
  | @ask t _ c _ _ hh =>
    by_cases ht : t' = t
    · subst ht
      rw [caller_setCaller, if_pos rfl] at hcall'
      rw [hcall'] at hh
      cases hh
    · simpa using hbefore (by simpa [ht] using hcall')
  | fail => exact hbefore hcall'
  | _ =>
    simp at hcall' ⊢
    grind

theorem Coherent.stopping_move (hc : m.Coherent) (hm : Move work m e m') :
    ∀ t todo, (m'.caller t).call = .stopping todo → ∀ x ∈ todo, x.2 ∈ Control.stopping := by
  have h := hc.stopping
  intro t' todo' hcall'
  have hall := h t' todo'
  -- the threads that begin to stop workers or go on with it get such a list, all others keep theirs
  cases hm with
  | @ask t e c _ _ _ _ _ _ _ htodo =>
    by_cases ht : t' = t
    · subst ht
      obtain rfl := htodo todo' (by simpa using hcall')
      exact fun x hx => (mem_forEach.mp hx).2
    · exact hall (by simpa [ht] using hcall')
  | @flag t hcall =>
    by_cases ht : t' = t
    · have htodo : forEach m.slots Control.stopping = todo' := by simpa [ht] using hcall'
      subst htodo
      exact fun x hx => (mem_forEach.mp hx).2
    · exact hall (by simpa [ht] using hcall')
  | @halt t s a todo hcall =>
    by_cases ht : t' = t
    · have htodo : todo = todo' := by simpa [ht] using hcall'
      subst htodo
      exact fun x hx => h t _ hcall x (List.mem_cons_of_mem _ hx)
    · exact hall (by simpa [ht] using hcall')
  | fail => exact hall hcall'
  | _ =>
    simp at hcall'
    grind

theorem Coherent.staffed_move (hc : m.Coherent) (hm : Move work m e m') :
    m'.tally.phase ≠ .ready → m'.launched = true ∧ m'.writers ≠ [] := by
  have h := hc.staffed
  cases hm with
  | begin hcall => simpa using hc.asked _ _ (.inr hcall)
  | count hw hp =>
    -- a report is counted only while a trial is running
    have hph := (hc.freezing _ _ _ _ (by rw [point?_of_worker? hw, hp])).2.1
    simpa using fun _ => h (by simp [hph])
  | register hq hl =>
    simp [(hc.unborn hl).1]
  | launch => simp [Tally.fresh]
  | endReset => simp [Tally.reset]
  | _ => simpa using h

/-! ## Counting -/

theorem Coherent.length_flags_move (hc : m.Coherent) (hm : Move work m e m') :
    m'.launched = true → ∀ r, (m'.tally.flags r).length = (m'.workers r).length := by
  have h := hc.length_flags
  cases hm with
  | accept =>
    intro hl r
    simp only [launched_onSlot] at hl
    rw [tally_onSlot, length_workers_onSlot, workers_mk, Tally.flags_mark, ← h hl r]
    split <;> simp
  | register hq hl => simp [hl]
  | launch =>
    intro _ r
    cases r <;> simp [Tally.fresh, Tally.flags, workers, sendAll]
  | _ => simpa using h

/-- As many reports are under way as before if the lock and its holder stay. -/
theorem delivering_congr (hl : m'.lock = m.lock)
    (hp : ∀ s, m.lock = some (.worker s) →
      (m'.point? s = some .releasing ↔ m.point? s = some .releasing)) (r : Role) :
    m'.delivering r = m.delivering r := by
  unfold delivering
  rw [hl]
  cases hlock : m.lock with
  | none => rfl
  | some holder =>
    cases holder with
    | worker s => simp only [ne_eq, hp s hlock]
    | caller t => rfl

theorem delivering_eq_zero (h : ∀ s, m.lock ≠ some (.worker s)) (r : Role) :
    m.delivering r = 0 := by
  unfold delivering
  split
  · exact absurd ‹_› (h _)
  · rfl

theorem delivering_of_lock {s : Slot} {p : Point} (hl : m.lock = some (.worker s))
    (hp : m.point? s = some p) (r : Role) :
    m.delivering r = if r = s.role ∧ p ≠ .releasing then 1 else 0 := by
  simp [delivering, hl, hp, eq_comm (a := r)]

/-- Nobody else is at a point that needs the lock. -/
theorem Coherent.ne_of_lock (hc : m.Coherent) {s s' : Slot} {w : Worker U}
    (hw : m.worker? s = some w) (hp : w.point.holds = false) (hl : m.lock = some (.worker s')) :
    s' ≠ s := by
  rintro rfl
  have hh := (hc.lock_worker s').mp hl
  rw [holdsAt_of_worker? hw, hp] at hh
  cases hh

theorem Coherent.count_flags_move (hc : m.Coherent) (hm : Move work m e m') :
    ∀ r, (m'.tally.flags r).count true = m'.tally.doneOf r + m'.delivering r := by
  have h := hc.count_flags
  intro r
  cases hm with
  | own hw hn =>
    rw [delivering_congr (m := m) (by simp), tally_onSlot]
    · exact h r
    · intro s hl
      simp [hc.ne_of_lock hw (holds_of_next hn).1 hl]
  | finish hw hp | panic hw hp =>
    rw [delivering_congr (m := m) (by simp), tally_onSlot]
    · exact h r
    · intro s hl
      simp [hc.ne_of_lock hw (by rw [hp]; rfl) hl]
  | @accept s w trial done hw hp hl ha =>
    have hfree := delivering_eq_zero (m := m) (by simp [hl]) r
    have hpt := point?_of_worker? hw
    -- one more is marked, and that one is the holder now
    rw [delivering_of_lock (s := s) (p := .freezing trial done (m.freezeOthers s trial)) (by simp)
        (by simp [hpt]) r, tally_onSlot,
      Tally.count_flags_mark ((Tally.accepts_iff _ _ _).mp ha).2.2, h r, hfree]
    simp
  | @refuse s w trial done hw hp hl =>
    have hfree := delivering_eq_zero (m := m) (by simp [hl]) r
    have hpt := point?_of_worker? hw
    rw [delivering_of_lock (s := s) (p := .releasing) (by simp) (by simp [hpt]) r, tally_onSlot,
      h r, hfree]
    simp
  | freeze hw hp =>
    rw [delivering_congr (m := m) (by simp), tally_onSlot, tally_onSlot]
    · exact h r
    · -- the holder is the worker that freezes, and it goes on to do so
      intro s hl
      obtain rfl : _ = s := by simpa [hc.lock_of_freezing hw hp] using hl
      simp [point?_of_worker? hw, hp]
  | count hw hp =>
    -- the holder is counted and lets go of the lock
    have hd := delivering_of_lock (hc.lock_of_freezing hw hp) (point?_of_worker? hw) r
    rw [delivering_eq_zero (by simp), tally_onSlot, Tally.flags_count, Tally.doneOf_count, h r, hd,
      hp]
    simp
  | release hw hp =>
    have hd := delivering_of_lock (hc.lock_of_releasing hw hp) (point?_of_worker? hw) r
    rw [delivering_eq_zero (by simp), tally_onSlot, h r, hd, hp]
    simp
  | register hq hl =>
    have hnone := hc.lock_of_not_launched hl
    rw [delivering_eq_zero (by simp [hnone]), tally_enrol, (hc.unborn hl).1]
    cases r <;> rfl
  | launch hq hl =>
    have hnone := hc.lock_of_not_launched hl
    rw [delivering_eq_zero (by simp [hnone])]
    cases r <;> simp [Tally.fresh, Tally.flags, Tally.doneOf, List.count_replicate]
  | begin hcall =>
    -- all flags are taken down while a caller has the lock
    have hw := hc.not_worker_of_call (t := _) (by rw [hcall]; rfl)
    rw [delivering_eq_zero (by simpa using hw)]
    simp [List.count_replicate]
  | endReset hcall =>
    rw [delivering_eq_zero (by simp)]
    simp [List.count_replicate]
  | lockRun hcall hl | resetRefused hcall hl | startReset hcall hl =>
    have hfree := delivering_eq_zero (m := m) (by simp [hl]) r
    rw [delivering_eq_zero (by simp)]
    simpa [hfree] using h r
  | endRun hcall | unlock hcall =>
    have hfree := delivering_eq_zero (hc.not_worker_of_call (t := _) (by rw [hcall]; rfl)) r
    rw [delivering_eq_zero (by simp)]
    simpa [hfree] using h r
  | fail => exact h r
  | _ =>
    rw [delivering_congr (m := m) (by simp) (by simp)]
    simpa using h r

/-- If a count completes the trial then all have reported, the last one included. -/
theorem Coherent.reported_of_count (hc : m.Coherent) {s : Slot} {w : Worker U} {trial done : Nat}
    (hw : m.worker? s = some w) (hp : w.point = .freezing trial done [])
    (hph : (m.tally.count m.clock s done).phase = .complete) (s' : Slot) :
    m.tally.hasReported s' = true := by
  have hcount : ∀ r, (m.tally.flags r).count true =
      (m.tally.count m.clock s done).doneOf r := by
    intro r
    -- the one that is marked and not counted is counted now
    rw [hc.count_flags r, Tally.doneOf_count,
      delivering_of_lock (hc.lock_of_freezing hw hp) (point?_of_worker? hw) r, hp]
    simp
  rw [Tally.phase_count] at hph
  split at hph
  · next hall =>
    -- as many are counted as there are, so that all are marked
    apply Tally.hasReported_of_count
    rw [hcount]
    cases s'.role with
    | writer => exact hall.1
    | reader => exact hall.2
  · exact hc.complete hph s'

theorem Coherent.complete_move (hc : m.Coherent) (hm : Move work m e m') :
    m'.tally.phase = .complete → ∀ s, m'.tally.hasReported s = true := by
  have h := hc.complete
  cases hm with
  | count hw hp =>
    intro hph s'
    simpa using hc.reported_of_count hw hp (by simpa using hph) s'
  | accept =>
    intro hph s'
    simp only [tally_onSlot, Tally.phase_mark] at hph
    simp [h hph s']
  | begin => simp [Tally.begun]
  | endReset => simp [Tally.reset]
  | launch => simp [Tally.fresh]
  | fail => exact h
  | _ => simpa using h

/-! ## Freezing -/

/-- Whom a worker freezes depends on the roster, the scope and the writers counted. -/
theorem freezeOthers_congr {s : Slot} {trial : Nat} (hf : m'.freeze = m.freeze)
    (hd : m'.tally.doneWriters = m.tally.doneWriters)
    (hw : m'.writers.length = m.writers.length) (hr : m'.readers.length = m.readers.length) :
    m'.freezeOthers s trial = m.freezeOthers s trial := by
  unfold freezeOthers writerSlots readerSlots
  rw [hf, hd, hw, hr]

/-- The first writer to report freezes the readers, and the other writers if it is to freeze
everyone. -/
theorem mem_freezeOthers {s t : Slot} {trial : Nat} {a : Access}
    (h : (t, a) ∈ m.freezeOthers s trial) :
    s.role = .writer ∧ m.tally.doneWriters = 0 ∧ t ≠ s ∧ a ∈ Control.pausing trial ∧
      (t.role = .writer → m.freeze = .everyone) := by
  unfold freezeOthers at h
  split at h
  · next hs =>
    obtain ⟨hrole, hdone⟩ := hs
    rw [mem_forEach, List.mem_append] at h
    obtain ⟨ht, ha⟩ := h
    refine ⟨hrole, hdone, ?_, ha, ?_⟩
    · -- the writer itself is left out, and it is no reader
      rintro rfl
      rcases ht with ht | ht
      · cases hfr : m.freeze <;> simp [hfr] at ht
      · simp [readerSlots] at ht
        grind
    · intro htr
      rcases ht with ht | ht
      · cases hfr : m.freeze <;> simp [hfr] at ht ⊢
      · simp [readerSlots] at ht
        grind
  · cases h

/-- A report is delivered while its trial is running. -/
theorem Coherent.running_of_freezing (hc : m.Coherent) {s : Slot} {w : Worker U}
    (hw : m.worker? s = some w) {trial done : Nat} {todo : List (Slot × Access)}
    (hp : w.point = .freezing trial done todo) : m.tally.phase = .running :=
  (hc.freezing s trial done todo (by rw [point?_of_worker? hw, hp])).2.1

/-- A freeze takes the quota of another worker away, or asks for its report. -/
theorem Coherent.frozen_access (hc : m.Coherent) {s t : Slot} {w : Worker U}
    (hw : m.worker? s = some w) {trial done : Nat} {a : Access} {todo : List (Slot × Access)}
    (hp : w.point = .freezing trial done ((t, a) :: todo)) :
    a = .setQuota 0 ∨ a = .setPending trial := by
  obtain ⟨-, -, hall⟩ := hc.freezing _ _ _ _ (by rw [point?_of_worker? hw, hp])
  obtain ⟨-, -, -, ha, -⟩ := mem_freezeOthers (hall _ (List.mem_cons_self ..))
  simpa [Control.pausing, Control.resuming] using ha

/-- While a caller has the lock nobody freezes. -/
theorem Coherent.not_freezing_of_call (hc : m.Coherent) {t : Thread}
    (hcall : (m.caller t).call.holds = true) {s : Slot} {trial done : Nat}
    {todo : List (Slot × Access)} : m.point? s ≠ some (.freezing trial done todo) := by
  intro hp
  have hh : m.holdsAt s = true := by simp [holdsAt, hp, Point.holds]
  exact hc.not_worker_of_call hcall s ((hc.lock_worker s).mpr hh)

/-- While one worker freezes others no other one does. -/
theorem Coherent.freezing_unique (hc : m.Coherent) {s s' : Slot} {trial done : Nat}
    {todo : List (Slot × Access)} (hp : m.point? s' = some (.freezing trial done todo))
    (hl : m.lock = some (.worker s)) : s' = s := by
  have hh : m.holdsAt s' = true := by simp [holdsAt, hp, Point.holds]
  have hl' := (hc.lock_worker s').mpr hh
  rw [hl] at hl'
  cases hl'
  rfl

/-- What decides whom a worker that reports freezes, and in which trial. -/
def freezeFrame (m : Machine U S) : Nat × Phase × FreezeScope × Nat × Nat × Nat :=
  (m.tally.trial, m.tally.phase, m.freeze, m.tally.doneWriters, m.writers.length,
    m.readers.length)

theorem freezing_congr (hframe : m'.freezeFrame = m.freezeFrame) {s : Slot} {trial : Nat}
    {todo : List (Slot × Access)}
    (h : trial = m.tally.trial ∧ m.tally.phase = .running ∧
      ∀ x ∈ todo, x ∈ m.freezeOthers s trial) :
    trial = m'.tally.trial ∧ m'.tally.phase = .running ∧
      ∀ x ∈ todo, x ∈ m'.freezeOthers s trial := by
  simp only [freezeFrame, Prod.mk.injEq] at hframe
  obtain ⟨ht, hp, hf, hd, hw, hr⟩ := hframe
  rw [ht, hp, freezeOthers_congr hf hd hw hr]
  exact h

theorem Coherent.freezing_move (hc : m.Coherent) (hm : Move work m e m') :
    ∀ s trial done todo, m'.point? s = some (.freezing trial done todo) →
      trial = m'.tally.trial ∧ m'.tally.phase = .running ∧
        ∀ x ∈ todo, x ∈ m'.freezeOthers s trial := by
  have h := hc.freezing
  intro s' trial' done' todo' hpt
  cases hm with
  | @own s w c p hw hn =>
    -- nobody comes to freeze others by a step on its own block
    have hne : s' ≠ s := by
      rintro rfl
      have hp : p = .freezing trial' done' todo' := by simpa [point?_of_worker? hw] using hpt
      simpa [hp, Point.holds] using (holds_of_next hn).2
    have hall := h _ _ _ _ (by simpa [hne] using hpt)
    exact freezing_congr (by simp [freezeFrame]) hall
  | @accept s w trial done hw hp hl ha =>
    by_cases hs : s' = s
    · subst hs
      have hp' : Point.freezing trial done (m.freezeOthers s' trial) =
          .freezing trial' done' todo' := by simpa [point?_of_worker? hw] using hpt
      cases hp'
      have hall : ∀ x ∈ m.freezeOthers s' trial', x ∈ m.freezeOthers s' trial' := fun x hx => hx
      obtain ⟨hph, ht, -⟩ := (Tally.accepts_iff _ _ _).mp ha
      exact freezing_congr (by simp [freezeFrame]) ⟨ht, hph, hall⟩
    · have hall := h _ _ _ _ (by simpa [hs] using hpt)
      exact freezing_congr (by simp [freezeFrame]) hall
  | @freeze s t w trial done a todo hw hp =>
    by_cases hs : s' = s
    · subst hs
      have hp' : Point.freezing trial done todo = .freezing trial' done' todo' := by
        simpa [point?_of_worker? hw] using hpt
      cases hp'
      obtain ⟨ht, hph, hall⟩ := h _ _ _ _ (by rw [point?_of_worker? hw, hp])
      have htail := fun x hx => hall x (List.mem_cons_of_mem _ hx)
      exact freezing_congr (by simp [freezeFrame]) ⟨ht, hph, htail⟩
    · have hall := h _ _ _ _ (by simpa [hs] using hpt)
      exact freezing_congr (by simp [freezeFrame]) hall
  | @count s w trial done hw hp =>
    -- the only worker that might freeze has just stopped to
    by_cases hs : s' = s
    · simp [hs, point?_of_worker? hw] at hpt
    · have hpt' : m.point? s' = some (.freezing trial' done' todo') := by simpa [hs] using hpt
      exact absurd (hc.freezing_unique hpt' (hc.lock_of_freezing hw hp)) hs
  | @refuse s w trial done hw hp | @release s w hw hp | @finish s w done hw hp
  | @panic s w done hw hp =>
    have hne : s' ≠ s := by
      rintro rfl
      simp [point?_of_worker? hw] at hpt
    have hall := h _ _ _ _ (by simpa [hne] using hpt)
    exact freezing_congr (by simp [freezeFrame]) hall
  | register hq hl =>
    rcases m.point?_enrol s' hpt with hp | hp
    · cases (hc.unborn hl).2 _ _ hp
    · cases hp
  | launch => simp at hpt
  | begin hcall => exact absurd (by simpa using hpt) (hc.not_freezing_of_call (by rw [hcall]; rfl))
  | endReset hcall =>
    exact absurd (by simpa using hpt) (hc.not_freezing_of_call (by rw [hcall]; rfl))
  | fail => exact h _ _ _ _ hpt
  | _ =>
    have hall := h _ _ _ _ (by simpa using hpt)
    exact freezing_congr (by simp [freezeFrame]) hall

/-- A move keeps a machine coherent. -/
theorem Coherent.move (hc : m.Coherent) (hm : Move work m e m') : m'.Coherent where
  lock_caller := hc.lock_caller_move hm
  lock_worker := hc.lock_worker_move hm
  free := hc.free_move hm
  unborn := hc.unborn_move hm
  asked := hc.asked_move hm
  resuming := hc.resuming_move hm
  stopping := hc.stopping_move hm
  staffed := hc.staffed_move hm
  length_flags := hc.length_flags_move hm
  count_flags := hc.count_flags_move hm
  complete := hc.complete_move hm
  freezing := hc.freezing_move hm

/-- A coordinator that has just been made is coherent. -/
theorem Coherent.empty (freeze : FreezeScope) (shared : S) :
    (Machine.empty freeze shared : Machine U S).Coherent where
  lock_caller t := by cases t <;> simp [Machine.empty, caller, Call.holds]
  lock_worker s := by
    simp only [holdsAt, point?, worker?_empty]
    simp [Machine.empty]
  free _ t := by cases t <;> rfl
  unborn _ := ⟨rfl, fun s p hp => by simp [point?] at hp⟩
  asked t _ h := by cases t <;> simp [Machine.empty, caller] at h
  resuming t _ _ h := by cases t <;> simp [Machine.empty, caller] at h
  stopping t _ h := by cases t <;> simp [Machine.empty, caller] at h
  staffed h := absurd rfl h
  length_flags h := by cases h
  count_flags r := by cases r <;> rfl
  complete h := by cases h
  freezing s _ _ _ hp := by simp [point?] at hp

end Machine

end SpeedTrial.Trial
