import SpeedTrial.Proofs.Trial.Coherence

/-!
# Delivering a report

A worker that delivers a report holds the lock from its first step to its last, so that nobody else
touches the tally in between.  `Machine.deliver` does all of it at once: it marks and counts the
worker and freezes whom it is to freeze, or does nothing if the report is refused.

Main statements: `steps_deliver`, a worker that is about to deliver comes to this by steps of its
own, and `tally_deliver`, the tally after it is the one that has taken the report.
-/

namespace SpeedTrial.Trial

/-- What a worker reports: the trial and how many units it performed in it. -/
structure Report where
  slot : Slot
  trial : Nat
  units : Nat
  deriving DecidableEq, Repr

variable {U S : Type}

namespace Machine

/-! ## Several accesses -/

/-- Performs accesses that cannot fail, one after the other. -/
def perform (m : Machine U S) (todo : List (Slot × Access)) : Machine U S :=
  todo.foldl (fun m x => m.store x.1 x.2) m

section perform

variable (m : Machine U S) (s t : Slot) (a : Access) (todo : List (Slot × Access))

@[simp] theorem perform_nil : m.perform [] = m := rfl

theorem perform_cons : m.perform ((s, a) :: todo) = (m.onSlot s (Worker.write a)).perform todo := by
  rw [perform, List.foldl_cons, store_eq]
  rfl

@[simp] theorem tally_perform : (m.perform todo).tally = m.tally := by
  induction todo generalizing m with
  | nil => rfl
  | cons x todo ih => rw [perform_cons, ih, tally_onSlot]

/-- Where a worker stands and what its block holds do not depend on each other. -/
theorem onSlot_write_goTo (p : Point) :
    (m.onSlot s (Worker.goTo p)).onSlot t (Worker.write a) =
      (m.onSlot t (Worker.write a)).onSlot s (Worker.goTo p) := by
  have hlist : ∀ (ws : List (Worker U)) (i j : Nat),
      (ws.modify i (Worker.goTo p)).modify j (Worker.write a) =
        (ws.modify j (Worker.write a)).modify i (Worker.goTo p) := by
    intro ws i j
    apply List.ext_getElem?
    intro k
    simp only [List.getElem?_modify]
    cases ws[k]? with
    | none => rfl
    | some w => by_cases hi : i = k <;> by_cases hj : j = k <;> simp [hi, hj, Worker.goTo, Worker.write]
  obtain ⟨r, i⟩ := s
  obtain ⟨r', j⟩ := t
  cases r <;> cases r' <;> simp [onSlot, hlist]

theorem perform_goTo (p : Point) :
    (m.onSlot s (Worker.goTo p)).perform todo =
      (m.perform todo).onSlot s (Worker.goTo p) := by
  induction todo generalizing m with
  | nil => rfl
  | cons x todo ih => rw [perform_cons, perform_cons, onSlot_write_goTo, ih]

/-- Of several moves of a worker only the last one counts. -/
theorem onSlot_goTo_goTo (p q : Point) :
    (m.onSlot s (Worker.goTo p)).onSlot s (Worker.goTo q) = m.onSlot s (Worker.goTo q) := by
  obtain ⟨r, i⟩ := s
  have hcomp : Worker.goTo q ∘ Worker.goTo p = (Worker.goTo q : Worker U → Worker U) := rfl
  cases r <;> simp [onSlot, List.modify_modify_eq, hcomp]

/-- Who works in a slot has nothing to do with the tally and the lock. -/
theorem settle_onSlot (f : Worker U → Worker U) (ta : Tally) (lk : Option Holder) :
    { m.onSlot s f with tally := ta, lock := lk } = { m with tally := ta, lock := lk }.onSlot s f := by
  unfold onSlot; split <;> rfl

theorem perform_settle (ta : Tally) (lk : Option Holder) :
    { m with tally := ta, lock := lk }.perform todo =
      { m.perform todo with tally := ta, lock := lk } := by
  induction todo generalizing m with
  | nil => rfl
  | cons x todo ih => rw [perform_cons, ← settle_onSlot, ih, perform_cons]

@[simp] theorem lock_perform : (m.perform todo).lock = m.lock := by
  induction todo generalizing m with
  | nil => rfl
  | cons x todo ih => rw [perform_cons, ih, lock_onSlot]

end perform

/-! ## A whole delivery -/

/-- Takes a report at a time, with nothing in between: an accepted report is marked, freezes whom
it is to freeze, and is counted, and a refused one leaves everything as it is. -/
def deliver (m : Machine U S) (now : Nat) (r : Report) : Machine U S :=
  if m.tally.accepts r.slot r.trial then
    { m.perform (m.freezeOthers r.slot r.trial) with
      tally := (m.tally.mark r.slot).count now r.slot r.units }
  else m

theorem tally_deliver (m : Machine U S) (now : Nat) (r : Report) :
    (m.deliver now r).tally = m.tally.report now r.slot r.trial r.units := by
  unfold deliver Tally.report
  split <;> rfl

variable {work : U → S → U × S} {m m' : Machine U S}

theorem steps_cons {e : Event U} {es : List (Event U)} (hs : m.step work e = some m') :
    m.steps work (e :: es) = m'.steps work es := by
  rw [steps, hs]

theorem steps_append {es es' : List (Event U)} (hs : m.steps work es = some m') :
    m.steps work (es ++ es') = m'.steps work es' := by
  induction es generalizing m with
  | nil =>
    obtain rfl : m = m' := Option.some.inj hs
    rfl
  | cons e es ih =>
    cases he : m.step work e with
    | none => simp [steps, he] at hs
    | some m₁ =>
      rw [List.cons_append, steps_cons he]
      exact ih (by rwa [steps_cons he] at hs)

/-- A worker that freezes others goes on until it has counted its own units. -/
theorem steps_freezing {s : Slot} {w : Worker U} {trial done : Nat} {todo : List (Slot × Access)}
    (hw : m.worker? s = some w) (hp : w.point = .freezing trial done todo) :
    m.steps work (List.replicate (todo.length + 1) (.worker s)) =
      some ({ m.perform todo with tally := m.tally.count m.clock s done, lock := none }.onSlot s
        (Worker.goTo .top)) := by
  -- by induction on the accesses that are left: each is one step
  induction todo generalizing m w with
  | nil =>
    have hs : m.step work (.worker s) =
        some ({ m with tally := m.tally.count m.clock s done, lock := none }.onSlot s
          (Worker.goTo .top)) := by
      simp [step, stepWorker, hw, hp, moveTo_eq]
    exact steps_cons hs
  | cons x todo ih =>
    obtain ⟨t, a⟩ := x
    have hs : m.step work (.worker s) =
        some ((m.onSlot t (Worker.write a)).onSlot s (Worker.goTo (.freezing trial done todo))) := by
      simp [step, stepWorker, hw, hp, moveTo_eq, store_eq]
    obtain ⟨w', hw', hp'⟩ : ∃ w', ((m.onSlot t (Worker.write a)).onSlot s
        (Worker.goTo (.freezing trial done todo))).worker? s = some w' ∧
          w'.point = .freezing trial done todo := by
      refine ⟨_, by simp [hw]; rfl, rfl⟩
    rw [List.length_cons, List.replicate_succ, steps_cons hs, ih hw' hp', perform_goTo,
      tally_onSlot, tally_onSlot, clock_onSlot, clock_onSlot, settle_onSlot, onSlot_goTo_goTo,
      perform_cons]

/-- A worker that is about to deliver a report, and finds the lock free, delivers it by steps of its
own and goes on with its loop. -/
theorem steps_deliver {s : Slot} {w : Worker U} {trial units : Nat} (hw : m.worker? s = some w)
    (hp : w.point = .report trial units) (hl : m.lock = none) :
    ∃ k, m.steps work (List.replicate k (.worker s)) =
      some ((m.deliver m.clock ⟨s, trial, units⟩).onSlot s (Worker.goTo .top)) := by
  unfold deliver
  by_cases ha : m.tally.accepts s trial = true
  · rw [if_pos ha]
    -- the report is accepted, and whom it freezes is settled at once
    have hs : m.step work (.worker s) =
        some ({ m with tally := m.tally.mark s, lock := some (.worker s) }.onSlot s
          (Worker.goTo (.freezing trial units (m.freezeOthers s trial)))) := by
      simp only [step, stepWorker, hw, hp, beginReport, hl, ha, if_true, moveTo_eq]
      rfl
    obtain ⟨w', hw', hp'⟩ : ∃ w', ({ m with tally := m.tally.mark s, lock := some (.worker s) }.onSlot
        s (Worker.goTo (.freezing trial units (m.freezeOthers s trial)))).worker? s = some w' ∧
          w'.point = .freezing trial units (m.freezeOthers s trial) :=
      ⟨_, by simp [hw]; rfl, rfl⟩
    refine ⟨(m.freezeOthers s trial).length + 1 + 1, ?_⟩
    rw [List.replicate_succ, steps_cons hs, steps_freezing hw' hp', perform_goTo, perform_settle,
      settle_onSlot, onSlot_goTo_goTo]
    simp [hl]
  · rw [if_neg ha]
    have hs : m.step work (.worker s) =
        some ({ m with lock := some (.worker s) }.onSlot s (Worker.goTo .releasing)) := by
      simp [step, stepWorker, hw, hp, beginReport, hl, ha, moveTo_eq]
    have hs' : ({ m with lock := some (.worker s) }.onSlot s (Worker.goTo .releasing)).step work
        (.worker s) = some (m.onSlot s (Worker.goTo .top)) := by
      have hback := settle_onSlot { m with lock := some (.worker s) } s
        (Worker.goTo .releasing) m.tally none
      have hstep : ({ m with lock := some (.worker s) }.onSlot s (Worker.goTo .releasing)).step work
          (.worker s) = some (({ ({ m with lock := some (.worker s) }.onSlot s
            (Worker.goTo .releasing)) with tally := m.tally, lock := none }).onSlot s
              (Worker.goTo .top)) := by
        simp [step, stepWorker, hw, moveTo_eq]
      rw [hstep, hback, onSlot_goTo_goTo, ← hl]
    refine ⟨2, ?_⟩
    rw [List.replicate_succ, steps_cons hs, List.replicate_succ, steps_cons hs']
    rfl

end Machine

end SpeedTrial.Trial
