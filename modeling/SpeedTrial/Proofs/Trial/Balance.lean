import SpeedTrial.Proofs.Trial.Runs

/-!
# Tallies in balance

A tally is `Balanced` if its phase and its clock follow from its counts: nothing is counted and no
time is taken before a trial, the time is taken exactly if all writers are counted, and the trial is
complete exactly if all workers are.

Main statements: `Run.balanced`, every tally of a run is balanced, and `Run.opened`, a tally that
nobody is changing waits for exactly those workers that have not reported.
-/

namespace SpeedTrial.Trial

namespace Tally

/-- The phase and the clock of a tally follow from its counts. -/
structure Balanced (t : Tally) : Prop where
  ready : t.phase = .ready → ∀ r, t.doneOf r = 0
  started : t.phase ≠ .ready → t.start.isSome = true
  timed : t.elapsed.isSome = true ↔
    t.phase ≠ .ready ∧ t.doneOf .writer = (t.flags .writer).length
  complete : t.phase = .complete ↔
    t.phase ≠ .ready ∧ ∀ r, t.doneOf r = (t.flags r).length

variable {t t' : Tally}

/-! ## The clock -/

section clock

variable (t : Tally) (s : Slot) (now units : Nat)

@[simp] theorem start_mark : (t.mark s).start = t.start := by
  unfold mark; split <;> rfl

@[simp] theorem elapsed_mark : (t.mark s).elapsed = t.elapsed := by
  unfold mark; split <;> rfl

@[simp] theorem start_count : (t.count now s units).start = t.start := by
  unfold count add; cases s.role <;> simp only <;> split <;> split <;> rfl

/-- The last writer stops the clock. -/
theorem elapsed_count :
    (t.count now s units).elapsed =
      if s.role = .writer ∧ (t.count now s units).doneOf .writer = (t.flags .writer).length then
        t.start.map (now - ·)
      else t.elapsed := by
  rw [doneOf_count]
  obtain ⟨r, i⟩ := s
  cases r with
  | writer =>
    -- whether the trial is complete is of no account here
    by_cases hw : t.doneWriters + 1 = t.writerReported.length <;>
      by_cases hr : t.doneReaders = t.readerReported.length <;>
      simp [count, add, doneOf, flags, writersDone, readersDone, hw, hr]
  | reader =>
    by_cases hw : t.doneWriters = t.writerReported.length <;>
      by_cases hr : t.doneReaders + 1 = t.readerReported.length <;>
      simp [count, add, doneOf, flags, writersDone, readersDone, hw, hr]

@[simp] theorem elapsed_begun : (t.begun now).elapsed = none := rfl

@[simp] theorem elapsed_reset : t.reset.elapsed = none := rfl

end clock

/-! ## Every operation keeps the balance -/

theorem Balanced.fresh (writers readers : Nat) : (fresh writers readers).Balanced where
  ready _ r := by cases r <;> rfl
  started h := absurd rfl h
  timed := by simp [Tally.fresh]
  complete := by simp [Tally.fresh]

theorem length_flags_mark (t : Tally) (s : Slot) (r : Role) :
    ((t.mark s).flags r).length = (t.flags r).length := by
  rw [flags_mark]
  split <;> simp

/-- Neither the counts nor the length of the roster change. -/
theorem Balanced.mark (hb : t.Balanced) (s : Slot) : (t.mark s).Balanced where
  ready := by simpa using hb.ready
  started := by simpa using hb.started
  timed := by simpa only [elapsed_mark, phase_mark, doneOf_mark, length_flags_mark] using hb.timed
  complete := by simpa only [phase_mark, doneOf_mark, length_flags_mark] using hb.complete

/-- The roster must have a writer, since a trial without one would be complete at once. -/
theorem Balanced.begun (hw : t.flags .writer ≠ []) (now : Nat) : (t.begun now).Balanced where
  ready h := by simp at h
  started _ := rfl
  timed := by simp [eq_comm (a := 0), hw]
  complete := by
    simp only [phase_begun, doneOf_begun, reduceCtorEq, false_iff, not_and, not_forall]
    exact fun _ => ⟨.writer, by simp [eq_comm (a := 0), hw]⟩

theorem Balanced.reset (t : Tally) : t.reset.Balanced where
  ready _ r := doneOf_reset t r
  started h := absurd rfl h
  timed := by simp
  complete := by simp

/-- A report is counted while a trial is running, and for a worker that is not counted yet. -/
theorem Balanced.count (hb : t.Balanced) (hph : t.phase = .running) {s : Slot}
    (hs : t.doneOf s.role < (t.flags s.role).length) (now units : Nat) :
    (t.count now s units).Balanced := by
  have hor := t.phase_count_or now s units
  have hne : (t.count now s units).phase ≠ .ready := by
    rcases hor with h | h <;> simp [h, hph]
  constructor
  · exact fun h => absurd h hne
  · intro _
    simpa using hb.started (by simp [hph])
  · -- a writer that is counted was missing before, and a reader leaves the writers as they are
    rw [elapsed_count, flags_count]
    have htimed := hb.timed
    have hstart := hb.started (by simp [hph])
    by_cases hlast : s.role = .writer ∧
        (t.count now s units).doneOf .writer = (t.flags .writer).length
    · simp [hlast, hne, hstart]
    · rw [if_neg hlast, htimed]
      rw [doneOf_count] at hlast ⊢
      cases hr : s.role with
      | writer =>
        rw [hr] at hs hlast
        simp only [true_and, if_true] at hlast
        simp [hlast, Nat.ne_of_lt hs]
      | reader => simp [hne, hph]
  · rw [phase_count]
    simp only [flags_count]
    constructor
    · intro h
      refine ⟨by rw [← phase_count]; exact hne, ?_⟩
      split at h
      · next hall =>
        rintro (_ | _)
        · exact hall.1
        · exact hall.2
      · simp [hph] at h
    · rintro ⟨-, hall⟩
      rw [if_pos ⟨hall .writer, hall .reader⟩]

/-! ## Open tallies -/

/-- A tally that takes reports: a trial was started, and as many workers are counted as have
reported. -/
structure Open (t : Tally) : Prop where
  balanced : t.Balanced
  begun : t.phase ≠ .ready
  counted : ∀ r, t.doneOf r = (t.flags r).count true

/-- Who is on the roster has reported if it is marked. -/
theorem hasReported_of_lt {r : Role} {i : Nat} (hi : i < (t.flags r).length) :
    t.hasReported ⟨r, i⟩ = (t.flags r)[i] := by
  rw [hasReported_eq, List.getD_eq_getElem?_getD, List.getElem?_eq_getElem hi, Option.getD_some]

/-- A slot that is not on the roster counts as having reported. -/
theorem lt_of_unreported {s : Slot} (hs : t.hasReported s = false) :
    s.index < (t.flags s.role).length := by
  by_contra hge
  rw [hasReported_eq, List.getD_eq_getElem?_getD,
    List.getElem?_eq_none (Nat.le_of_not_lt hge)] at hs
  cases hs

/-- Who has reported determines the flags of a roster. -/
theorem flags_eq {r : Role} (hlen : (t'.flags r).length = (t.flags r).length)
    (h : ∀ s, t'.hasReported s = t.hasReported s) : t'.flags r = t.flags r := by
  apply List.ext_getElem hlen
  intro i hi' hi
  rw [← hasReported_of_lt hi', ← hasReported_of_lt hi, h]

/-- A tally that waits for somebody is that of a trial that is running. -/
theorem Open.running (ho : t.Open) {s : Slot} (hs : t.hasReported s = false) :
    t.phase = .running := by
  cases hph : t.phase with
  | ready => exact absurd hph ho.begun
  | running => rfl
  | complete =>
    -- as many are counted as there are
    obtain ⟨-, hall⟩ := ho.balanced.complete.mp hph
    rw [hasReported_of_count ((ho.counted s.role).symm.trans (hall s.role))] at hs
    cases hs

/-- The trial is complete exactly if all on the roster have reported. -/
theorem Open.complete_iff (ho : t.Open) :
    t.phase = .complete ↔ ∀ s, t.hasReported s = true := by
  constructor
  · intro hph s
    obtain ⟨-, hall⟩ := ho.balanced.complete.mp hph
    exact hasReported_of_count ((ho.counted s.role).symm.trans (hall s.role))
  · intro hall
    rw [ho.balanced.complete]
    refine ⟨ho.begun, fun r => ?_⟩
    rw [ho.counted, List.count_eq_length]
    intro f hf
    obtain ⟨i, hi, rfl⟩ := List.getElem_of_mem hf
    have hrep := hall ⟨r, i⟩
    rw [hasReported_of_lt hi] at hrep
    exact hrep.symm

/-- Who has reported determines the phase. -/
theorem Open.phase_eq (ho : t.Open) (ho' : t'.Open)
    (h : ∀ s, t'.hasReported s = t.hasReported s) : t'.phase = t.phase := by
  have hiff : t'.phase = .complete ↔ t.phase = .complete := by
    rw [ho.complete_iff, ho'.complete_iff]
    simp only [h]
  cases hph : t.phase with
  | ready => exact absurd hph ho.begun
  | complete => exact hiff.mpr hph
  | running =>
    cases hph' : t'.phase with
    | ready => exact absurd hph' ho'.begun
    | running => rfl
    | complete =>
      rw [hiff.mp hph'] at hph
      cases hph

end Tally

/-! ## Runs -/

variable {U S : Type} {work : U → S → U × S} {freeze : FreezeScope} {shared : S}
  {h : History U S} {m m' : Machine U S} {e : Machine.Event U}

namespace Machine

/-- A worker whose report is being delivered is not counted yet. -/
theorem Coherent.doneOf_lt (hc : m.Coherent) {s : Slot} {w : Worker U} (hw : m.worker? s = some w)
    {trial done : Nat} (hp : w.point = .freezing trial done []) :
    m.tally.doneOf s.role < (m.tally.flags s.role).length := by
  have hcount := hc.count_flags s.role
  rw [delivering_of_lock (hc.lock_of_freezing hw hp) (point?_of_worker? hw), hp] at hcount
  have hle : (m.tally.flags s.role).count true ≤ (m.tally.flags s.role).length :=
    List.count_le_length
  simp at hcount
  omega

theorem Coherent.balanced_move (hc : m.Coherent) (hb : m.tally.Balanced) (hm : Move work m e m') :
    m'.tally.Balanced := by
  cases hm with
  | accept => simpa using hb.mark _
  | count hw hp =>
    simpa using hb.count (hc.running_of_freezing hw hp) (hc.doneOf_lt hw hp) _ _
  | begin hcall =>
    -- whoever asks for a trial has a writer for it
    obtain ⟨hl, hw⟩ := hc.asked _ _ (.inr hcall)
    have hflags : m.tally.flags .writer ≠ [] := by
      rw [← List.length_pos_iff, hc.length_flags hl]
      exact List.length_pos_of_ne_nil hw
    simpa using Tally.Balanced.begun hflags m.clock
  | endReset => simpa using Tally.Balanced.reset m.tally
  | launch => exact .fresh _ _
  | _ => simpa using hb

end Machine

theorem Run.balanced (run : Run work (.empty freeze shared) h m) : m.tally.Balanced := by
  induction run with
  | start => exact .fresh 0 0
  | next run hs ih => exact run.coherent.balanced_move ih (.of_step hs)

/-- As many workers are counted as have reported while nobody has the lock. -/
theorem Run.doneOf_eq (run : Run work (.empty freeze shared) h m) (hl : m.lock = none) (r : Role) :
    m.tally.doneOf r = (m.tally.flags r).count true := by
  rw [run.coherent.count_flags r, Machine.delivering_eq_zero (by simp [hl]), Nat.add_zero]

theorem Run.opened (run : Run work (.empty freeze shared) h m) (hl : m.lock = none)
    (hph : m.tally.phase ≠ .ready) : m.tally.Open :=
  ⟨run.balanced, hph, run.doneOf_eq hl⟩

end SpeedTrial.Trial
