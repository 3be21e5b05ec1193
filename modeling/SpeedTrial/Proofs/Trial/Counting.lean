import SpeedTrial.Trial.Tally
import Mathlib.Data.List.Basic

/-!
# The tally role by role

A tally keeps the same three things for writers and for readers: a flag for each worker, how many
are counted, and their units.  Here each operation on a tally is described once for both roles.

Main statement: `phase_count` says that a count completes the trial exactly if it makes the number
of counted workers that of the roster in both roles.
-/

namespace SpeedTrial.Trial

namespace Tally

/-- Which workers of a role have reported. -/
def flags (t : Tally) : Role → List Bool
  | .writer => t.writerReported
  | .reader => t.readerReported

/-- How many workers of a role are counted. -/
def doneOf (t : Tally) : Role → Nat
  | .writer => t.doneWriters
  | .reader => t.doneReaders

/-- The units counted for a role. -/
def opsOf (t : Tally) : Role → Nat
  | .writer => t.writerOps
  | .reader => t.readerOps

theorem hasReported_eq (t : Tally) (s : Slot) :
    t.hasReported s = (t.flags s.role).getD s.index true := by
  obtain ⟨r, i⟩ := s
  cases r <;> rfl

theorem accepts_iff (t : Tally) (s : Slot) (trial : Nat) :
    t.accepts s trial = true ↔
      t.phase = .running ∧ trial = t.trial ∧ t.hasReported s = false := by
  simp [accepts, eq_comm (a := t.trial), and_assoc]

/-! ## Marking -/

section mark

variable (t : Tally) (s : Slot)

@[simp] theorem trial_mark : (t.mark s).trial = t.trial := by
  unfold mark; split <;> rfl

@[simp] theorem phase_mark : (t.mark s).phase = t.phase := by
  unfold mark; split <;> rfl

@[simp] theorem doneWriters_mark : (t.mark s).doneWriters = t.doneWriters := by
  unfold mark; split <;> rfl

@[simp] theorem doneOf_mark (r : Role) : (t.mark s).doneOf r = t.doneOf r := by
  unfold mark; split <;> cases r <;> rfl

@[simp] theorem opsOf_mark (r : Role) : (t.mark s).opsOf r = t.opsOf r := by
  unfold mark; split <;> cases r <;> rfl

@[simp] theorem flags_mark (r : Role) :
    (t.mark s).flags r = if r = s.role then (t.flags r).set s.index true else t.flags r := by
  obtain ⟨rs, i⟩ := s
  cases rs <;> cases r <;> rfl

@[simp] theorem hasReported_mark (s' : Slot) :
    (t.mark s).hasReported s' = (decide (s' = s) || t.hasReported s') := by
  obtain ⟨r, i⟩ := s
  obtain ⟨r', i'⟩ := s'
  simp only [hasReported_eq, flags_mark, Slot.mk.injEq]
  -- the flag of the slot is set, and a slot that is not on the roster counts as set before
  by_cases hr : r' = r
  · subst hr
    by_cases hi : i' = i
    · subst hi
      simp only [if_true, and_self, decide_true, Bool.true_or]
      rw [List.getD_eq_getElem?_getD, List.getElem?_set_self']
      cases (t.flags r')[i']? <;> rfl
    · simp [hi, List.getD_eq_getElem?_getD, List.getElem?_set_ne (Ne.symm hi)]
  · simp [hr]

end mark

/-- One more worker has reported. -/
theorem count_flags_mark {t : Tally} {s : Slot} (h : t.hasReported s = false) (r : Role) :
    ((t.mark s).flags r).count true =
      (t.flags r).count true + if r = s.role then 1 else 0 := by
  rw [flags_mark]
  by_cases hr : r = s.role
  · subst hr
    rw [hasReported_eq, List.getD_eq_getElem?_getD] at h
    -- a slot that is not on the roster counts as having reported
    have hlt : s.index < (t.flags s.role).length := by
      by_contra hge
      simp [List.getElem?_eq_none (Nat.le_of_not_lt hge)] at h
    rw [List.getElem?_eq_getElem hlt, Option.getD_some] at h
    simp only [if_true, List.count_set hlt, h]
    simp
  · simp [hr]

/-- If as many workers are marked as there are, then all are. -/
theorem hasReported_of_count {t : Tally} {s : Slot}
    (h : (t.flags s.role).count true = (t.flags s.role).length) : t.hasReported s = true := by
  -- a count that is as long as the list leaves no flag that is not set
  rw [hasReported_eq, List.getD_eq_getElem?_getD]
  cases hs : (t.flags s.role)[s.index]? with
  | none => rfl
  | some f => exact (List.count_eq_length.mp h f (List.mem_of_getElem? hs)).symm

/-! ## Counting -/

section count

variable (t : Tally) (now : Nat) (s : Slot) (units : Nat)

@[simp] theorem trial_count : (t.count now s units).trial = t.trial := by
  unfold count add; cases s.role <;> simp only <;> split <;> split <;> rfl

@[simp] theorem flags_count (r : Role) : (t.count now s units).flags r = t.flags r := by
  unfold count add; cases s.role <;> simp only <;> split <;> split <;> cases r <;> rfl

@[simp] theorem hasReported_count (s' : Slot) :
    (t.count now s units).hasReported s' = t.hasReported s' := by
  simp [hasReported_eq]

@[simp] theorem doneOf_count (r : Role) :
    (t.count now s units).doneOf r = t.doneOf r + if r = s.role then 1 else 0 := by
  unfold count add; cases s.role <;> simp only <;> split <;> split <;> cases r <;> rfl

@[simp] theorem opsOf_count (r : Role) :
    (t.count now s units).opsOf r = t.opsOf r + if r = s.role then units else 0 := by
  unfold count add; cases s.role <;> simp only <;> split <;> split <;> cases r <;> rfl

theorem phase_count :
    (t.count now s units).phase =
      if (t.count now s units).doneOf .writer = (t.flags .writer).length ∧
          (t.count now s units).doneOf .reader = (t.flags .reader).length then .complete
      else t.phase := by
  rw [doneOf_count, doneOf_count]
  obtain ⟨r, i⟩ := s
  cases r with
  | writer =>
    -- the last writer also stops the clock, which is of no account here
    by_cases hw : t.doneWriters + 1 = t.writerReported.length <;>
      by_cases hr : t.doneReaders = t.readerReported.length <;>
      simp [count, add, doneOf, flags, writersDone, readersDone, hw, hr]
  | reader =>
    by_cases hw : t.doneWriters = t.writerReported.length <;>
      by_cases hr : t.doneReaders + 1 = t.readerReported.length <;>
      simp [count, add, doneOf, flags, writersDone, readersDone, hw, hr]

theorem phase_count_or :
    (t.count now s units).phase = t.phase ∨ (t.count now s units).phase = .complete := by
  rw [phase_count]
  split
  · exact .inr rfl
  · exact .inl rfl

end count

/-! ## Beginning and resetting -/

section cleared

variable (t : Tally) (now : Nat) (r : Role)

@[simp] theorem trial_begun : (t.begun now).trial = t.trial + 1 := rfl

@[simp] theorem phase_begun : (t.begun now).phase = .running := rfl

@[simp] theorem trial_reset : t.reset.trial = t.trial := rfl

@[simp] theorem phase_reset : t.reset.phase = .ready := rfl

@[simp] theorem flags_begun : (t.begun now).flags r = (t.flags r).map fun _ => false := by
  cases r <;> rfl

@[simp] theorem flags_reset : t.reset.flags r = (t.flags r).map fun _ => false := by
  cases r <;> rfl

@[simp] theorem doneOf_begun : (t.begun now).doneOf r = 0 := by cases r <;> rfl

@[simp] theorem doneOf_reset : t.reset.doneOf r = 0 := by cases r <;> rfl

@[simp] theorem opsOf_begun : (t.begun now).opsOf r = 0 := by cases r <;> rfl

@[simp] theorem opsOf_reset : t.reset.opsOf r = 0 := by cases r <;> rfl

theorem hasReported_begun {s : Slot} (h : s.index < (t.flags s.role).length) :
    (t.begun now).hasReported s = false := by
  simp [hasReported_eq, List.getD_eq_getElem?_getD, h]

theorem hasReported_reset {s : Slot} (h : s.index < (t.flags s.role).length) :
    t.reset.hasReported s = false := by
  simp [hasReported_eq, List.getD_eq_getElem?_getD, h]

theorem hasReported_fresh {s : Slot} {writers readers : Nat}
    (h : s.index < ((fresh writers readers).flags s.role).length) :
    (fresh writers readers).hasReported s = false := by
  obtain ⟨r, i⟩ := s
  cases r <;> simp_all [hasReported, fresh, flags, List.getD_eq_getElem?_getD]

end cleared

end Tally

end SpeedTrial.Trial
