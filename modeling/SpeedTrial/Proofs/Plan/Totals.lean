import SpeedTrial.Plan.Basic
import Mathlib.Algebra.GroupWithZero.Nat

/-!
# The totals of a plan

A plan counts its trials and updates in words, and there are totals exactly if the words are enough.
-/

namespace SpeedTrial.Plan

open SpeedTrial.Numeric

section axis

variable {s : Steps} {perOctave limit last v : Nat}

theorem pointsAfter_of_le (h : limit ≤ last) : pointsAfter s perOctave limit last = [] := by
  rw [pointsAfter, if_neg (Nat.not_lt.mpr h)]

theorem pointsAfter_of_some (h : last < limit) (hnext : s.next? perOctave last = some v) :
    pointsAfter s perOctave limit last = v :: pointsAfter s perOctave limit v := by
  rw [pointsAfter, if_pos h]
  split
  · next w hw =>
    rw [hnext] at hw
    cases hw
    rfl
  · next hnone =>
    rw [hnext] at hnone
    cases hnone

end axis

namespace SweepPlan

/-- All trials of a sweep. -/
def trialCount (p : SweepPlan) : Nat := (p.points.map p.trialsAt).sum

/-- All updates of a sweep. -/
def updateCount (p : SweepPlan) : Nat := (p.points.map fun u => p.trialsAt u * u).sum

/-- A computation over a list that fails has failed at one of its members. -/
theorem exists_of_foldlM_error {ε α β : Type} {f : β → α → Except ε β} {xs : List α} {b : β} {e : ε}
    (h : xs.foldlM f b = .error e) : ∃ x ∈ xs, ∃ b', f b' x = .error e := by
  induction xs generalizing b with
  | nil => cases h
  | cons x xs ih =>
    rw [List.foldlM_cons] at h
    cases hstep : f b x with
    | error e' =>
      rw [hstep] at h
      cases h
      exact ⟨x, List.mem_cons_self .., b, hstep⟩
    | ok b' =>
      rw [hstep] at h
      obtain ⟨y, hy, hfail⟩ := ih h
      exact ⟨y, List.mem_cons_of_mem _ hy, hfail⟩

/-- One more point is counted exactly if the sums with it are words. -/
theorem addPoint_eq_ok_iff (p : SweepPlan) {t t' : Nat × Nat} {u : Nat} :
    p.addPoint t u = .ok t' ↔ (t.1 + p.trialsAt u < 2 ^ 64 ∧ t.2 + p.trialsAt u * u < 2 ^ 64) ∧
      t' = (t.1 + p.trialsAt u, t.2 + p.trialsAt u * u) := by
  have hlimit : wordLimit = 2 ^ 64 := rfl
  simp only [addPoint, bind_eq_ok_iff, checkedAdd_eq_ok_iff, checkedMul_eq_ok_iff, hlimit,
    pure, Except.pure, Except.ok.injEq]
  constructor
  · rintro ⟨_, ⟨rfl, htrials⟩, _, ⟨rfl, -⟩, _, ⟨rfl, hupdates⟩, rfl⟩
    exact ⟨⟨htrials, hupdates⟩, rfl⟩
  · rintro ⟨⟨htrials, hupdates⟩, rfl⟩
    -- the product is a part of the sum
    exact ⟨_, ⟨rfl, htrials⟩, _, ⟨rfl, by omega⟩, _, ⟨rfl, hupdates⟩, rfl⟩

theorem foldlM_addPoint_eq_ok_iff (p : SweepPlan) {points : List Nat} {t t' : Nat × Nat}
    (htrials : t.1 < 2 ^ 64) (hupdates : t.2 < 2 ^ 64) :
    points.foldlM p.addPoint t = .ok t' ↔
      (t.1 + (points.map p.trialsAt).sum < 2 ^ 64 ∧
        t.2 + (points.map fun u => p.trialsAt u * u).sum < 2 ^ 64) ∧
      t' = (t.1 + (points.map p.trialsAt).sum,
        t.2 + (points.map fun u => p.trialsAt u * u).sum) := by
  induction points generalizing t with
  | nil =>
    have hsame : (Except.ok t : Except Overflow (Nat × Nat)) = .ok t' ↔ t' = t := by simp [eq_comm]
    simpa [pure, Except.pure, hsame] using fun _ : t' = t => And.intro htrials hupdates
  | cons u points ih =>
    rw [List.foldlM_cons, bind_eq_ok_iff]
    simp only [addPoint_eq_ok_iff, List.map_cons, List.sum_cons, ← Nat.add_assoc]
    constructor
    · rintro ⟨_, ⟨⟨h₁, h₂⟩, rfl⟩, hrest⟩
      exact (ih h₁ h₂).mp hrest
    · intro hrest
      -- every sum on the way is at most the whole one
      have h₁ := Nat.lt_of_le_of_lt (Nat.le_add_right _ _) hrest.1.1
      have h₂ := Nat.lt_of_le_of_lt (Nat.le_add_right _ _) hrest.1.2
      exact ⟨_, ⟨⟨h₁, h₂⟩, rfl⟩, (ih h₁ h₂).mpr hrest⟩

/-- There are totals exactly if the sums are words, and then they are these sums. -/
theorem totals_eq_ok_iff (p : SweepPlan) {t : Nat × Nat} :
    p.totals = .ok t ↔ (p.trialCount < 2 ^ 64 ∧ p.updateCount < 2 ^ 64) ∧
      t = (p.trialCount, p.updateCount) := by
  have hfold : p.points.foldlM p.addPoint (0, 0) = .ok t ↔ _ :=
    p.foldlM_addPoint_eq_ok_iff (by decide) (by decide)
  simp only [Nat.zero_add] at hfold
  exact hfold

end SweepPlan

end SpeedTrial.Plan
