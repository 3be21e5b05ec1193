import SpeedTrial.Sketch.Shared
import SpeedTrial.Proofs.Estimator.Registers
import Mathlib.Algebra.Order.Group.Multiset
import Mathlib.Algebra.BigOperators.Group.Finset.Basic
import Mathlib.Data.Finset.Lattice.Fold

/-!
# Readings of an accumulator

Words come into an accumulator one by one or with another accumulator, from several writers in any
order.  A `Reading` is what can be said of an accumulator if it is known which words are in it, but
not how they got there.

* `Reading.record`: the record of all insertions has each word as often as it was inserted.
* `Reading.registers`: the registers of an estimator are the largest ranks of its words, and up to
  the limit of the list its estimate is the number of distinct codes.
-/

namespace SpeedTrial

/-- What is known of an accumulator that has these words in it. -/
structure Reading (E : Type) [Accumulator E] where
  Holds : E → Multiset UInt64 → Prop
  empty : Holds Accumulator.empty 0
  insert : ∀ {e : E} {ws : Multiset UInt64} (w : UInt64), Holds e ws →
    Holds (Accumulator.insert e w) (ws + {w})
  merge : ∀ {e e' : E} {ws ws' : Multiset UInt64}, Holds e ws → Holds e' ws' →
    Holds (Accumulator.merge e e') (ws + ws')

namespace Reading

/-- Each word is recorded as often as it was inserted. -/
def record : Reading (List UInt64) where
  Holds e ws := (e : Multiset UInt64) = ws
  empty := rfl
  insert w h := by rw [← h]; rfl
  merge h h' := by rw [← h, ← h']; rfl

/-- The codes of words. -/
def codes (ws : Multiset UInt64) : Finset Nat := (ws.map Estimator.code).toFinset

@[simp] theorem codes_zero : codes 0 = ∅ := rfl

@[simp] theorem codes_singleton (w : UInt64) : codes {w} = {Estimator.code w} := rfl

@[simp] theorem codes_add (ws ws' : Multiset UInt64) : codes (ws + ws') = codes ws ∪ codes ws' := by
  simp [codes]

/-- The largest rank that words have in a register. -/
def largest (r : Nat) (ws : Multiset UInt64) : Nat :=
  (ws.map fun w => Estimator.rankIn r (Estimator.code w)).sup

@[simp] theorem largest_zero (r : Nat) : largest r 0 = 0 := rfl

@[simp] theorem largest_singleton (r : Nat) (w : UInt64) :
    largest r {w} = Estimator.rankIn r (Estimator.code w) := by
  simp [largest]

@[simp] theorem largest_add (r : Nat) (ws ws' : Multiset UInt64) :
    largest r (ws + ws') = max (largest r ws) (largest r ws') := by
  simp [largest]

@[simp] theorem largest_sum {ι : Type} (r : Nat) (s : Finset ι) (ws : ι → Multiset UInt64) :
    largest r (∑ i ∈ s, ws i) = s.sup fun i => largest r (ws i) := by
  classical
  induction s using Finset.induction_on with
  | empty => simp
  | insert i s hi ih => rw [Finset.sum_insert hi, largest_add, ih, Finset.sup_insert]

/-- Each register has the largest rank, and the form is that of the distinct codes. -/
def registers : Reading Estimator where
  Holds e ws := (∀ r, e.expanded r = largest r ws) ∧ e.Form (codes ws)
  empty := ⟨fun r => rfl, .empty⟩
  insert w h := by
    obtain ⟨hmax, hform⟩ := h
    rw [codes_add, codes_singleton]
    refine ⟨fun r => ?_, hform.insertCode _⟩
    rw [largest_add, largest_singleton, ← hmax]
    exact Estimator.expanded_insertCode _ r _
  merge h h' := by
    obtain ⟨hmax, hform⟩ := h
    obtain ⟨hmax', hform'⟩ := h'
    rw [codes_add]
    refine ⟨fun r => ?_, hform.merge hform'⟩
    rw [largest_add, ← hmax, ← hmax']
    exact Estimator.expanded_merge _ r _

end Reading

end SpeedTrial
