import SpeedTrial.Proofs.Stream.Words
import Mathlib.Algebra.BigOperators.Group.Finset.Basic
import Mathlib.Algebra.Order.BigOperators.Group.Finset
import Mathlib.Algebra.Order.Group.Multiset
import Mathlib.Data.Multiset.Range

/-!
# The words of strided counters

The counters of several writers hand out the numbers below a bound between them, each of them once:
a writer has those that leave its index as the remainder.

* `words_sequential`: the words of one writer.
* `sum_strides`: all numbers, taken together by remainder.
-/

namespace SpeedTrial.Stream

open Supply (words after)

variable {i W : Nat}

/-- The counter of a writer after so many words. -/
theorem after_sequential (hW : 0 < W) (hlt : W < 2 ^ 64) (seed : UInt64) (n : Nat) :
    after n (Source.forWriter .sequential i W seed) =
      .strided ⟨.ofNat i, .ofNat W, .ofNat (i + n * W)⟩ := by
  have hstride : UInt64.ofNat W ≠ 0 := by
    intro hzero
    have hnat := congrArg UInt64.toNat hzero
    rw [UInt64.toNat_ofNat_of_lt' (by simpa using hlt)] at hnat
    simp at hnat
    omega
  induction n with
  | zero => simp [Source.forWriter, Strided.forWriter, Strided.new, hstride]
  | succ n ih =>
    rw [Supply.after_succ, ih]
    simp [Supply.next, Source.next, Strided.next, Nat.succ_mul, ← Nat.add_assoc, UInt64.ofNat_add]

theorem words_sequential (hW : 0 < W) (hlt : W < 2 ^ 64) (seed : UInt64) (n : Nat) :
    words n (Source.forWriter .sequential i W seed) =
      (List.range n).map fun k => UInt64.ofNat (i + k * W) := by
  induction n with
  | zero => rfl
  | succ n ih =>
    rw [Supply.words_succ, ih, after_sequential hW hlt, List.range_succ, List.map_append]
    rfl

/-- Words that stay below the bound do not wrap around. -/
theorem toNat_words_sequential (hW : 0 < W) (hlt : W < 2 ^ 64) (seed : UInt64) {n : Nat}
    (hn : ∀ k < n, i + k * W < 2 ^ 64) :
    (words n (Source.forWriter .sequential i W seed)).map UInt64.toNat =
      (List.range n).map fun k => i + k * W := by
  rw [words_sequential hW hlt, List.map_map]
  refine List.map_congr_left fun k hk => ?_
  exact UInt64.toNat_ofNat_of_lt' (by simpa using hn k (List.mem_range.mp hk))

/-- Every number below a multiple of the stride is some remainder and some strides. -/
theorem sum_strides (W q : Nat) :
    ∑ i ∈ Finset.range W, (((List.range q).map fun k => i + k * W : List Nat) : Multiset Nat) =
      Multiset.range (W * q) := by
  induction q with
  | zero => simp
  | succ q ih =>
    -- one more round of the writers, each of which hands out one number more
    have hround : ∑ i ∈ Finset.range W, ({i + q * W} : Multiset Nat) =
        (Multiset.range W).map (W * q + ·) := by
      rw [← Multiset.sum_map_singleton ((Multiset.range W).map _), Multiset.map_map, Nat.mul_comm W]
      simp only [Function.comp_def, Nat.add_comm (q * W)]
      rfl
    calc
      ∑ i ∈ Finset.range W,
          (((List.range (q + 1)).map fun k => i + k * W : List Nat) : Multiset Nat)
        = ∑ i ∈ Finset.range W,
            ((((List.range q).map fun k => i + k * W : List Nat) : Multiset Nat) + {i + q * W}) := by
          refine Finset.sum_congr rfl fun i _ => ?_
          rw [List.range_succ, List.map_append, ← Multiset.coe_add]
          rfl
      _ = Multiset.range (W * q) + (Multiset.range W).map (W * q + ·) := by
          rw [Finset.sum_add_distrib, ih, hround]
      _ = Multiset.range (W * (q + 1)) := by rw [Nat.mul_succ, Multiset.range_add]

/-- Writers that hand out no more than that hand out different numbers. -/
theorem sum_strides_le {n : Nat → Nat} {q : Nat} (hn : ∀ i < W, n i ≤ q) :
    ∑ i ∈ Finset.range W, (((List.range (n i)).map fun k => i + k * W : List Nat) : Multiset Nat) ≤
      Multiset.range (W * q) := by
  rw [← sum_strides]
  refine Finset.sum_le_sum fun i hi => ?_
  exact ((List.range_sublist.mpr (hn i (Finset.mem_range.mp hi))).map _).subperm

end SpeedTrial.Stream
