import SpeedTrial.Proofs.Stats.Bins
import SpeedTrial.Stats.Point
import Mathlib.Logic.Function.Basic
import Mathlib.Algebra.BigOperators.Group.List.Basic

/-!
# Histograms that are merged

A histogram counts single values, takes over all that another one has counted, and is emptied.  None of this
depends on the order: additions to bins commute, even where a count has reached the largest word, so that a
histogram is known from the values alone that went into it since it was empty, whichever way they came.

* `addTo_comm` and `addTo_addTo` are the two laws of additions to bins.
* `ofValues` is the histogram of a list of values, and `merge?_ofValues` says that a merge appends the lists.
* `Operation.perform_note` is one operation on some histograms, and `performAll_eq` many of them.
* `statistics_ignore_order` says what this means for histograms and for the row of an axis point.
-/

namespace SpeedTrial.Stats

open SpeedTrial.Numeric

namespace Histogram

/-! ## Additions to bins -/

section addTo

variable (bin count bin' count' : Nat) (bins : List (Nat × Nat))

theorem addTo_cons (b n : Nat) : addTo bin count ((b, n) :: bins) =
    if bin < b then (bin, count) :: (b, n) :: bins
    else if bin = b then (b, min (n + count) maxWord) :: bins
    else (b, n) :: addTo bin count bins := rfl

/-- Two additions can change places. -/
theorem addTo_comm :
    addTo bin count (addTo bin' count' bins) = addTo bin' count' (addTo bin count bins) := by
  induction bins with
  | nil =>
    rcases Nat.lt_trichotomy bin bin' with h | rfl | h
    · simp [addTo, h, Nat.lt_asymm h, Nat.ne_of_gt h]
    · simp [addTo, Nat.add_comm]
    · simp [addTo, h, Nat.lt_asymm h, Nat.ne_of_gt h]
  | cons x bins ih =>
    -- a count that is cut off at the largest word is cut off in either order
    obtain ⟨b, n⟩ := x
    grind [addTo]

/-- Two additions to one bin are one. -/
theorem addTo_addTo : addTo bin count (addTo bin count' bins) =
    addTo bin (min (count' + count) maxWord) bins := by
  induction bins with
  | nil => simp [addTo]
  | cons x bins ih =>
    obtain ⟨b, n⟩ := x
    grind [addTo]

end addTo

/-- Adds all counts of some bins to others. -/
def addAll (bins more : List (Nat × Nat)) : List (Nat × Nat) :=
  more.foldl (fun bins (b, n) => addTo b n bins) bins

theorem merge_eq (h other : Histogram) : h.merge other = ⟨addAll h.bins other.bins⟩ := rfl

section addAll

variable (bin count : Nat) (bins more : List (Nat × Nat))

theorem addAll_cons (x : Nat × Nat) : addAll bins (x :: more) = addAll (addTo x.1 x.2 bins) more := rfl

theorem addAll_addTo_left : addAll (addTo bin count bins) more = addTo bin count (addAll bins more) := by
  induction more generalizing bins with
  | nil => rfl
  | cons x more ih =>
    rw [addAll_cons, addAll_cons, addTo_comm, ih]

/-- An addition to the bins that are added is one to the sum. -/
theorem addAll_addTo : addAll bins (addTo bin count more) = addTo bin count (addAll bins more) := by
  induction more generalizing bins with
  | nil => rfl
  | cons x more ih =>
    obtain ⟨b, n⟩ := x
    -- the bin comes first, is there already, or comes later
    rw [addAll_cons, addTo_cons]
    split
    · exact addAll_addTo_left bin count bins ((b, n) :: more)
    · split
      · next heq => rw [addAll_cons, heq, ← addTo_addTo, addAll_addTo_left]
      · rw [addAll_cons, ih]

end addAll

/-! ## Histograms of values -/

section values

variable {h : Histogram} {x y : Float} {xs ys : List Float}

/-- A histogram that has counted these values one by one. -/
def ofValues (xs : List Float) : Histogram := xs.foldl record {}

theorem record_record (h : Histogram) (x y : Float) : (h.record x).record y = (h.record y).record x :=
  congrArg Histogram.mk (addTo_comm ..)

theorem record_ofValues (xs : List Float) (x : Float) : (ofValues xs).record x = ofValues (xs ++ [x]) := by
  rw [ofValues, ofValues, List.foldl_append]
  rfl

/-- The order of the values does not matter. -/
theorem ofValues_eq_of_perm (hperm : xs.Perm ys) : ofValues xs = ofValues ys :=
  hperm.foldl_eq' (fun x _ y _ h => record_record h x y) {}

theorem merge_record (h other : Histogram) (x : Float) :
    h.merge (other.record x) = (h.merge other).record x := by
  rw [merge_eq, merge_eq]
  exact congrArg Histogram.mk (addAll_addTo ..)

theorem merge_foldl_record (h other : Histogram) (xs : List Float) :
    h.merge (xs.foldl record other) = xs.foldl record (h.merge other) := by
  induction xs generalizing other with
  | nil => rfl
  | cons x xs ih => rw [List.foldl_cons, List.foldl_cons, ih, merge_record]

/-- What is merged counts as if it had been counted value by value. -/
theorem merge_ofValues (xs ys : List Float) : (ofValues xs).merge (ofValues ys) = ofValues (xs ++ ys) := by
  have h := merge_foldl_record (ofValues xs) {} ys
  rwa [show (ofValues xs).merge {} = ofValues xs from rfl, ofValues, ← List.foldl_append] at h

/-- Every bin is that of a value. -/
theorem exists_of_mem_bins {b : Nat × Nat} (hb : b ∈ (ofValues xs).bins) :
    ∃ x ∈ xs, b.1 = lowest (valueOf x) := by
  induction xs using List.reverseRecOn generalizing b with
  | nil => cases hb
  | append_singleton xs x ih =>
    rw [ofValues, List.foldl_append] at hb
    rcases mem_addTo hb with heq | ⟨b', hb', heq⟩
    · exact ⟨x, by simp, heq⟩
    · obtain ⟨x', hx', hlow⟩ := ih hb'
      exact ⟨x', List.mem_append_left _ hx', heq.trans hlow⟩

theorem valueOf_le (x : Float) : valueOf x ≤ maxValue := by
  unfold valueOf
  split
  · exact Nat.min_le_right _ _
  · exact Nat.le_refl _

/-- All values that are counted have a bin. -/
theorem max?_ofValues_le (xs : List Float) : (ofValues xs).max?.getD 0 ≤ lastValue := by
  unfold max?
  cases hlast : (ofValues xs).bins.getLast? with
  | none => exact Nat.zero_le _
  | some b =>
    obtain ⟨x, -, hx⟩ := exists_of_mem_bins (List.mem_of_getLast? hlast)
    calc highest b.1 = highest (valueOf x) := by rw [hx, highest_lowest]
      _ ≤ highest maxValue := highest_mono (valueOf_le x)
      _ ≤ lastValue := by decide

/-- Merging never fails between histograms of values. -/
theorem merge?_ofValues (xs ys : List Float) :
    (ofValues xs).merge? (ofValues ys) = some (ofValues (xs ++ ys)) := by
  unfold merge?
  rw [if_pos (max?_ofValues_le ys), merge_ofValues]

end values

/-! ## Some histograms -/

section operations

variable {ι : Type} [DecidableEq ι]

/-- What is done with some histograms. -/
inductive Operation (ι : Type) where
  /-- One of them counts a double. -/
  | record (i : ι) (x : Float)
  /-- The first takes over what the second has counted so far; both may be the same. -/
  | merge (i j : ι)
  /-- One of them is emptied. -/
  | reset (i : ι)

/-- The histograms after an operation, which fails if a merge does. -/
def Operation.perform (hs : ι → Histogram) : Operation ι → Option (ι → Histogram)
  | .record i x => some (Function.update hs i ((hs i).record x))
  | .merge i j => ((hs i).merge? (hs j)).map (Function.update hs i)
  | .reset i => some (Function.update hs i {})

/-- The values that each histogram has counted or taken over since it was empty. -/
def Operation.note (vs : ι → List Float) : Operation ι → ι → List Float
  | .record i x => Function.update vs i (vs i ++ [x])
  | .merge i j => Function.update vs i (vs i ++ vs j)
  | .reset i => Function.update vs i []

/-- The histograms after some operations, one after the other, if none fails. -/
def performAll (ops : List (Operation ι)) : Option (ι → Histogram) :=
  ops.foldlM Operation.perform fun _ => {}

/-- The values in each histogram after some operations. -/
def notes (ops : List (Operation ι)) : ι → List Float := ops.foldl Operation.note fun _ => []

/-- Histograms of values stay such histograms. -/
theorem Operation.perform_note (vs : ι → List Float) (op : Operation ι) :
    op.perform (fun i => ofValues (vs i)) = some fun i => ofValues (op.note vs i) := by
  have hupdate (i : ι) (xs : List Float) : Function.update (fun j => ofValues (vs j)) i (ofValues xs) =
      fun j => ofValues (Function.update vs i xs j) :=
    (Function.comp_update ofValues vs i xs).symm
  cases op with
  | record i x =>
    rw [perform, note, record_ofValues, hupdate]
  | merge i j => rw [perform, note, merge?_ofValues, Option.map_some, hupdate]
  | reset i => exact congrArg some (hupdate i [])

/-- After any operations the histograms are those of their values. -/
theorem performAll_eq (ops : List (Operation ι)) :
    performAll ops = some fun i => ofValues (notes ops i) := by
  have hrun (vs : ι → List Float) : ops.foldlM Operation.perform (fun i => ofValues (vs i)) =
      some fun i => ofValues (ops.foldl Operation.note vs i) := by
    induction ops generalizing vs with
    | nil => rfl
    | cons op ops ih =>
      rw [List.foldlM_cons, op.perform_note]
      exact ih (op.note vs)
  exact hrun fun _ => []

end operations

end Histogram

/-! ## Rows -/

namespace PointStats

theorem histogram_eq_ofValues (samples : List Sample) :
    histogram samples = Histogram.ofValues (samples.map Sample.nanosPerWrite) :=
  List.foldl_map.symm

theorem histogram_eq_of_perm {samples samples' : List Sample} (hperm : samples.Perm samples') :
    histogram samples = histogram samples' := by
  rw [histogram_eq_ofValues, histogram_eq_ofValues]
  exact Histogram.ofValues_eq_of_perm (hperm.map _)

theorem total_eq_of_perm {counts counts' : List Nat} (hperm : counts.Perm counts') :
    total counts = total counts' := by
  rw [Histogram.total_eq, Histogram.total_eq]
  exact hperm.sum_eq

end PointStats

open Histogram in
/-- Statistics know what was measured, but not in which order.  A row has the same count, quantiles and means
for the trials of an axis point in any order, but for the mean of the nanoseconds per write, whose sum is
rounded term by term.  And after any operations on some histograms, none of which fails, each answers as a new
one that counts, one by one and in any order, the values that it has counted or taken over since it was
empty. -/
theorem statistics_ignore_order :
    (∀ (updates : Nat) (samples samples' : List Sample), samples.Perm samples' →
      let row := PointStats.ofSamples updates samples
      let row' := PointStats.ofSamples updates samples'
      row.trials = row'.trials ∧ row.medianNanos = row'.medianNanos ∧ row.minNanos = row'.minNanos ∧
        row.maxNanos = row'.maxNanos ∧ row.meanWrites = row'.meanWrites ∧
        row.meanReads = row'.meanReads ∧ row.meanElapsedNanos = row'.meanElapsedNanos) ∧
    ∀ (ι : Type) [DecidableEq ι] (ops : List (Operation ι)), ∃ hs, performAll ops = some hs ∧
      ∀ (i : ι) (xs : List Float), xs.Perm (notes ops i) →
        let fresh := xs.foldl record {}
        (hs i).size = fresh.size ∧ (hs i).min? = fresh.min? ∧ (hs i).max? = fresh.max? ∧
          (hs i).mean? = fresh.mean? ∧ ∀ p, (hs i).percentile? p = fresh.percentile? p := by
  constructor
  · intro updates samples samples' hperm
    have hhist := PointStats.histogram_eq_of_perm hperm
    have hlen := hperm.length_eq
    have htotal (f : Sample → Nat) : total (samples.map f) = total (samples'.map f) :=
      PointStats.total_eq_of_perm (hperm.map f)
    dsimp only [PointStats.ofSamples]
    rw [hhist, hlen, htotal, htotal, htotal]
    exact ⟨rfl, rfl, rfl, rfl, rfl, rfl, rfl⟩
  · intro ι _ ops
    refine ⟨_, performAll_eq ops, fun i xs hperm => ?_⟩
    have hfresh : ofValues (notes ops i) = xs.foldl record {} := (ofValues_eq_of_perm hperm).symm
    dsimp only
    rw [hfresh]
    exact ⟨rfl, rfl, rfl, rfl, fun _ => rfl⟩

/-- Of two histograms the first counts a value, takes over two and then all three of its own again; the second
is emptied in between. -/
def doubling : List (Histogram.Operation Bool) :=
  [.record true 5.0, .record false 3000.0, .record false 7.0, .merge true false, .reset false,
    .merge true true, .record false 1.0]

open Histogram in
theorem statistics_ignore_order_doubling :
    [(⟨⟨4097⟩, 2, 1⟩ : Sample), ⟨⟨10⟩, 1, 0⟩].Perm [⟨⟨10⟩, 1, 0⟩, ⟨⟨4097⟩, 2, 1⟩] ∧
    (PointStats.ofSamples 2 [⟨⟨4097⟩, 2, 1⟩, ⟨⟨10⟩, 1, 0⟩]).medianNanos =
      (PointStats.ofSamples 2 [⟨⟨10⟩, 1, 0⟩, ⟨⟨4097⟩, 2, 1⟩]).medianNanos ∧
    [5.0, 5.0, 7.0, 7.0, 3000.0, 3000.0].Perm (notes doubling true) ∧
    ∃ hs, performAll doubling = some hs ∧ (hs true).size = 6 ∧ (hs true).percentile? 50.0 = some 7 := by
  obtain ⟨hrows, hhistograms⟩ := statistics_ignore_order
  have hperm : [5.0, 5.0, 7.0, 7.0, 3000.0, 3000.0].Perm (notes doubling true) := by decide +kernel
  obtain ⟨hs, hrun, hanswers⟩ := hhistograms Bool doubling
  obtain ⟨hsize, -, -, -, hpercentile⟩ := hanswers true _ hperm
  refine ⟨.swap .., (hrows 2 _ _ (.swap ..)).2.1, hperm, hs, hrun, hsize.trans ?_,
    (hpercentile 50.0).trans ?_⟩
  · decide +kernel
  · decide +kernel

end SpeedTrial.Stats
