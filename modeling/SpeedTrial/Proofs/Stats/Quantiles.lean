import SpeedTrial.Proofs.Numeric.WholeNumbers
import SpeedTrial.Proofs.Stats.Bins
import SpeedTrial.Stats.Point

/-!
# The quantiles of a row

The median and the extremes of a row are answers of a histogram.  What a trial is counted as stands in some
place of the sorted list of these values, and the answers come from the bins of three places: the first, the
last and the lower one of the two in the middle.

* `rankOf_half` says that the rank of the median, which is computed with doubles, is exact.
* `counted_histogram` says what the histogram of a row has counted.
* `quantiles_are_accurate` bounds the three answers by the values in the three places.
-/

namespace SpeedTrial.Stats

open SpeedTrial.Numeric Histogram

/-! ## How far a bin reaches -/

section accuracy

variable {v : Nat} (h : v ≠ 0)

include h

theorem lowest_accurate : lowest v ≤ v ∧ (v : ℚ) < lowest v * (1 + 1 / 1024) := by
  have hlt : (1024 : ℚ) * v < 1025 * lowest v := by exact_mod_cast mul_lt_mul_lowest h
  exact ⟨lowest_le v, by linarith⟩

theorem highest_accurate : v ≤ highest v ∧ (highest v : ℚ) < v * (1 + 1 / 1024) := by
  have hlt : (1024 : ℚ) * highest v < 1025 * v := by exact_mod_cast mul_highest_lt_mul h
  exact ⟨le_highest v, by linarith⟩

end accuracy

/-! ## The rank of the median -/

/-- Half of a count is a double, and its ceiling is the rank of the lower median. -/
theorem rankOf_half {half : Float} (hhalf : value? half = some (1 / 2)) {n : Nat} (hn : 0 < n)
    (hn' : n ≤ 2 ^ 53) : rankOf half n = (n + 1) / 2 := by
  have hproduct : value? (half * ofCount n) = some (1 / 2 * (n : ℚ)) := by
    have hcount := value?_ofCount_of_le hn'
    have habs : |1 / 2 * (n : ℚ)| = 1 / 2 * n := abs_of_nonneg (by positivity)
    -- 2 ^ 53 itself has one bit more than a product is exact for, but it is twice a smaller number
    rcases Nat.lt_or_eq_of_le hn' with hlt | rfl
    · refine mul_exact hhalf hcount hlt (t := -1) (by norm_num) (by norm_num) ?_
      rw [habs, zpow_neg_one]
      ring
    · refine mul_exact hhalf hcount (k := 2 ^ 52) (t := 0) (by norm_num) (by norm_num) (by norm_num) ?_
      rw [habs]
      norm_num
  have hceil : ⌈1 / 2 * (n : ℚ)⌉₊ = (n + 1) / 2 := by
    refine eq_of_forall_ge_iff fun k => ?_
    rw [Nat.ceil_le, Nat.div_le_iff_le_mul_add_pred two_pos, one_div_mul_eq_div, div_le_iff₀ two_pos]
    have h : n + 1 ≤ 2 * k + (2 - 1) ↔ n ≤ k * 2 := by omega
    rw [h]
    exact_mod_cast Iff.rfl
  unfold rankOf
  rw [ceilToWord_eq hproduct (by positivity), hceil]
  show max (min ((n + 1) / 2) (2 ^ 64 - 1)) 1 = _
  omega

section median

variable {h : Histogram} {vs sorted : List Nat}

/-- The median is the highest value in the bin of the value in the middle of the sorted list. -/
theorem Histogram.Counted.median_eq (hc : Counted h vs) (hperm : sorted.Perm vs)
    (hsorted : sorted.Pairwise (· ≤ ·)) (hlen : vs.length ≤ 2 ^ 53) {v : Nat}
    (hv : sorted[(vs.length + 1) / 2 - 1]? = some v) : h.percentile? 50.0 = some (highest v) := by
  have hpos : 0 < vs.length := by
    obtain ⟨hlt, -⟩ := List.getElem?_eq_some_iff.mp hv
    rw [hperm.length_eq] at hlt
    omega
  have hempty : h.isEmpty = false := by
    rw [hc.isEmpty_eq]
    exact List.isEmpty_eq_false_iff.mpr (List.ne_nil_of_length_pos hpos)
  have hhalf : value? (50.0 / 100.0) = some (1 / 2) := by decide +kernel
  have hbelow : ¬ (50.0 / 100.0 : Float) > 1.0 := by decide +kernel
  have hnonzero : (50.0 / 100.0 == (0.0 : Float)) = false := by decide +kernel
  have hrank : (vs.length + 1) / 2 = (vs.length + 1) / 2 - 1 + 1 := by omega
  unfold percentile?
  simp only [hempty, Bool.false_eq_true, if_false, hbelow, hnonzero]
  rw [hc.size_eq (Nat.le_trans hlen (by decide)), rankOf_half hhalf hpos hlen, hrank,
    hc.binAtRank_eq hperm hsorted, hv]
  exact congrArg some (highest_lowest v)

end median

namespace PointStats

/-- The values that the trials of a row are counted as. -/
def counted (samples : List Sample) : List Nat := samples.map fun s => valueOf s.nanosPerWrite

variable {samples : List Sample}

theorem foldl_record {h : Histogram} {vs : List Nat} (hc : Counted h vs)
    (hlen : vs.length + samples.length ≤ maxWord) :
    Counted (samples.foldl (fun h s => h.record s.nanosPerWrite) h)
      ((counted samples).reverse ++ vs) := by
  induction samples generalizing h vs with
  | nil => exact hc
  | cons s samples ih =>
    rw [List.length_cons] at hlen
    rw [List.foldl_cons, counted, List.map_cons, List.reverse_cons, List.append_assoc]
    exact ih (hc.recordValue (by omega) _) (by simp only [List.singleton_append, List.length_cons]; omega)

/-- The histogram of a row has counted every trial. -/
theorem counted_histogram (hlen : samples.length ≤ maxWord) :
    Counted (histogram samples) (counted samples) := by
  have hlen' : ([] : List Nat).length + samples.length ≤ maxWord := by
    rwa [List.length_nil, Nat.zero_add]
  have hc := foldl_record counted_empty hlen'
  rw [List.append_nil] at hc
  exact ⟨hc.ascending, hc.perm.trans ((List.reverse_perm _).map _)⟩

theorem valueOf_ne_zero (x : Float) : valueOf x ≠ 0 := by
  unfold valueOf
  split
  · have : 0 < maxValue := by decide
    omega
  · decide

section quantiles

variable {sorted : List Nat} {least median greatest : Nat} (hlen : samples.length ≤ 2 ^ 53)
  (hperm : sorted.Perm (counted samples)) (hsorted : sorted.Pairwise (· ≤ ·))
  (hleast : sorted.head? = some least)
  (hmedian : sorted[(samples.length + 1) / 2 - 1]? = some median)
  (hgreatest : sorted.getLast? = some greatest)

include hlen hperm hsorted hleast hmedian hgreatest in
/-- The quantiles of a row are ends of the bins of three values. -/
theorem quantiles_eq (updates : Nat) : (ofSamples updates samples).minNanos = lowest least ∧
    (ofSamples updates samples).medianNanos = highest median ∧
    (ofSamples updates samples).maxNanos = highest greatest := by
  have hcounted := counted_histogram (Nat.le_trans hlen (by decide))
  have hvalues : (counted samples).length = samples.length := List.length_map _
  refine ⟨?_, ?_, ?_⟩
  · show (histogram samples).min?.getD 0 = _
    rw [hcounted.min?_eq hperm hsorted, hleast]
    rfl
  · show ((histogram samples).percentile? 50.0).getD 0 = _
    rw [hcounted.median_eq hperm hsorted (by rwa [hvalues]) (by rwa [hvalues])]
    rfl
  · show (histogram samples).max?.getD 0 = _
    rw [hcounted.max?_eq hperm hsorted, hgreatest]
    rfl

include hsorted hleast hmedian hgreatest in
theorem places_ordered : least ≤ median ∧ median ≤ greatest := by
  have hmem := List.mem_of_getElem? hmedian
  constructor
  · obtain ⟨rest, rfl⟩ := List.head?_eq_some_iff.mp hleast
    rcases List.mem_cons.mp hmem with rfl | hrest
    · exact Nat.le_refl _
    · exact (List.pairwise_cons.mp hsorted).1 _ hrest
  · obtain ⟨front, rfl⟩ := List.getLast?_eq_some_iff.mp hgreatest
    rcases List.mem_append.mp hmem with hfront | hlast
    · exact (List.pairwise_append.mp hsorted).2.2 _ hfront _ (List.mem_singleton_self _)
    · exact (List.mem_singleton.mp hlast).le

end quantiles

theorem exists_places {sorted : List Nat} {n : Nat} (hlength : sorted.length = n) (hpos : 0 < n) :
    ∃ least median greatest, sorted.head? = some least ∧ sorted[(n + 1) / 2 - 1]? = some median ∧
      sorted.getLast? = some greatest := by
  refine ⟨_, _, _, (List.head?_eq_getElem? ..).trans (List.getElem?_eq_getElem ?_),
    List.getElem?_eq_getElem ?_, (List.getLast?_eq_getElem? ..).trans (List.getElem?_eq_getElem ?_)⟩ <;>
  omega

/-- The three quantiles of a row, by the values that its trials are counted as, in ascending order: each is
less than one part in 1024 off the value of its place, the minimum downwards and the other two upwards, and
none is off if all values are below 2048. -/
theorem quantiles_are_accurate (updates : Nat) (samples : List Sample) (hne : samples ≠ [])
    (hlen : samples.length ≤ 2 ^ 53) (sorted : List Nat)
    (hperm : sorted.Perm (samples.map fun s => valueOf s.nanosPerWrite))
    (hsorted : sorted.Pairwise (· ≤ ·)) :
    let row := ofSamples updates samples
    ∃ least median greatest, sorted.head? = some least ∧
      sorted[(samples.length + 1) / 2 - 1]? = some median ∧ sorted.getLast? = some greatest ∧
      (row.minNanos ≤ least ∧ (least : ℚ) < row.minNanos * (1 + 1 / 1024)) ∧
      (median ≤ row.medianNanos ∧ (row.medianNanos : ℚ) < median * (1 + 1 / 1024)) ∧
      (greatest ≤ row.maxNanos ∧ (row.maxNanos : ℚ) < greatest * (1 + 1 / 1024)) ∧
      row.minNanos ≤ row.medianNanos ∧ row.medianNanos ≤ row.maxNanos ∧
      ((∀ v ∈ sorted, v < 2048) →
        row.minNanos = least ∧ row.medianNanos = median ∧ row.maxNanos = greatest) := by
  have hlength : sorted.length = samples.length := by rw [hperm.length_eq, List.length_map]
  obtain ⟨least, median, greatest, hleast, hmedian, hgreatest⟩ :=
    exists_places hlength (List.length_pos_iff.mpr hne)
  obtain ⟨hmin, hmid, hmax⟩ := quantiles_eq hlen hperm hsorted hleast hmedian hgreatest updates
  obtain ⟨hlow, hhigh⟩ := places_ordered hsorted hleast hmedian hgreatest
  have hmemLeast := List.mem_of_head? hleast
  have hmemMedian := List.mem_of_getElem? hmedian
  have hmemGreatest := List.mem_of_getLast? hgreatest
  have hnonzero : ∀ v ∈ sorted, v ≠ 0 := fun v hv => by
    obtain ⟨s, -, rfl⟩ := List.mem_map.mp (hperm.mem_iff.mp hv)
    exact valueOf_ne_zero _
  dsimp only
  rw [hmin, hmid, hmax]
  refine ⟨least, median, greatest, hleast, hmedian, hgreatest,
    lowest_accurate (hnonzero _ hmemLeast), highest_accurate (hnonzero _ hmemMedian),
    highest_accurate (hnonzero _ hmemGreatest), ?_, highest_mono hhigh, fun hsmall => ?_⟩
  · exact Nat.le_trans (lowest_le _) (Nat.le_trans hlow (le_highest _))
  · exact ⟨(lowest_of_lt (hsmall _ hmemLeast)).1, (lowest_of_lt (hsmall _ hmemMedian)).2,
      (lowest_of_lt (hsmall _ hmemGreatest)).2⟩

/-- Three trials, counted as 5000000, 2049 and 2049 nanoseconds per write. -/
def trio : List Sample := [⟨⟨5000000⟩, 1, 0⟩, ⟨⟨2049⟩, 1, 0⟩, ⟨⟨4097⟩, 2, 0⟩]

theorem quantiles_are_accurate_trio : trio ≠ [] ∧ trio.length ≤ 2 ^ 53 ∧
    [2049, 2049, 5000000].Perm (trio.map fun s => valueOf s.nanosPerWrite) ∧
    [2049, 2049, 5000000].Pairwise (· ≤ ·) ∧
    2049 < ((ofSamples 1 trio).minNanos : ℚ) * (1 + 1 / 1024) ∧
    2049 ≤ (ofSamples 1 trio).medianNanos ∧
    ((ofSamples 1 trio).maxNanos : ℚ) < 5000000 * (1 + 1 / 1024) := by
  have hperm : [2049, 2049, 5000000].Perm (trio.map fun s => valueOf s.nanosPerWrite) := by
    decide +kernel
  obtain ⟨least, median, greatest, hleast, hmedian, hgreatest, hmin, hmid, hmax, -⟩ :=
    quantiles_are_accurate 1 trio (by decide) (by decide) _ hperm (by decide)
  obtain rfl : 2049 = least := Option.some.inj hleast
  obtain rfl : 2049 = median := Option.some.inj hmedian
  obtain rfl : 5000000 = greatest := Option.some.inj hgreatest
  exact ⟨by decide, by decide, hperm, by decide, hmin.2, hmid.1, hmax.2⟩

end PointStats

end SpeedTrial.Stats
