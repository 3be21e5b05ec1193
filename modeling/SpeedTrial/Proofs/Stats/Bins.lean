import SpeedTrial.Stats.Histogram
import Mathlib.Algebra.Order.BigOperators.Group.List
import Mathlib.Data.List.Induction
import Mathlib.Algebra.Order.Ring.Nat

/-!
# What a histogram has counted

A histogram forgets the values that it counts but for their bins.  Its bins, each written down as often as
it counts, are those of the values in ascending order, and every answer of the histogram can be read off
this list.

* `lowest_mono` says that bins are ordered as the values in them, and `mul_lt_mul_lowest` and
  `mul_highest_lt_mul` how wide they are.
* `expanded` is the list of the bins, and `Histogram.Counted` relates a histogram to the values that it
  counted; `Counted.recordValue` keeps this up.
* `Counted.binAtRank_eq`, `Counted.min?_eq` and `Counted.max?_eq` find the answers in the list.
-/

namespace SpeedTrial.Stats

open SpeedTrial.Numeric

/-! ## Bins of values -/

section bins

variable {u v : Nat}

theorem width_pos (v : Nat) : 0 < width v := Nat.two_pow_pos _

theorem lowest_le (v : Nat) : lowest v ≤ v := Nat.div_mul_le_self v (width v)

theorem lt_lowest_add_width (v : Nat) : v < lowest v + width v :=
  Nat.lt_div_mul_add (width_pos v)

/-- The least value of an octave is the least one of its bin. -/
theorem two_pow_log2_le_lowest (h : v ≠ 0) : 2 ^ v.log2 ≤ lowest v := by
  have hle := Nat.log2_self_le h
  have hdvd : width v ∣ 2 ^ v.log2 := Nat.pow_dvd_pow 2 (Nat.sub_le _ _)
  calc 2 ^ v.log2 = 2 ^ v.log2 / width v * width v := (Nat.div_mul_cancel hdvd).symm
    _ ≤ v / width v * width v := Nat.mul_le_mul_right _ (Nat.div_le_div_right hle)

/-- Values below 2048 have a bin of their own. -/
theorem lowest_of_lt (h : v < 2048) : lowest v = v ∧ highest v = v := by
  have hlog : v.log2 - 10 = 0 := by
    rcases Nat.eq_zero_or_pos v with rfl | hpos
    · rfl
    · have := (Nat.log2_lt (Nat.ne_of_gt hpos)).mpr (show v < 2 ^ 11 from h)
      omega
  have hwidth : width v = 1 := by
    unfold width
    rw [hlog]
  unfold highest lowest
  rw [hwidth]
  omega

/-- From 2048 on a bin is a small part of its lowest value. -/
theorem width_mul_le (h : 2048 ≤ v) : 1024 * width v ≤ lowest v := by
  have hlog : 11 ≤ v.log2 := (Nat.le_log2 (by omega)).mpr h
  have hsplit : 1024 * width v = 2 ^ v.log2 := by
    show 2 ^ 10 * 2 ^ (v.log2 - 10) = 2 ^ v.log2
    rw [← Nat.pow_add]
    congr 1
    omega
  rw [hsplit]
  exact two_pow_log2_le_lowest (by omega)

/-- All values of a bin have the octave and the bin of the lowest one. -/
theorem log2_lowest (v : Nat) : (lowest v).log2 = v.log2 := by
  rcases Nat.eq_zero_or_pos v with rfl | hpos
  · rfl
  · have hlow := two_pow_log2_le_lowest (Nat.ne_of_gt hpos)
    have hpow := Nat.two_pow_pos v.log2
    exact (Nat.log2_eq_iff (by omega)).mpr ⟨hlow, Nat.lt_of_le_of_lt (lowest_le v) Nat.lt_log2_self⟩

theorem width_lowest (v : Nat) : width (lowest v) = width v := by
  unfold width
  rw [log2_lowest]

theorem lowest_lowest (v : Nat) : lowest (lowest v) = lowest v := by
  show lowest v / width (lowest v) * width (lowest v) = lowest v
  rw [width_lowest]
  exact Nat.div_mul_cancel (Nat.dvd_mul_left _ _)

theorem highest_lowest (v : Nat) : highest (lowest v) = highest v := by
  unfold highest
  rw [lowest_lowest, width_lowest]

theorem lowest_mono (h : u ≤ v) : lowest u ≤ lowest v := by
  rcases Nat.eq_zero_or_pos u with rfl | hpos
  · exact Nat.zero_le _
  · rcases Nat.lt_or_ge u.log2 v.log2 with hlt | hge
    · calc lowest u ≤ u := lowest_le u
        _ ≤ 2 ^ (u.log2 + 1) := Nat.lt_log2_self.le
        _ ≤ 2 ^ v.log2 := Nat.pow_le_pow_right Nat.two_pos hlt
        _ ≤ lowest v := two_pow_log2_le_lowest (by omega)
    · have hle : 2 ^ u.log2 ≤ v := Nat.le_trans (Nat.log2_self_le (Nat.ne_of_gt hpos)) h
      have hlog : u.log2 = v.log2 := Nat.le_antisymm ((Nat.le_log2 (by omega)).mpr hle) hge
      unfold lowest width
      rw [hlog]
      exact Nat.mul_le_mul_right _ (Nat.div_le_div_right h)

theorem highest_lt (v : Nat) : highest v < 2 ^ (v.log2 + 1) := by
  have hdvd : width v ∣ 2 ^ (v.log2 + 1) := Nat.pow_dvd_pow 2 (by omega)
  have hlt : v / width v < 2 ^ (v.log2 + 1) / width v :=
    Nat.div_lt_div_of_lt_of_dvd hdvd Nat.lt_log2_self
  have hend : lowest v + width v ≤ 2 ^ (v.log2 + 1) := by
    calc lowest v + width v = (v / width v + 1) * width v := (Nat.succ_mul _ _).symm
      _ ≤ 2 ^ (v.log2 + 1) / width v * width v := Nat.mul_le_mul_right _ hlt
      _ = 2 ^ (v.log2 + 1) := Nat.div_mul_cancel hdvd
  have hpos := width_pos v
  unfold highest
  omega

theorem le_highest (v : Nat) : v ≤ highest v := by
  have hlt := lt_lowest_add_width v
  unfold highest
  omega

theorem lowest_highest (v : Nat) : lowest (highest v) = lowest v := by
  rcases Nat.eq_zero_or_pos v with rfl | hpos
  · rfl
  · have hle := le_highest v
    -- Within a bin the leading bit is the same, so bins of one width tile the numbers of an octave.
    have hlog : (highest v).log2 = v.log2 :=
      (Nat.log2_eq_iff (by omega)).mpr
        ⟨Nat.le_trans (Nat.log2_self_le (by omega)) hle, highest_lt v⟩
    have hwidth := width_pos v
    have hquot : highest v / width v = v / width v := by
      have hsum : highest v = v / width v * width v + (width v - 1) := by
        unfold highest lowest
        omega
      rw [hsum, Nat.add_comm, Nat.add_mul_div_right _ _ hwidth, Nat.div_eq_of_lt (by omega),
        Nat.zero_add]
    have hsame : width (highest v) = width v := by
      unfold width
      rw [hlog]
    show highest v / width (highest v) * width (highest v) = lowest v
    rw [hsame, hquot]
    rfl

theorem highest_mono (h : u ≤ v) : highest u ≤ highest v := by
  by_contra hlt
  -- the highest value of the lower bin would be in a bin above
  have hbins := lowest_mono (Nat.le_of_not_le hlt)
  rw [lowest_highest, lowest_highest] at hbins
  have heq := Nat.le_antisymm (lowest_mono h) hbins
  rw [← highest_lowest u, ← highest_lowest v, heq] at hlt
  exact hlt (Nat.le_refl _)

/-- A value exceeds the lowest one of its bin by less than one part in 1024. -/
theorem mul_lt_mul_lowest (h : v ≠ 0) : 1024 * v < 1025 * lowest v := by
  rcases Nat.lt_or_ge v 2048 with hlt | hge
  · rw [(lowest_of_lt hlt).1]
    omega
  · have h1 := width_mul_le hge
    have h2 := lt_lowest_add_width v
    omega

/-- The highest value of a bin exceeds a value in it by less than one part in 1024. -/
theorem mul_highest_lt_mul (h : v ≠ 0) : 1024 * highest v < 1025 * v := by
  rcases Nat.lt_or_ge v 2048 with hlt | hge
  · rw [(lowest_of_lt hlt).2]
    omega
  · have h1 := width_mul_le hge
    have h2 := lowest_le v
    have h3 := width_pos v
    unfold highest
    omega

end bins

namespace Histogram

/-! ## Bins as often as they count -/

/-- The bins, each as often as it counts. -/
def expanded (bins : List (Nat × Nat)) : List Nat := bins.flatMap fun x => List.replicate x.2 x.1

section expanded

variable {bins : List (Nat × Nat)} {bin count : Nat}

@[simp] theorem expanded_nil : expanded [] = [] := rfl

@[simp] theorem expanded_cons (x : Nat × Nat) (bins : List (Nat × Nat)) :
    expanded (x :: bins) = List.replicate x.2 x.1 ++ expanded bins := rfl

theorem total_eq (counts : List Nat) : total counts = counts.sum :=
  List.sum_eq_foldl.symm

theorem length_expanded (bins : List (Nat × Nat)) :
    (expanded bins).length = total (bins.map Prod.snd) := by
  induction bins with
  | nil => rfl
  | cons x bins ih =>
    rw [total_eq] at ih ⊢
    simp [ih]

/-- Every bin counts something, and the bins rise. -/
structure Ascending (bins : List (Nat × Nat)) : Prop where
  rising : bins.Pairwise fun x y => x.1 < y.1
  positive : ∀ x ∈ bins, 0 < x.2

theorem mem_of_mem_expanded {b : Nat} (h : b ∈ expanded bins) : ∃ x ∈ bins, x.1 = b := by
  obtain ⟨x, hx, hb⟩ := List.mem_flatMap.mp h
  exact ⟨x, hx, (List.eq_of_mem_replicate hb).symm⟩

theorem sorted_expanded (h : bins.Pairwise fun x y => x.1 < y.1) :
    (expanded bins).Pairwise (· ≤ ·) := by
  induction bins with
  | nil => exact .nil
  | cons x bins ih =>
    obtain ⟨hx, hbins⟩ := List.pairwise_cons.mp h
    rw [expanded_cons, List.pairwise_append]
    refine ⟨List.pairwise_replicate.mpr (.inr (Nat.le_refl _)), ih hbins, fun a ha b hb => ?_⟩
    obtain ⟨y, hy, rfl⟩ := mem_of_mem_expanded hb
    rw [List.eq_of_mem_replicate ha]
    exact (hx y hy).le

/-- A bin that is added to comes so many times more, as long as its count is a word. -/
theorem expanded_addTo (hfit : ∀ x ∈ bins, x.2 + count ≤ maxWord) :
    (expanded (addTo bin count bins)).Perm (List.replicate count bin ++ expanded bins) := by
  induction bins with
  | nil => simp [addTo]
  | cons x bins ih =>
    obtain ⟨b, n⟩ := x
    obtain ⟨hn, hbins⟩ := List.forall_mem_cons.mp hfit
    unfold addTo
    split
    · exact List.Perm.refl _
    · split
      · next heq =>
        rw [Nat.min_eq_left hn, heq, expanded_cons, expanded_cons, Nat.add_comm,
          List.replicate_add, List.append_assoc]
      · rw [expanded_cons, expanded_cons]
        refine (List.Perm.append_left _ (ih hbins)).trans ?_
        rw [← List.append_assoc, ← List.append_assoc]
        exact List.Perm.append_right _ List.perm_append_comm

theorem mem_addTo {x : Nat × Nat} (h : x ∈ addTo bin count bins) :
    x.1 = bin ∨ ∃ y ∈ bins, x.1 = y.1 := by
  induction bins with
  | nil =>
    rw [List.mem_singleton.mp h]
    exact .inl rfl
  | cons y bins ih =>
    obtain ⟨b, n⟩ := y
    unfold addTo at h
    split at h
    · rcases List.mem_cons.mp h with rfl | hmem
      · exact .inl rfl
      · exact .inr ⟨x, hmem, rfl⟩
    · split at h
      · rcases List.mem_cons.mp h with rfl | hmem
        · exact .inr ⟨(b, n), List.mem_cons_self, rfl⟩
        · exact .inr ⟨x, List.mem_cons_of_mem _ hmem, rfl⟩
      · rcases List.mem_cons.mp h with rfl | hmem
        · exact .inr ⟨(b, n), List.mem_cons_self, rfl⟩
        · exact (ih hmem).imp_right fun ⟨y, hy, heq⟩ => ⟨y, List.mem_cons_of_mem _ hy, heq⟩

theorem Ascending.addTo (h : Ascending bins) (hcount : 0 < count) :
    Ascending (addTo bin count bins) := by
  induction bins with
  | nil =>
    exact ⟨List.pairwise_singleton _ _, fun x hx => by rwa [List.mem_singleton.mp hx]⟩
  | cons x bins ih =>
    obtain ⟨b, n⟩ := x
    obtain ⟨hb, hrising⟩ := List.pairwise_cons.mp h.rising
    obtain ⟨hn, hpositive⟩ := List.forall_mem_cons.mp h.positive
    unfold Histogram.addTo
    split
    · next hlt =>
      refine ⟨List.pairwise_cons.mpr ⟨fun y hy => ?_, h.rising⟩,
        List.forall_mem_cons.mpr ⟨hcount, h.positive⟩⟩
      rcases List.mem_cons.mp hy with rfl | hmem
      · exact hlt
      · exact Nat.lt_trans hlt (hb y hmem)
    · next hge =>
      split
      · refine ⟨List.pairwise_cons.mpr ⟨hb, hrising⟩,
          List.forall_mem_cons.mpr ⟨?_, hpositive⟩⟩
        exact Nat.lt_min.mpr ⟨Nat.add_pos_left hn _, by decide⟩
      · next hne =>
        have ih := ih ⟨hrising, hpositive⟩
        refine ⟨List.pairwise_cons.mpr ⟨fun y hy => ?_, ih.rising⟩,
          List.forall_mem_cons.mpr ⟨hn, ih.positive⟩⟩
        rcases mem_addTo hy with heq | ⟨z, hz, heq⟩
        · show b < y.1
          omega
        · rw [heq]
          exact hb z hz

/-! ## Ranks -/

/-- The bin that a rank is in is found at this place of the list. -/
theorem binAtRank_eq (before rank : Nat) (bins : List (Nat × Nat)) :
    binAtRank (before + (rank + 1)) before bins = (expanded bins)[rank]? := by
  induction bins generalizing before rank with
  | nil => rfl
  | cons x bins ih =>
    obtain ⟨b, n⟩ := x
    unfold binAtRank
    rw [expanded_cons]
    split
    · next hle =>
      have hlt : rank < n := by omega
      rw [List.getElem?_append_left (by simpa using hlt), List.getElem?_replicate, if_pos hlt]
    · next hgt =>
      have hge : n ≤ rank := by omega
      rw [List.getElem?_append_right (by simpa using hge), List.length_replicate, ← ih]
      congr 1
      omega

/-! ## Ends -/

theorem head?_expanded (h : ∀ x ∈ bins, 0 < x.2) :
    (expanded bins).head? = bins.head?.map Prod.fst := by
  cases bins with
  | nil => rfl
  | cons x bins =>
    obtain ⟨n, hn⟩ := Nat.exists_eq_add_of_lt (h x List.mem_cons_self)
    rw [expanded_cons, hn, Nat.zero_add, List.replicate_succ]
    rfl

theorem getLast?_expanded (h : ∀ x ∈ bins, 0 < x.2) :
    (expanded bins).getLast? = bins.getLast?.map Prod.fst := by
  induction bins using List.reverseRecOn with
  | nil => rfl
  | append_singleton bins x _ =>
    obtain ⟨n, hn⟩ := Nat.exists_eq_add_of_lt (h x (by simp))
    have hsplit : expanded (bins ++ [x]) = expanded bins ++ List.replicate x.2 x.1 := by
      simp [expanded]
    rw [hsplit, hn, Nat.zero_add, List.replicate_succ', ← List.append_assoc,
      List.getLast?_concat, List.getLast?_concat]
    rfl

end expanded

/-! ## What was counted -/

/-- The histogram has counted these values, in some order. -/
structure Counted (h : Histogram) (vs : List Nat) : Prop where
  ascending : Ascending h.bins
  perm : (expanded h.bins).Perm (vs.map lowest)

section counted

variable {h : Histogram} {vs sorted : List Nat}

theorem counted_empty : Counted {} [] :=
  ⟨⟨.nil, fun _ hx => absurd hx List.not_mem_nil⟩, .nil⟩

theorem Counted.total_eq_length (hc : Counted h vs) : total (h.bins.map Prod.snd) = vs.length := by
  rw [← length_expanded, hc.perm.length_eq, List.length_map]

/-- One more value is counted in its bin, as long as the counts are words. -/
theorem Counted.recordValue (hc : Counted h vs) (hfit : vs.length < maxWord) (v : Nat) :
    Counted (h.recordValue v) (v :: vs) := by
  refine ⟨hc.ascending.addTo one_pos, ?_⟩
  have hle : ∀ x ∈ h.bins, x.2 + 1 ≤ maxWord := fun x hx => by
    have hcount := List.le_sum_of_mem (List.mem_map_of_mem (f := Prod.snd) hx)
    rw [← total_eq, hc.total_eq_length] at hcount
    omega
  exact (expanded_addTo hle).trans (.cons _ hc.perm)

theorem Counted.size_eq (hc : Counted h vs) (hfit : vs.length ≤ maxWord) : h.size = vs.length := by
  unfold size
  rw [hc.total_eq_length, Nat.min_eq_left hfit]

theorem Counted.isEmpty_eq (hc : Counted h vs) : h.isEmpty = vs.isEmpty := by
  have hlength := hc.perm.length_eq
  rw [List.length_map] at hlength
  unfold isEmpty
  cases hbins : h.bins with
  | nil =>
    rw [hbins] at hlength
    rw [List.length_eq_zero_iff.mp hlength.symm]
    rfl
  | cons x bins =>
    have hpos := hc.ascending.positive x (by rw [hbins]; exact List.mem_cons_self)
    rw [hbins, expanded_cons, List.length_append, List.length_replicate] at hlength
    cases vs with
    | nil => simp at hlength; omega
    | cons v vs => rfl

/-- The bins, as often as they count, are those of the values in ascending order. -/
theorem Counted.expanded_eq (hc : Counted h vs) (hperm : sorted.Perm vs)
    (hsorted : sorted.Pairwise (· ≤ ·)) : expanded h.bins = sorted.map lowest := by
  have hbins : (sorted.map lowest).Pairwise (· ≤ ·) :=
    hsorted.map lowest fun _ _ hle => lowest_mono hle
  exact (hc.perm.trans (hperm.symm.map lowest)).eq_of_pairwise
    (fun _ _ _ _ => Nat.le_antisymm) (sorted_expanded hc.ascending.rising) hbins

theorem Counted.min?_eq (hc : Counted h vs) (hperm : sorted.Perm vs)
    (hsorted : sorted.Pairwise (· ≤ ·)) : h.min? = sorted.head?.map lowest := by
  unfold min?
  rw [← head?_expanded hc.ascending.positive, hc.expanded_eq hperm hsorted, List.head?_map]

theorem Counted.max?_eq (hc : Counted h vs) (hperm : sorted.Perm vs)
    (hsorted : sorted.Pairwise (· ≤ ·)) : h.max? = sorted.getLast?.map highest := by
  have hlast := getLast?_expanded hc.ascending.positive
  rw [hc.expanded_eq hperm hsorted, List.getLast?_map] at hlast
  have hmax : h.max? = (h.bins.getLast?.map Prod.fst).map highest := by
    rw [Option.map_map]
    rfl
  rw [hmax, ← hlast, Option.map_map]
  congr 1
  exact funext highest_lowest

/-- The bin that a rank is in is that of the value with this rank. -/
theorem Counted.binAtRank_eq (hc : Counted h vs) (hperm : sorted.Perm vs)
    (hsorted : sorted.Pairwise (· ≤ ·)) (rank : Nat) :
    binAtRank (rank + 1) 0 h.bins = sorted[rank]?.map lowest := by
  rw [← List.getElem?_map, ← hc.expanded_eq hperm hsorted, ← Histogram.binAtRank_eq 0, Nat.zero_add]

end counted

end Histogram

end SpeedTrial.Stats
