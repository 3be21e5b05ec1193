import SpeedTrial.Proofs.Plan.Series
import SpeedTrial.Proofs.Plan.Totals

/-!
# The points of an axis

The points of an axis are found one by one, each from the one before.  What is counted here does not need
them to be the very values of the series: they rise, and every one of them is the value of some index.

* `nodup_pointsAfter` and `next_of_mem_pointsAfter` hold of any steps.
* `sum_points_le` bounds the sum of the points by the number of points per octave, and
  `le_length_pointsAfter` bounds their number from below.
-/

namespace SpeedTrial.Plan

open SpeedTrial.Numeric Finset

section points

variable {s : Steps} {perOctave limit last : Nat}

/-- Every point of an axis is above all points before it. -/
theorem lt_of_mem_pointsAfter {v : Nat} (h : v ∈ pointsAfter s perOctave limit last) : last < v := by
  fun_induction pointsAfter s perOctave limit last with
  | case1 last hlt w hw ih =>
    have hstep := Steps.lt_of_next? hw
    rcases List.mem_cons.mp h with rfl | hmem
    · exact hstep
    · exact Nat.lt_trans hstep (ih hmem)
  | case2 => cases h
  | case3 => cases h

theorem nodup_pointsAfter : (pointsAfter s perOctave limit last).Nodup := by
  fun_induction pointsAfter s perOctave limit last with
  | case1 last hlt w hw ih =>
    exact List.nodup_cons.mpr ⟨fun hmem => Nat.lt_irrefl _ (lt_of_mem_pointsAfter hmem), ih⟩
  | case2 => exact List.nodup_nil
  | case3 => exact List.nodup_nil

/-- Every point of an axis is the next one after a number below the limit. -/
theorem next_of_mem_pointsAfter {v : Nat} (h : v ∈ pointsAfter s perOctave limit last) :
    ∃ c, last ≤ c ∧ c < limit ∧ s.next? perOctave c = some v := by
  fun_induction pointsAfter s perOctave limit last with
  | case1 last hlt w hw ih =>
    rcases List.mem_cons.mp h with rfl | hmem
    · exact ⟨last, Nat.le_refl _, hlt, hw⟩
    · obtain ⟨c, hc, hc', hv⟩ := ih hmem
      exact ⟨c, Nat.le_trans (Steps.lt_of_next? hw).le hc, hc', hv⟩
  | case2 => cases h
  | case3 => cases h

/-- Only the last point reaches the limit. -/
theorem sum_pointsAfter_le {bound : Nat}
    (hbound : ∀ c v, last ≤ c → c < limit → s.next? perOctave c = some v → v ≤ bound) :
    (pointsAfter s perOctave limit last).sum ≤
      ((pointsAfter s perOctave limit last).filter (· < limit)).sum + bound := by
  fun_induction pointsAfter s perOctave limit last with
  | case1 last hlt w hw ih =>
    have hstep := Steps.lt_of_next? hw
    rcases Nat.lt_or_ge w limit with hw' | hw'
    · have ih := ih fun c v hc => hbound c v (by omega)
      rw [List.sum_cons, List.filter_cons_of_pos (by simpa using hw'), List.sum_cons]
      omega
    · have hle := hbound last w (Nat.le_refl _) hlt hw
      rw [pointsAfter_of_le hw', List.sum_cons, List.sum_nil]
      omega
  | case2 => exact Nat.zero_le _
  | case3 => exact Nat.zero_le _

end points

/-! ## The sum of the points -/

/-- The powers of two up to `2 ^ n`, with `p` of them per octave. -/
theorem sum_powers_le {p : Nat} (hp : 0 < p) (n : Nat) :
    ∑ j ∈ range (p * n + 1), (2 : ℝ) ^ (j / p : ℝ) ≤ 2 ^ n * (1 + 29 / 20 * p) := by
  have hp0 : (0 : ℝ) < p := by exact_mod_cast hp
  obtain ⟨hlo, hhi⟩ := log_two_bounds
  set q : ℝ := 2 ^ (1 / p : ℝ) with hq
  have hterm : ∀ j : ℕ, (2 : ℝ) ^ (j / p : ℝ) = q ^ j := fun j => by
    rw [hq, ← Real.rpow_natCast, ← Real.rpow_mul two_pos.le, one_div_mul_eq_div]
  have hlast : q ^ (p * n) = 2 ^ n := by
    rw [← hterm, Nat.cast_mul, mul_div_cancel_left₀ _ hp0.ne', Real.rpow_natCast]
  have hstep : Real.log 2 / p ≤ q - 1 := by
    rw [hq, Real.rpow_def_of_pos two_pos, mul_one_div]
    linarith [Real.add_one_le_exp (Real.log 2 / p)]
  have hstep0 : 0 < Real.log 2 / p := div_pos (by linarith) hp0
  have hsum := mul_geom_sum q (p * n + 1)
  rw [pow_succ, hlast] at hsum
  simp only [hterm]
  -- With the step and its inverse bounded, what is left is arithmetic on `S` and `2 ^ n`.
  generalize ∑ j ∈ range (p * n + 1), q ^ j = S at *
  have hM : (1 : ℝ) ≤ 2 ^ n := one_le_pow₀ one_le_two
  -- `S` is `2 ^ n` and the quotient of `2 ^ n - 1` by the step
  have hS : (q - 1) * (S - 2 ^ n) ≤ 2 ^ n := by nlinarith
  have hinv : 1 ≤ 29 / 20 * p * (Real.log 2 / p) := by
    field_simp
    linarith
  by_contra hlt
  have hgt : 2 ^ n * (29 / 20 * p) < S - 2 ^ n := by linarith
  have h1 := mul_lt_mul_of_pos_left hgt hstep0
  have h2 : (Real.log 2 / p) * (S - 2 ^ n) ≤ (q - 1) * (S - 2 ^ n) :=
    mul_le_mul_of_nonneg_right hstep (by nlinarith)
  nlinarith

section sums

variable {p n last : Nat} (hp : 0 < p) (hp' : p ≤ 2 ^ 64) (hn : n ≤ 30) (hlast : 0 < last)

include hp hp' hn hlast

/-- A point below the limit has an index of its own among those of the first `n` octaves. -/
theorem exists_index {v : Nat} (h : v ∈ pointsAfter Steps.binary64 p (2 ^ n) last) (hv : v < 2 ^ n) :
    ∃ j, j ∈ range (p * n + 1) ∧ Steps.binary64.value? p j = some v ∧
      (v : ℝ) ≤ 2 ^ (j / p : ℝ) * (1 + 1 / 2 ^ 40) + 1 / 2 := by
  obtain ⟨c, hc, hc', hnext⟩ := next_of_mem_pointsAfter h
  have hlimit : 2 ^ n ≤ 2 ^ 30 := Nat.pow_le_pow_right two_pos hn
  obtain ⟨j, hj, hj', hvalue, -⟩ := next_spec hp hp' (by omega) (by omega) hnext
  have herr := abs_le.mp (abs_value_sub_le hp hp' hj hj' hvalue)
  have hp0 : (0 : ℝ) < p := by exact_mod_cast hp
  have hv' : (v : ℝ) + 1 ≤ 2 ^ n := by exact_mod_cast hv
  have hlimit' : (2 : ℝ) ^ n ≤ 2 ^ 30 := by exact_mod_cast hlimit
  refine ⟨j, ?_, hvalue, by linarith [herr.2]⟩
  -- Were the power above the limit, the value would be, too: it is off by much less than one.
  have hpower : (2 : ℝ) ^ (j / p : ℝ) ≤ 2 ^ (n : ℝ) := by
    rw [Real.rpow_natCast]
    by_contra hgt
    nlinarith [herr.1]
  have hquot : (j / p : ℝ) ≤ n := (Real.rpow_le_rpow_left_iff one_lt_two).mp hpower
  rw [div_le_iff₀ hp0] at hquot
  have hle : j ≤ n * p := by exact_mod_cast hquot
  rw [mem_range, Nat.mul_comm]
  omega

/-- The points below the limit are different, and so are their indices. -/
theorem sum_below_limit_le :
    (((pointsAfter Steps.binary64 p (2 ^ n) last).filter (· < 2 ^ n)).sum : ℝ) ≤
      2 ^ n * (1 + 29 / 20 * p) * (1 + 1 / 2 ^ 40) + 2 ^ n / 2 := by
  set points := (pointsAfter Steps.binary64 p (2 ^ n) last).filter (· < 2 ^ n) with hpoints
  have hnodup : points.Nodup := nodup_pointsAfter.filter _
  have hmem : ∀ v ∈ points.toFinset, ∃ j, j ∈ range (p * n + 1) ∧
      Steps.binary64.value? p j = some v ∧
      (v : ℝ) ≤ 2 ^ (j / p : ℝ) * (1 + 1 / 2 ^ 40) + 1 / 2 := fun v hv => by
    rw [List.mem_toFinset, hpoints, List.mem_filter] at hv
    exact exists_index hp hp' hn hlast hv.1 (by simpa using hv.2)
  -- Every point gets an index; two points of one index would have one value.
  choose! index hindex hvalue hle using hmem
  have hinj : Set.InjOn index points.toFinset := fun v hv w hw hvw => by
    have h := hvalue v hv
    rw [hvw, hvalue w hw] at h
    exact (Option.some.inj h).symm
  have hcard : points.toFinset.card ≤ 2 ^ n := by
    refine le_trans (card_le_card (t := range (2 ^ n)) fun v hv => ?_) (card_range _).le
    rw [List.mem_toFinset, hpoints, List.mem_filter] at hv
    exact mem_range.mpr (by simpa using hv.2)
  have hsum : (points.sum : ℝ) = ∑ v ∈ points.toFinset, (v : ℝ) := by
    rw [← Nat.cast_sum, List.sum_toFinset _ hnodup, List.map_id']
  have himage : ∑ v ∈ points.toFinset, (2 : ℝ) ^ (index v / p : ℝ) ≤
      ∑ j ∈ range (p * n + 1), (2 : ℝ) ^ (j / p : ℝ) := by
    rw [← sum_image (f := fun j : ℕ => (2 : ℝ) ^ (j / p : ℝ)) hinj]
    refine sum_le_sum_of_subset_of_nonneg (fun j hj => ?_) fun j _ _ => by positivity
    obtain ⟨v, hv, rfl⟩ := mem_image.mp hj
    exact hindex v hv
  have hcard' : (points.toFinset.card : ℝ) ≤ 2 ^ n := by exact_mod_cast hcard
  calc (points.sum : ℝ) = ∑ v ∈ points.toFinset, (v : ℝ) := hsum
    _ ≤ ∑ v ∈ points.toFinset, ((2 : ℝ) ^ (index v / p : ℝ) * (1 + 1 / 2 ^ 40) + 1 / 2) :=
        sum_le_sum hle
    _ = (∑ v ∈ points.toFinset, (2 : ℝ) ^ (index v / p : ℝ)) * (1 + 1 / 2 ^ 40) +
          points.toFinset.card * (1 / 2) := by
        rw [sum_add_distrib, ← sum_mul, sum_const, nsmul_eq_mul]
    _ ≤ 2 ^ n * (1 + 29 / 20 * p) * (1 + 1 / 2 ^ 40) + 2 ^ n / 2 := by
        have := mul_le_mul_of_nonneg_right (le_trans himage (sum_powers_le hp n))
          (by norm_num : (0 : ℝ) ≤ 1 + 1 / 2 ^ 40)
        linarith

omit hlast in
/-- The point that reaches the limit is not far above it. -/
theorem next_le_limit {c v : Nat} (hc : 0 < c) (hc' : c < 2 ^ n)
    (h : Steps.binary64.next? p c = some v) : v ≤ 3 * 2 ^ n := by
  have hlimit : 2 ^ n ≤ 2 ^ 30 := Nat.pow_le_pow_right two_pos hn
  obtain ⟨-, -, -, -, hle⟩ := next_spec hp hp' hc (by omega) h
  have hstep := steps_le_three hp
  have hc1 : (c : ℝ) + 1 ≤ 2 ^ n := by exact_mod_cast hc'
  have hlimit' : (2 : ℝ) ^ n ≤ 2 ^ 30 := by exact_mod_cast hlimit
  have hv : (v : ℝ) ≤ 3 * 2 ^ n := by
    have h1 : ((c : ℝ) + 1 / 2) * 2 ^ (3 / 2 / p : ℝ) ≤ (2 ^ n - 1 / 2) * 3 :=
      mul_le_mul (by linarith) hstep (by positivity) (by linarith)
    linarith
  exact_mod_cast hv

/-- The sum of the points of an axis grows with the number of points per octave. -/
theorem sum_points_le :
    2 * (pointsAfter Steps.binary64 p (2 ^ n) last).sum ≤ 2 ^ n * (3 * p + 9) := by
  have hlimit : 2 ^ n ≤ 2 ^ 30 := Nat.pow_le_pow_right two_pos hn
  have hbelow := sum_below_limit_le hp hp' hn hlast
  have hsum : (pointsAfter Steps.binary64 p (2 ^ n) last).sum ≤
      ((pointsAfter Steps.binary64 p (2 ^ n) last).filter (· < 2 ^ n)).sum + 3 * 2 ^ n :=
    sum_pointsAfter_le fun c v hc hc' hnext => next_le_limit hp hp' hn (by omega) hc' hnext
  have hp1 : (1 : ℝ) ≤ p := by exact_mod_cast hp
  have hM : (0 : ℝ) < 2 ^ n := by positivity
  have hsum' : ((pointsAfter Steps.binary64 p (2 ^ n) last).sum : ℝ) ≤
      ((pointsAfter Steps.binary64 p (2 ^ n) last).filter (· < 2 ^ n)).sum + 3 * 2 ^ n := by
    exact_mod_cast hsum
  have hreal : (2 : ℝ) * (pointsAfter Steps.binary64 p (2 ^ n) last).sum ≤ 2 ^ n * (3 * p + 9) := by
    nlinarith
  exact_mod_cast hreal

end sums

/-! ## The number of points -/

/-- While the steps stay below `ρ` there are as many points as steps fit below the limit. -/
theorem le_length_pointsAfter {p limit last : Nat} (ρ : ℝ) (hp : 0 < p) (hp' : p ≤ 2 ^ 64)
    (hlimit : limit ≤ 2 ^ 31) (hlast : 0 < last) (hρ : 1 ≤ ρ)
    (hstep : ∀ c v, last ≤ c → c < limit → Steps.binary64.next? p c = some v →
      (v : ℝ) + 1 ≤ (c + 1) * ρ)
    (k : Nat) (hk : ((last : ℝ) + 1) * ρ ^ k ≤ limit) :
    k ≤ (pointsAfter Steps.binary64 p limit last).length := by
  -- Each step takes a factor `ρ` at most of what is left below the limit, one step for each of `k`.
  induction k generalizing last with
  | zero => exact Nat.zero_le _
  | succ k ih =>
    have hlast0 : (0 : ℝ) ≤ last := Nat.cast_nonneg _
    have hlt : last < limit := by
      have h1 : (last : ℝ) + 1 ≤ (last + 1) * ρ ^ (k + 1) :=
        le_mul_of_one_le_right (by linarith) (one_le_pow₀ hρ)
      have h : (last : ℝ) < limit := by linarith
      exact_mod_cast h
    obtain ⟨v, hv⟩ := exists_next hp hp' hlast (Nat.lt_of_lt_of_le hlt hlimit)
    have hgt := Steps.lt_of_next? hv
    rw [pointsAfter_of_some hlt hv, List.length_cons]
    refine Nat.succ_le_succ (ih (by omega) (fun c v hc => hstep c v (by omega)) ?_)
    calc ((v : ℝ) + 1) * ρ ^ k ≤ ((last + 1) * ρ) * ρ ^ k :=
          mul_le_mul_of_nonneg_right (hstep last v (Nat.le_refl _) hlt hv) (by positivity)
      _ = (last + 1) * ρ ^ (k + 1) := by rw [pow_succ]; ring
      _ ≤ limit := hk

theorem length_mul_le_sum_pointsAfter (s : Steps) (p limit last : Nat) :
    (pointsAfter s p limit last).length * last ≤ (pointsAfter s p limit last).sum := by
  have h := List.card_nsmul_le_sum (pointsAfter s p limit last) last fun v hv =>
    (lt_of_mem_pointsAfter hv).le
  rwa [smul_eq_mul] at h

theorem one_add_pow_le_exp {x : ℝ} (hx : 0 ≤ x) (n : ℕ) : (1 + x) ^ n ≤ Real.exp (n * x) := by
  rw [Real.exp_nat_mul, add_comm]
  exact pow_le_pow_left₀ (by linarith) (Real.add_one_le_exp x) n

/-- With `2 ^ 16` points per octave the last octave has at least `2 ^ 15` points. -/
theorem many_points :
    2 ^ 15 ≤ (pointsAfter Steps.binary64 (2 ^ 16) (2 ^ 30) (2 ^ 29)).length := by
  obtain ⟨hlo, hhi⟩ := log_two_bounds
  obtain ⟨x, hx⟩ : ∃ x : ℝ, x = 17 / 2 ^ 20 := ⟨_, rfl⟩
  have hx0 : 0 ≤ x := by rw [hx]; positivity
  -- a step is below `1 + x`, and `2 ^ 15` of them stay within one octave
  refine le_length_pointsAfter (1 + x) (by decide) (by decide) (by decide) (by decide)
    (by linarith) (fun c v hc hc' hv => ?_) (2 ^ 15) ?_
  · obtain ⟨-, -, -, -, hle⟩ := next_spec (by decide) (by decide) (by omega) (by omega) hv
    have hstep : (2 : ℝ) ^ (3 / 2 / (2 ^ 16 : ℕ) : ℝ) ≤ 1 + 160 / 10 ^ 7 := by
      obtain ⟨y, hy⟩ : ∃ y : ℝ, y = Real.log 2 * (3 / 2 / (2 ^ 16 : ℕ)) := ⟨_, rfl⟩
      have hy' : 0 ≤ y ∧ y ≤ 159 / 10 ^ 7 := by
        rw [hy]
        push_cast
        constructor <;> linarith
      have hexp := (abs_le.mp (Real.abs_exp_sub_one_sub_id_le (x := y)
        (by rw [abs_of_nonneg hy'.1]; linarith [hy'.2]))).2
      rw [Real.rpow_def_of_pos two_pos, ← hy]
      nlinarith [hy'.1, hy'.2]
    have hc0 : (2 : ℝ) ^ 29 ≤ c := by exact_mod_cast hc
    have hnext := mul_le_mul_of_nonneg_left hstep (by linarith : (0 : ℝ) ≤ c + 1 / 2)
    rw [hx]
    linarith
  · have hpow := one_add_pow_le_exp hx0 (2 ^ 15)
    have hexponent : ((2 ^ 15 : ℕ) : ℝ) * x = 17 / 32 := by
      rw [hx]
      norm_num
    have hexp : Real.exp (17 / 32) ≤ 7 / 4 := by
      have h1 : Real.exp (17 / 32) * Real.exp (Real.log 2 - 17 / 32) = 2 := by
        rw [← Real.exp_add, add_sub_cancel, Real.exp_log two_pos]
      have h2 := Real.add_one_le_exp (Real.log 2 - 17 / 32)
      have h3 := Real.exp_pos (17 / 32)
      nlinarith
    rw [hexponent] at hpow
    generalize (1 + x) ^ 2 ^ 15 = X at hpow ⊢
    push_cast
    nlinarith

end SpeedTrial.Plan
