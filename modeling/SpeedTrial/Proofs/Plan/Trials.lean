import SpeedTrial.Proofs.Numeric.WholeNumbers
import SpeedTrial.Proofs.Plan.Slope

/-!
# The number of trials

On the slope the number of trials is a power of two that is computed on doubles and then cut, so what the
computation is off by can only matter where the exact power is close to a whole number.  Neighbouring counts
are apart by one part in so many, and up to `2 ^ 32` that is more than the computation is off by.

* `trialsAt_near` says what the number of trials is cut from, on the slope and beside it.
* `trials_fall_within_range` is the range of the number of trials, and how it falls.
* `no_trial_below_the_end` is a count above `2 ^ 32` where cutting takes the only trial away.
-/

namespace SpeedTrial.Plan

open SpeedTrial.Numeric SpeedTrial.Job

namespace SweepPlan

/-- The count on the slope that is nearest to a count. -/
def onSlope (p : SweepPlan) (v : Nat) : Nat := max (2 ^ p.lgSlopeStart) (min v (2 ^ p.lgSlopeEnd))

theorem onSlope_bounds (p : SweepPlan) (h : 2 ^ p.lgSlopeStart ≤ 2 ^ p.lgSlopeEnd) (v : Nat) :
    2 ^ p.lgSlopeStart ≤ p.onSlope v ∧ p.onSlope v ≤ 2 ^ p.lgSlopeEnd := by
  unfold onSlope
  omega

theorem onSlope_mono (p : SweepPlan) {u v : Nat} (h : u ≤ v) : p.onSlope u ≤ p.onSlope v := by
  unfold onSlope
  omega

variable {p : SweepPlan} {u v : Nat}

theorem trialsAt_of_eq (h : p.lgMinTrials = p.lgMaxTrials) (v : Nat) :
    p.trialsAt v = 2 ^ p.lgMaxTrials :=
  if_pos (Or.inl h)

theorem trialsAt_of_le_start (h : v ≤ 2 ^ p.lgSlopeStart) : p.trialsAt v = 2 ^ p.lgMaxTrials :=
  if_pos (Or.inr h)

section varying

variable (hp : Accepted p) (hlt : p.lgMinTrials < p.lgMaxTrials)

include hp hlt

theorem slope_ends : 2 ^ p.lgSlopeStart < 2 ^ p.lgSlopeEnd :=
  Nat.pow_lt_pow_right one_lt_two (hp.slope_ordered hlt.ne)

theorem trialsAt_of_end_le (h : 2 ^ p.lgSlopeEnd ≤ v) : p.trialsAt v = 2 ^ p.lgMinTrials := by
  have hends := slope_ends hp hlt
  have hstart : ¬ (p.lgMinTrials = p.lgMaxTrials ∨ v ≤ twoPow p.lgSlopeStart) := by
    rw [twoPow_eq]
    omega
  unfold trialsAt
  rw [if_neg hstart]
  exact if_pos h

theorem slack_bounds : 0 ≤ p.slack ∧ p.slack ≤ 1 / 2 ^ 35 ∧ p.slack ≤ p.fall / 2 ^ 37 := by
  obtain ⟨hf, hf'⟩ := fall_bounds hp hlt
  rw [slack_eq]
  refine ⟨by positivity, ?_, ?_⟩ <;> norm_num <;> linarith

/-- On the slope the number of trials is cut from a rational close to the line. -/
theorem trialsAt_on_slope (hstart : 2 ^ p.lgSlopeStart < v) (hend : v < 2 ^ p.lgSlopeEnd) :
    ∃ q : ℚ, p.trialsAt v = ⌊q⌋₊ ∧ |(q : ℝ) - p.lineAt v| ≤ p.lineAt v * p.slack := by
  obtain ⟨hslack, hslack', -⟩ := slack_bounds hp hlt
  obtain ⟨hlow, hhigh⟩ := lineAt_bounds hp hlt hstart.le hend.le
  obtain ⟨q, hq, herr⟩ := near_exp2_lgTrialsAt hp hlt hstart.le hend.le
  refine ⟨q, ?_, herr⟩
  obtain ⟨herr1, herr2⟩ := abs_le.mp herr
  -- The line is between its ends, so the rational is not negative and far below a word.
  have hpos : (1 : ℝ) ≤ p.lineAt v := le_trans (one_le_pow₀ one_le_two) hlow
  have hmax : (2 : ℝ) ^ p.lgMaxTrials ≤ 2 ^ 20 := pow_le_pow_right₀ one_le_two hp.trials_le
  have hshare : p.lineAt v * p.slack ≤ p.lineAt v * (1 / 2 ^ 35) :=
    mul_le_mul_of_nonneg_left hslack' (by linarith)
  have hq0 : 0 ≤ q := by
    have h : (0 : ℝ) ≤ q := by linarith
    exact_mod_cast h
  have hq1 : q ≤ 2 ^ 21 := by
    have h : (q : ℝ) ≤ 2 ^ 21 := by linarith
    exact_mod_cast h
  have hfloor : ⌊q⌋₊ ≤ 2 ^ 21 := Nat.floor_le_of_le (by exact_mod_cast hq1)
  have htrials : p.trialsAt v = truncToWord (exp2 (p.lgTrialsAt v)) := by
    unfold trialsAt
    rw [if_neg (by rw [twoPow_eq]; omega), if_neg (by rw [twoPow_eq]; omega)]
  rw [htrials, truncToWord_eq hq hq0, Nat.min_eq_left]
  exact Nat.le_trans hfloor (by decide)

/-- Up to rounding, the number of trials is the line at the nearest count on the slope. -/
theorem trialsAt_near (v : Nat) : ∃ q : ℚ, p.trialsAt v = ⌊q⌋₊ ∧
    |(q : ℝ) - p.lineAt (p.onSlope v)| ≤ p.lineAt (p.onSlope v) * p.slack := by
  have hends := slope_ends hp hlt
  have hslack := (slack_bounds hp hlt).1
  -- beside the slope nothing is computed, and the number of trials is the end of the line itself
  have hexact : ∀ n k : ℕ, n = 2 ^ k →
      ∃ q : ℚ, n = ⌊q⌋₊ ∧ |(q : ℝ) - 2 ^ k| ≤ (2 : ℝ) ^ k * p.slack := fun n k hn => by
    refine ⟨n, (Nat.floor_natCast n).symm, ?_⟩
    rw [hn]
    push_cast
    rw [sub_self, abs_zero]
    positivity
  unfold onSlope
  rcases Nat.lt_or_ge (2 ^ p.lgSlopeStart) v with hstart | hstart
  · rcases Nat.lt_or_ge v (2 ^ p.lgSlopeEnd) with hend | hend
    · rw [show max (2 ^ p.lgSlopeStart) (min v (2 ^ p.lgSlopeEnd)) = v by omega]
      exact trialsAt_on_slope hp hlt hstart hend
    · rw [show max (2 ^ p.lgSlopeStart) (min v (2 ^ p.lgSlopeEnd)) = 2 ^ p.lgSlopeEnd by omega,
        Nat.cast_pow, Nat.cast_ofNat, lineAt_end hp hlt]
      exact hexact _ _ (trialsAt_of_end_le hp hlt hend)
  · rw [show max (2 ^ p.lgSlopeStart) (min v (2 ^ p.lgSlopeEnd)) = 2 ^ p.lgSlopeStart by omega,
      Nat.cast_pow, Nat.cast_ofNat, lineAt_start]
    exact hexact _ _ (trialsAt_of_le_start hstart)

/-- Rounding makes a difference below one trial. -/
theorem lineAt_mul_slack_le (v : Nat) :
    2 ^ p.lgMinTrials ≤ p.lineAt (p.onSlope v) ∧ p.lineAt (p.onSlope v) ≤ 2 ^ p.lgMaxTrials ∧
      p.lineAt (p.onSlope v) * p.slack ≤ 1 / 2 ^ 15 := by
  obtain ⟨hslack, hslack', -⟩ := slack_bounds hp hlt
  obtain ⟨hlow, hhigh⟩ := lineAt_bounds hp hlt (p.onSlope_bounds (slope_ends hp hlt).le v).1
    (p.onSlope_bounds (slope_ends hp hlt).le v).2
  have hmax : (2 : ℝ) ^ p.lgMaxTrials ≤ 2 ^ 20 := pow_le_pow_right₀ one_le_two hp.trials_le
  refine ⟨hlow, hhigh, ?_⟩
  calc p.lineAt (p.onSlope v) * p.slack ≤ 2 ^ 20 * (1 / 2 ^ 35) :=
        mul_le_mul (by linarith) hslack' hslack (by positivity)
    _ = 1 / 2 ^ 15 := by norm_num

/-- The number of trials is between its ends, but for one trial that rounding may take away. -/
theorem trialsAt_bounds (v : Nat) : p.trialsAt v ≤ 2 ^ p.lgMaxTrials ∧
    2 ^ p.lgMinTrials ≤ p.trialsAt v + 1 := by
  obtain ⟨q, htrials, herr⟩ := trialsAt_near hp hlt v
  -- The line is between the two powers, and what rounding adds or takes away is below one trial.
  obtain ⟨hlow, hhigh, hsmall⟩ := lineAt_mul_slack_le hp hlt v
  obtain ⟨herr1, herr2⟩ := abs_le.mp herr
  rw [htrials]
  constructor
  · have h : (q : ℝ) < (2 ^ p.lgMaxTrials + 1 : ℕ) := by
      push_cast
      linarith
    exact Nat.lt_succ_iff.mp ((Nat.floor_lt' (Nat.succ_ne_zero _)).mpr (by exact_mod_cast h))
  · have h := Nat.lt_floor_add_one q
    have h' : ((2 ^ p.lgMinTrials : ℕ) : ℝ) < (⌊q⌋₊ + 2 : ℕ) := by
      have hq : (q : ℝ) < ⌊q⌋₊ + 1 := by exact_mod_cast h
      push_cast
      linarith
    exact Nat.lt_succ_iff.mp (by exact_mod_cast h')

/-- The number of trials rises by one trial at most. -/
theorem trialsAt_le_succ (huv : u ≤ v) : p.trialsAt v ≤ p.trialsAt u + 1 := by
  have hends := slope_ends hp hlt
  obtain ⟨q, htrials, herr⟩ := trialsAt_near hp hlt v
  obtain ⟨q', htrials', herr'⟩ := trialsAt_near hp hlt u
  -- The line does not rise, and each number is cut from a rational much less than a trial off it.
  have hanti : p.lineAt (p.onSlope v) ≤ p.lineAt (p.onSlope u) := by
    refine lineAt_anti hp hlt ?_ ?_
    · exact_mod_cast Nat.lt_of_lt_of_le (Nat.two_pow_pos _) (p.onSlope_bounds hends.le u).1
    · exact_mod_cast p.onSlope_mono huv
  have h1 := (abs_le.mp herr).2
  have h2 := (abs_le.mp herr').1
  have h3 := (lineAt_mul_slack_le hp hlt v).2.2
  have h4 := (lineAt_mul_slack_le hp hlt u).2.2
  rw [htrials, htrials']
  have h : q ≤ q' + 1 := by
    have h : (q : ℝ) ≤ q' + 1 := by linarith
    exact_mod_cast h
  have hq' : 0 ≤ q' := by
    have := (lineAt_mul_slack_le hp hlt u).1
    have h1 : (1 : ℝ) ≤ 2 ^ p.lgMinTrials := one_le_pow₀ one_le_two
    have h : (0 : ℝ) ≤ q' := by linarith
    exact_mod_cast h
  rw [← Nat.floor_add_one hq']
  exact Nat.floor_le_floor h

/-- A gap in the line that is wide enough is not closed by rounding. -/
theorem cut_le_cut {q q' : ℚ} {x x' : ℝ} (hx : 0 ≤ x) (hgap : x * (1 + p.fall / 2 ^ 33) ≤ x')
    (hq : |(q : ℝ) - x| ≤ x * p.slack) (hq' : |(q' : ℝ) - x'| ≤ x' * p.slack) : ⌊q⌋₊ ≤ ⌊q'⌋₊ := by
  obtain ⟨hslack, hslack', hslack''⟩ := slack_bounds hp hlt
  apply Nat.floor_le_floor
  have h1 := (abs_le.mp hq).2
  have h2 := (abs_le.mp hq').1
  have h3 := mul_le_mul_of_nonneg_right hgap (by linarith : 0 ≤ 1 - p.slack)
  -- The gap is wider than both roundings together, on the lower as on the upper side.
  have h4 : x * (1 + p.slack) ≤ x * ((1 + p.fall / 2 ^ 33) * (1 - p.slack)) := by
    apply mul_le_mul_of_nonneg_left _ hx
    nlinarith
  have h5 : (q : ℝ) ≤ q' := by nlinarith
  exact_mod_cast h5

/-- From a count that is not too large on, the number of trials does not rise: its neighbours are far
enough apart on the line. -/
theorem trialsAt_anti (huv : u ≤ v) (hu : u ≤ 2 ^ 32) : p.trialsAt v ≤ p.trialsAt u := by
  obtain ⟨hf, hf'⟩ := fall_bounds hp hlt
  have hends := slope_ends hp hlt
  rcases Nat.lt_or_ge (2 ^ p.lgSlopeStart) u with hstart | hstart
  · rcases Nat.lt_or_ge u (2 ^ p.lgSlopeEnd) with hend | hend
    · rcases Nat.eq_or_lt_of_le huv with rfl | hlt'
      · exact Nat.le_refl _
      · -- `v` counts from at least one update further down the line
        obtain ⟨q, htrials, herr⟩ := trialsAt_near hp hlt v
        obtain ⟨q', htrials', herr'⟩ := trialsAt_on_slope hp hlt hstart hend
        have hnext : u + 1 ≤ p.onSlope v := by
          unfold onSlope
          omega
        have hgap := lineAt_gap hp hlt (x := u) (y := p.onSlope v)
          (by exact_mod_cast Nat.lt_of_lt_of_le (Nat.two_pow_pos _) hstart.le)
          (by exact_mod_cast hnext)
        have hu' : (u : ℝ) + 1 ≤ 2 ^ 33 := by exact_mod_cast (by omega : u + 1 ≤ 2 ^ 33)
        have hline : 0 ≤ p.lineAt (p.onSlope v) := (p.lineAt_pos _).le
        have hshare : p.fall / 2 ^ 33 ≤ p.fall / (u + 1) :=
          div_le_div_of_nonneg_left (by linarith) (by positivity) hu'
        rw [htrials, htrials']
        refine cut_le_cut hp hlt hline (le_trans ?_ hgap) herr herr'
        exact mul_le_mul_of_nonneg_left (by linarith) hline
    · rw [trialsAt_of_end_le hp hlt hend, trialsAt_of_end_le hp hlt (Nat.le_trans hend huv)]
  · rw [trialsAt_of_le_start hstart]
    exact (trialsAt_bounds hp hlt v).1

/-- A count that is not too large does not lose a trial to rounding. -/
theorem le_trialsAt (hu : u ≤ 2 ^ 32) : 2 ^ p.lgMinTrials ≤ p.trialsAt u := by
  rw [← trialsAt_of_end_le hp hlt (Nat.le_max_right u (2 ^ p.lgSlopeEnd))]
  exact trialsAt_anti hp hlt (Nat.le_max_left _ _) hu

end varying

/-- The number of trials is the same everywhere if its ends are.  Otherwise it stays below its largest and
falls from there to its smallest; only above `2 ^ 32` updates, where rounding is as large as the fall, it may
be one trial less than the smallest, or rise by one. -/
theorem trials_fall_within_range (p : SweepPlan) (h : planFault? p = none) :
    (p.lgMinTrials = p.lgMaxTrials → ∀ u, p.trialsAt u = 2 ^ p.lgMaxTrials) ∧
      (p.lgMinTrials < p.lgMaxTrials → ∀ u v, u ≤ v →
        p.trialsAt u ≤ 2 ^ p.lgMaxTrials ∧ 2 ^ p.lgMinTrials ≤ p.trialsAt v + 1 ∧
          p.trialsAt v ≤ p.trialsAt u + 1 ∧
          (u ≤ 2 ^ 32 → 2 ^ p.lgMinTrials ≤ p.trialsAt u ∧ p.trialsAt v ≤ p.trialsAt u)) := by
  have hp := planFault?_eq_none_iff.mp h
  refine ⟨fun heq => trialsAt_of_eq heq, fun hlt u v huv => ?_⟩
  exact ⟨(trialsAt_bounds hp hlt u).1, (trialsAt_bounds hp hlt v).2, trialsAt_le_succ hp hlt huv,
    fun hu => ⟨le_trialsAt hp hlt hu, trialsAt_anti hp hlt huv hu⟩⟩

theorem trials_fall_within_range_default : planFault? {} = none ∧ ∀ u v, u ≤ v → u ≤ 2 ^ 32 →
    1 ≤ ({} : SweepPlan).trialsAt u ∧ ({} : SweepPlan).trialsAt v ≤ ({} : SweepPlan).trialsAt u := by
  refine ⟨by decide, fun u v huv hu => ?_⟩
  exact ((trials_fall_within_range {} (by decide)).2 (by decide) u v huv).2.2.2 hu

/-- A slope that is not exact in binary takes the last trial of a count away. -/
theorem no_trial_below_the_end :
    planFault? ⟨0, 7, 0, 0, 1, 6, 49⟩ = none ∧
      (⟨0, 7, 0, 0, 1, 6, 49⟩ : SweepPlan).trialsAt (2 ^ 49 - 1) = 0 ∧
      (⟨0, 7, 0, 0, 1, 6, 49⟩ : SweepPlan).trialsAt (2 ^ 49) = 1 := by
  decide +kernel

end SweepPlan

end SpeedTrial.Plan
