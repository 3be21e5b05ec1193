import SpeedTrial.Proofs.Job.Ranges
import SpeedTrial.Proofs.Numeric.Exponential
import SpeedTrial.Proofs.Numeric.Logarithm

/-!
# The slope of a plan

Between the ends of the slope the number of trials is a power of two of a straight line, computed on
doubles and cut to a whole number.  Here the computed power is compared with the exact one.

* `lineAt` is the exact power, and `lineAt_gap` says how far apart it is at neighbouring counts.
* `near_lgTrialsAt` is the error of the computed logarithm, and `near_exp2_lgTrialsAt` that of its power.
-/

namespace SpeedTrial.Plan

open SpeedTrial.Numeric SpeedTrial.Job

namespace SweepPlan

/-! ## The line -/

/-- How much the logarithm of the number of trials falls per octave. -/
noncomputable def fall (p : SweepPlan) : ℝ :=
  ((p.lgMaxTrials : ℝ) - p.lgMinTrials) / ((p.lgSlopeEnd : ℝ) - p.lgSlopeStart)

/-- The line through the ends of the slope. -/
noncomputable def lgLineAt (p : SweepPlan) (x : ℝ) : ℝ :=
  p.lgMaxTrials - p.fall * (Real.logb (2 : ℕ) x - p.lgSlopeStart)

/-- The number of trials on the line, before it is cut. -/
noncomputable def lineAt (p : SweepPlan) (x : ℝ) : ℝ := (2 : ℕ) ^ p.lgLineAt x

/-- The part of the number of trials that the computation may be off by. -/
noncomputable def slack (p : SweepPlan) : ℝ := p.fall / (2 ^ 40 : ℕ) + 1 / (2 ^ 44 : ℕ)

theorem lgLineAt_eq (p : SweepPlan) (x : ℝ) :
    p.lgLineAt x = p.lgMaxTrials - p.fall * (Real.logb 2 x - p.lgSlopeStart) := by
  rw [lgLineAt, Nat.cast_ofNat]

theorem lineAt_eq (p : SweepPlan) (x : ℝ) : p.lineAt x = 2 ^ p.lgLineAt x := by
  rw [lineAt, Nat.cast_ofNat]

theorem lineAt_pos (p : SweepPlan) (x : ℝ) : 0 < p.lineAt x := by
  rw [lineAt_eq]
  exact Real.rpow_pos_of_pos two_pos _

theorem slack_eq (p : SweepPlan) : p.slack = p.fall / 2 ^ 40 + 1 / 2 ^ 44 := by
  rw [slack, Nat.cast_pow, Nat.cast_pow, Nat.cast_ofNat]

variable {p : SweepPlan}

section line

variable (hp : Accepted p) (hlt : p.lgMinTrials < p.lgMaxTrials)

include hp hlt

theorem length_bounds : 1 ≤ (p.lgSlopeEnd : ℝ) - p.lgSlopeStart ∧
    (p.lgSlopeEnd : ℝ) - p.lgSlopeStart ≤ 62 := by
  have hslope := hp.slope_ordered hlt.ne
  have h1 : (p.lgSlopeStart : ℝ) + 1 ≤ p.lgSlopeEnd := by exact_mod_cast hslope
  have h2 : (p.lgSlopeEnd : ℝ) ≤ 62 := by exact_mod_cast hp.slopeEnd_le
  have h3 : (0 : ℝ) ≤ p.lgSlopeStart := Nat.cast_nonneg _
  constructor <;> linarith

theorem height_bounds : 1 ≤ (p.lgMaxTrials : ℝ) - p.lgMinTrials ∧
    (p.lgMaxTrials : ℝ) - p.lgMinTrials ≤ 20 := by
  have h1 : (p.lgMinTrials : ℝ) + 1 ≤ p.lgMaxTrials := by exact_mod_cast hlt
  have h2 : (p.lgMaxTrials : ℝ) ≤ 20 := by exact_mod_cast hp.trials_le
  have h3 : (0 : ℝ) ≤ p.lgMinTrials := Nat.cast_nonneg _
  constructor <;> linarith

theorem fall_bounds : 1 / 62 ≤ p.fall ∧ p.fall ≤ 20 := by
  obtain ⟨hl, hl'⟩ := length_bounds hp hlt
  obtain ⟨hh, hh'⟩ := height_bounds hp hlt
  unfold fall
  constructor
  · rw [le_div_iff₀ (by linarith)]
    linarith
  · rw [div_le_iff₀ (by linarith)]
    linarith

theorem fall_mul_length :
    p.fall * ((p.lgSlopeEnd : ℝ) - p.lgSlopeStart) = (p.lgMaxTrials : ℝ) - p.lgMinTrials := by
  obtain ⟨hl, hl'⟩ := length_bounds hp hlt
  exact div_mul_cancel₀ _ (by linarith)

/-- Along the line the number of trials falls at least as a power of the fall. -/
theorem lineAt_gap {x y : ℝ} (hx : 0 < x) (hxy : x + 1 ≤ y) :
    p.lineAt y * (1 + p.fall / (x + 1)) ≤ p.lineAt x := by
  obtain ⟨hf, hf'⟩ := fall_bounds hp hlt
  have hy : 0 < y := by linarith
  -- How the line falls depends on the octaves between the two counts only.
  have hratio : p.lineAt x = p.lineAt y * 2 ^ (p.fall * (Real.logb 2 y - Real.logb 2 x)) := by
    rw [lineAt_eq, lineAt_eq, lgLineAt_eq, lgLineAt_eq, ← Real.rpow_add two_pos]
    congr 1
    ring
  -- the octaves from `x` to `y`, by `log t ≤ t - 1` at `x / y`
  have hlog : 1 / (x + 1) ≤ Real.log 2 * (Real.logb 2 y - Real.logb 2 x) := by
    have h1 : Real.log 2 * (Real.logb 2 y - Real.logb 2 x) = -Real.log (x / y) := by
      rw [Real.log_div hx.ne' hy.ne', Real.logb, Real.logb]
      have : Real.log 2 ≠ 0 := (Real.log_pos one_lt_two).ne'
      field_simp
      ring
    have h2 := Real.log_le_sub_one_of_pos (div_pos hx hy)
    have h3 : x / y ≤ x / (x + 1) := div_le_div_of_nonneg_left hx.le (by linarith) hxy
    have h4 : x / (x + 1) = 1 - 1 / (x + 1) := by field_simp; ring
    linarith
  have hpower : 1 + p.fall / (x + 1) ≤ 2 ^ (p.fall * (Real.logb 2 y - Real.logb 2 x)) := by
    rw [Real.rpow_def_of_pos two_pos]
    refine le_trans ?_ (Real.add_one_le_exp _)
    have := mul_le_mul_of_nonneg_left hlog (by linarith : 0 ≤ p.fall)
    rw [mul_one_div] at this
    linarith
  rw [hratio]
  exact mul_le_mul_of_nonneg_left hpower (p.lineAt_pos y).le

theorem lineAt_end : p.lineAt (2 ^ p.lgSlopeEnd) = 2 ^ p.lgMinTrials := by
  have hlength := fall_mul_length hp hlt
  rw [lineAt_eq, lgLineAt_eq, Real.logb_pow, Real.logb_self_eq_one one_lt_two, mul_one, hlength, sub_sub_cancel,
    Real.rpow_natCast]

omit hp hlt in
theorem lineAt_start : p.lineAt (2 ^ p.lgSlopeStart) = 2 ^ p.lgMaxTrials := by
  rw [lineAt_eq, lgLineAt_eq, Real.logb_pow, Real.logb_self_eq_one one_lt_two, mul_one, sub_self, mul_zero, sub_zero,
    Real.rpow_natCast]

theorem lgLineAt_anti {x y : ℝ} (hx : 0 < x) (hxy : x ≤ y) : p.lgLineAt y ≤ p.lgLineAt x := by
  obtain ⟨hf, hf'⟩ := fall_bounds hp hlt
  have hlog := Real.logb_le_logb_of_le one_lt_two hx hxy
  have := mul_le_mul_of_nonneg_left hlog (by linarith : 0 ≤ p.fall)
  rw [lgLineAt_eq, lgLineAt_eq]
  linarith

theorem lineAt_anti {x y : ℝ} (hx : 0 < x) (hxy : x ≤ y) : p.lineAt y ≤ p.lineAt x := by
  rw [lineAt_eq, lineAt_eq]
  exact Real.rpow_le_rpow_of_exponent_le one_le_two (lgLineAt_anti hp hlt hx hxy)

end line

/-! ## The line on doubles -/

section doubles

variable (hp : Accepted p) (hlt : p.lgMinTrials < p.lgMaxTrials)

include hp hlt

/-- What the slope is divided by. -/
theorem near_slope_divisor : Near (ofCount p.lgSlopeStart - ofCount p.lgSlopeEnd)
    ((p.lgSlopeStart : ℝ) - p.lgSlopeEnd) (|(p.lgSlopeStart : ℝ) - p.lgSlopeEnd| / 2 ^ 52) := by
  obtain ⟨hl, hl'⟩ := length_bounds hp hlt
  have h1 := hp.slopeStart_le
  have h2 := hp.slopeEnd_le
  refine (near_ofCount_exact (by omega)).sub_exact (near_ofCount_exact (by omega)) ?_ ?_ <;>
  · rw [abs_sub_comm, abs_of_pos (by linarith)]
    norm_num
    linarith

theorem near_slope : Near p.slope (-p.fall) (p.fall / 2 ^ 50) := by
  obtain ⟨hl, hl'⟩ := length_bounds hp hlt
  obtain ⟨hh, hh'⟩ := height_bounds hp hlt
  obtain ⟨hf, hf'⟩ := fall_bounds hp hlt
  have h1 := hp.trials_le
  have hheight := (near_ofCount_exact (n := p.lgMaxTrials) (by omega)).sub_exact
    (near_ofCount_exact (n := p.lgMinTrials) (by omega))
    (le_trans (by norm_num) (le_trans hh (le_abs_self _)))
    (by rw [abs_of_pos (by linarith)]; norm_num; linarith)
  -- Height and length are exact differences of small counts, and one division is rounded.
  have hfall : ((p.lgMaxTrials : ℝ) - p.lgMinTrials) / ((p.lgSlopeStart : ℝ) - p.lgSlopeEnd) =
      -p.fall := by
    unfold fall
    rw [← neg_sub (p.lgSlopeEnd : ℝ), div_neg]
  have hquot := hheight.div_relative (near_slope_divisor hp hlt) (by linarith)
    (by rw [hfall, abs_neg, abs_of_pos] <;> norm_num at * <;> linarith)
    (by rw [hfall, abs_neg, abs_of_pos] <;> norm_num at * <;> linarith)
  rw [hfall, abs_neg, abs_of_pos (by linarith)] at hquot
  exact hquot

section point

variable {v : Nat} (hstart : 2 ^ p.lgSlopeStart ≤ v) (hend : v ≤ 2 ^ p.lgSlopeEnd)

include hstart hend

omit hp hlt in
theorem logb_bounds : p.lgSlopeStart ≤ Real.logb 2 v ∧ Real.logb 2 v ≤ p.lgSlopeEnd := by
  have hv : (0 : ℝ) < v := by exact_mod_cast Nat.lt_of_lt_of_le (Nat.two_pow_pos _) hstart
  rw [Real.le_logb_iff_rpow_le one_lt_two hv, Real.logb_le_iff_le_rpow one_lt_two hv,
    Real.rpow_natCast, Real.rpow_natCast]
  exact ⟨by exact_mod_cast hstart, by exact_mod_cast hend⟩

/-- The line stays between its ends. -/
theorem lgLineAt_bounds : p.lgMinTrials ≤ p.lgLineAt v ∧ p.lgLineAt v ≤ p.lgMaxTrials := by
  obtain ⟨hf, hf'⟩ := fall_bounds hp hlt
  obtain ⟨hlow, hhigh⟩ := logb_bounds hstart hend
  have hlength := fall_mul_length hp hlt
  -- From the start of the slope it is at most its length, and `fall` scales that to its height.
  have h1 : 0 ≤ p.fall * (Real.logb 2 v - p.lgSlopeStart) :=
    mul_nonneg (by linarith) (by linarith)
  have h2 : p.fall * (Real.logb 2 v - p.lgSlopeStart) ≤
      p.fall * ((p.lgSlopeEnd : ℝ) - p.lgSlopeStart) :=
    mul_le_mul_of_nonneg_left (by linarith) (by linarith)
  rw [lgLineAt_eq]
  constructor <;> linarith

theorem lineAt_bounds : 2 ^ p.lgMinTrials ≤ p.lineAt v ∧ p.lineAt v ≤ 2 ^ p.lgMaxTrials := by
  obtain ⟨hlow, hhigh⟩ := lgLineAt_bounds hp hlt hstart hend
  rw [lineAt_eq, ← Real.rpow_natCast, ← Real.rpow_natCast]
  exact ⟨Real.rpow_le_rpow_of_exponent_le one_le_two hlow,
    Real.rpow_le_rpow_of_exponent_le one_le_two hhigh⟩

/-- The computed logarithm of the number of trials. -/
theorem near_lgTrialsAt : Near (p.lgTrialsAt v) (p.lgLineAt v) (p.fall / 2 ^ 40 + 1 / 2 ^ 47) := by
  obtain ⟨hl, hl'⟩ := length_bounds hp hlt
  obtain ⟨hh, hh'⟩ := height_bounds hp hlt
  obtain ⟨hf, hf'⟩ := fall_bounds hp hlt
  obtain ⟨hlow, hhigh⟩ := logb_bounds hstart hend
  obtain ⟨hline, hline'⟩ := lgLineAt_bounds hp hlt hstart hend
  have hflength := fall_mul_length hp hlt
  have h1 := hp.trials_le
  have h2 := hp.slopeStart_le
  have hv : v < 2 ^ 64 := by
    have := Nat.pow_le_pow_right two_pos hp.slopeEnd_le
    omega
  have hlog := near_log2 hv
  rw [Nat.max_eq_left (Nat.le_trans Nat.one_le_two_pow hstart)] at hlog
  set D := Real.logb 2 v - p.lgSlopeStart with hD
  have hD0 : |D| ≤ p.lgSlopeEnd - p.lgSlopeStart := by
    rw [abs_of_nonneg (by linarith)]
    linarith
  have hdiff : Near (log2 v - ofCount p.lgSlopeStart) D (1 / 2 ^ 41) :=
    hlog.sub (near_ofCount_exact (by omega)) (N := 6) (by norm_num) (by norm_num)
      (by norm_num; linarith) (by norm_num)
  -- the product is at most the height of the slope, however steep it is
  have hproduct : Near (p.slope * (log2 v - ofCount p.lgSlopeStart)) (-p.fall * D)
      (p.fall * (1 / 2 ^ 40) + 1 / 2 ^ 48) := by
    refine (near_slope hp hlt).mul hdiff (N := 5) (by norm_num) (by norm_num) (A := p.fall)
      (B := p.lgSlopeEnd - p.lgSlopeStart) (by rw [abs_neg, abs_of_nonneg (by linarith)]) hD0 ?_ ?_
    · norm_num
      nlinarith
    · norm_num
      nlinarith
  have hsum : -p.fall * D + p.lgMaxTrials = p.lgLineAt v := by
    rw [hD, lgLineAt_eq]
    ring
  have hmax : (p.lgMaxTrials : ℝ) ≤ 20 := by exact_mod_cast h1
  have hmin : (0 : ℝ) ≤ p.lgMinTrials := Nat.cast_nonneg _
  rw [← hsum]
  refine hproduct.add (near_ofCount_exact (by omega)) (N := 5) (by norm_num) (by norm_num) ?_ ?_
  · rw [hsum, abs_of_nonneg (by linarith)]
    norm_num
    linarith
  · norm_num
    linarith

/-- The computed number of trials, before it is cut. -/
theorem near_exp2_lgTrialsAt :
    Near (exp2 (p.lgTrialsAt v)) (p.lineAt v) (p.lineAt v * p.slack) := by
  obtain ⟨hf, hf'⟩ := fall_bounds hp hlt
  obtain ⟨hline, hline'⟩ := lgLineAt_bounds hp hlt hstart hend
  have hmax : (p.lgMaxTrials : ℝ) ≤ 20 := by exact_mod_cast hp.trials_le
  have hmin : (0 : ℝ) ≤ p.lgMinTrials := Nat.cast_nonneg _
  have hexp := (near_lgTrialsAt hp hlt hstart hend).exp2
    (by rw [abs_of_nonneg] <;> linarith) (by norm_num; linarith)
  rw [← lineAt_eq] at hexp
  refine hexp.mono (mul_le_mul_of_nonneg_left ?_ (p.lineAt_pos v).le)
  rw [slack_eq]
  norm_num
  linarith

end point

end doubles

end SweepPlan

end SpeedTrial.Plan
