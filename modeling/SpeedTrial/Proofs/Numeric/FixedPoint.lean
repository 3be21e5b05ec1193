import SpeedTrial.Numeric.FixedPoint
import SpeedTrial.Proofs.Numeric.Values

/-!
# How exact the fixed point is

Numbers in fixed point are cut after 128 bits wherever they are divided or shifted, and a whole number
more is lost each time at most.  The bounds here follow these losses through the exponential series and
through the squares that a logarithm is read off.

* `near_exp2Fixed` is the error of a power of two, and most of it is that of `fixedLn2`.
* `log2Fixed_bounds` says that a logarithm is cut by less than two units.
-/

namespace SpeedTrial.Numeric

open Finset

/-- A quotient of whole numbers is cut by less than one. -/
theorem div_sub_one_le_cast_div (a b : Nat) : (a / b : ℝ) - 1 ≤ (a / b : ℕ) := by
  rcases Nat.eq_zero_or_pos b with rfl | hb
  · simp
  · have hb' : (0 : ℝ) < b := by exact_mod_cast hb
    have h : (a : ℝ) < (a / b + 1 : ℕ) * b := by
      exact_mod_cast Nat.lt_mul_of_div_lt (Nat.lt_succ_self _) hb
    rw [sub_le_iff_le_add, div_le_iff₀ hb']
    push_cast at h
    linarith

/-! ## The natural logarithm of two -/

theorem log_two_bounds :
    6931471805599453094172321 / 10 ^ 25 < Real.log 2 ∧ Real.log 2 < 6931471805599453094172322 / 10 ^ 25 := by
  have hlower := Real.sum_range_le_log_div (x := 1 / 3) (by norm_num) (by norm_num) 28
  have hupper := Real.log_div_le_sum_range_add (x := 1 / 3) (by norm_num) (by norm_num) 28
  norm_num [Finset.sum_range_succ] at hlower hupper
  constructor <;> linarith

theorem fixedLn2_near : |(fixedLn2 : ℝ) / 2 ^ 128 - Real.log 2| ≤ 1 / 2 ^ 64 := by
  obtain ⟨hlo, hhi⟩ := log_two_bounds
  unfold fixedLn2
  rw [abs_le]
  constructor
  · norm_num at *
    linarith
  · norm_num at *
    linarith

/-! ## Powers -/

section exponential

variable {z : Nat}

/-- The `k`-th term of the exponential series in fixed point, before it is cut. -/
noncomputable def exactTerm (z k : Nat) : ℝ := (z / 2 ^ 128 : ℝ) ^ k / k.factorial * 2 ^ 128

theorem exactTerm_succ (z k : Nat) : exactTerm z (k + 1) = exactTerm z k * (z / 2 ^ 128) / (k + 1) := by
  unfold exactTerm
  rw [pow_succ, Nat.factorial_succ]
  push_cast
  field_simp

theorem exactTerm_nonneg (z k : Nat) : 0 ≤ exactTerm z k := by
  unfold exactTerm
  positivity

theorem exactTerm_succ_le (hz : (z / 2 ^ 128 : ℝ) ≤ 7 / 10) (k : Nat) :
    exactTerm z (k + 1) ≤ exactTerm z k := by
  have hk : (1 : ℝ) ≤ k + 1 := by
    have : (0 : ℝ) ≤ k := Nat.cast_nonneg k
    linarith
  rw [exactTerm_succ, div_le_iff₀ (by linarith)]
  exact mul_le_mul_of_nonneg_left (by linarith) (exactTerm_nonneg z k)

theorem exactTerm_add_le (hz : (z / 2 ^ 128 : ℝ) ≤ 7 / 10) (k i : Nat) :
    exactTerm z (k + i) ≤ exactTerm z k := by
  induction i with
  | zero => exact le_rfl
  | succ i ih => exact le_trans (exactTerm_succ_le hz (k + i)) ih

/-- What cutting takes away does not grow from term to term. -/
theorem term_step (hz : (z / 2 ^ 128 : ℝ) ≤ 7 / 10) {k term : Nat}
    (hle : (term : ℝ) ≤ exactTerm z k) (hge : exactTerm z k - 8 ≤ term) :
    (((term * z) >>> fractionBits / (k + 1) : ℕ) : ℝ) ≤ exactTerm z (k + 1) ∧
      exactTerm z (k + 1) - 8 ≤ (((term * z) >>> fractionBits / (k + 1) : ℕ) : ℝ) := by
  have hk : (0 : ℝ) ≤ k := Nat.cast_nonneg k
  have hz0 : (0 : ℝ) ≤ z / 2 ^ 128 := by positivity
  have hshift : (term * z) >>> fractionBits = term * z / 2 ^ 128 := Nat.shiftRight_eq_div_pow _ _
  rw [hshift, exactTerm_succ]
  -- A shift and a division each cut less than one, whatever the term is.
  have hcut : ((term * z / 2 ^ 128 : ℕ) : ℝ) ≤ term * (z / 2 ^ 128) := by
    refine le_trans Nat.cast_div_le (le_of_eq ?_)
    push_cast
    ring
  have hcut' : (term : ℝ) * (z / 2 ^ 128) - 1 ≤ ((term * z / 2 ^ 128 : ℕ) : ℝ) := by
    refine le_trans (le_of_eq ?_) (div_sub_one_le_cast_div (term * z) (2 ^ 128))
    push_cast
    ring
  have hdiv : ((term * z / 2 ^ 128 / (k + 1) : ℕ) : ℝ) ≤ ((term * z / 2 ^ 128 : ℕ) : ℝ) / (k + 1) := by
    refine le_trans Nat.cast_div_le (le_of_eq ?_)
    push_cast
    ring
  have hdiv' := div_sub_one_le_cast_div (term * z / 2 ^ 128) (k + 1)
  constructor
  · refine le_trans hdiv (div_le_div_of_nonneg_right ?_ (by linarith))
    exact le_trans hcut (mul_le_mul_of_nonneg_right hle hz0)
  · -- the 8 of the last term is multiplied by at most 7 / 10, so with both cuts it is below 8 again
    have hgap : exactTerm z k * (z / 2 ^ 128) - ((term * z / 2 ^ 128 : ℕ) : ℝ) ≤ 7 := by
      have := mul_le_mul_of_nonneg_right hge hz0
      linarith
    have hgap' : (exactTerm z k * (z / 2 ^ 128) - ((term * z / 2 ^ 128 : ℕ) : ℝ)) / (k + 1) ≤ 7 :=
      (div_le_iff₀ (by linarith)).mpr (by linarith)
    rw [sub_div] at hgap'
    rw [Nat.cast_add, Nat.cast_one] at hdiv'
    linarith

/-- Each term that is summed is cut by at most 8, and so are all that are left out. -/
theorem expSeries_bounds (hz : (z / 2 ^ 128 : ℝ) ≤ 7 / 10) (fuel k term sum : Nat)
    (hle : (term : ℝ) ≤ exactTerm z k) (hge : exactTerm z k - 8 ≤ term) :
    (expSeries z fuel k term sum : ℝ) ≤ sum + ∑ i ∈ range fuel, exactTerm z (k + i) ∧
      (sum : ℝ) + ∑ i ∈ range fuel, exactTerm z (k + i) - 8 * fuel ≤ expSeries z fuel k term sum := by
  induction fuel generalizing k term sum with
  | zero => simp [expSeries]
  | succ fuel ih =>
    unfold expSeries
    split
    · -- a term of zero ends the series, but the exact ones that are left out are at most 8 each
      next hzero =>
      rw [hzero, Nat.cast_zero] at hge
      have hsmall : ∑ i ∈ range (fuel + 1), exactTerm z (k + i) ≤ (fuel + 1 : ℕ) * (8 : ℝ) := by
        rw [← card_range (fuel + 1), ← nsmul_eq_mul, card_range]
        refine le_trans (sum_le_card_nsmul _ _ 8 fun i _ => ?_) (by rw [card_range])
        exact le_trans (exactTerm_add_le hz k i) (by linarith)
      have hpos : 0 ≤ ∑ i ∈ range (fuel + 1), exactTerm z (k + i) :=
        sum_nonneg fun i _ => exactTerm_nonneg z (k + i)
      constructor <;> linarith
    · -- the next term is as close as this one, and the sum takes this one over
      obtain ⟨hle', hge'⟩ := term_step hz hle hge
      obtain ⟨hupper, hlower⟩ := ih _ _ (sum + term) hle' hge'
      have hsplit : ∑ i ∈ range (fuel + 1), exactTerm z (k + i) =
          ∑ i ∈ range fuel, exactTerm z (k + 1 + i) + exactTerm z k := by
        rw [sum_range_succ' (fun i => exactTerm z (k + i))]
        congr 1
        exact sum_congr rfl fun i _ => by rw [Nat.add_assoc, Nat.add_comm 1 i]
      rw [hsplit]
      push_cast at hupper hlower ⊢
      constructor <;> linarith

theorem abs_exp_sub_exp_le {a b : ℝ} (hb : b ≤ 7 / 10) (h : |a - b| ≤ 1) :
    |Real.exp a - Real.exp b| ≤ 8 * |a - b| := by
  have hexp : Real.exp b ≤ 4 := by
    have := Real.exp_one_lt_d9
    calc Real.exp b ≤ Real.exp 1 := Real.exp_le_exp.mpr (by linarith)
      _ ≤ 4 := by linarith
  have hsplit : Real.exp a - Real.exp b = Real.exp b * (Real.exp (a - b) - 1) := by
    rw [mul_sub, mul_one, ← Real.exp_add, add_sub_cancel]
  rw [hsplit, abs_mul, abs_of_pos (Real.exp_pos b)]
  calc Real.exp b * |Real.exp (a - b) - 1| ≤ 4 * (2 * |a - b|) :=
        mul_le_mul hexp (Real.abs_exp_sub_one_le h) (abs_nonneg _) (by norm_num)
    _ = 8 * |a - b| := by ring

/-- The argument of the exponential series, as it is cut. -/
theorem fixedArgument_near {f : Nat} (hf : f < 2 ^ 128) :
    (((f * fixedLn2) >>> fractionBits : ℕ) / 2 ^ 128 : ℝ) ≤ 7 / 10 ∧
      |(((f * fixedLn2) >>> fractionBits : ℕ) / 2 ^ 128 : ℝ) - Real.log 2 * (f / 2 ^ 128)| ≤
        1 / 2 ^ 63 := by
  -- The argument is cut once, and its factor is off by what `fixedLn2` is.
  have hln := abs_le.mp fixedLn2_near
  have hlog := log_two_bounds
  have hf1 : (f / 2 ^ 128 : ℝ) ≤ 1 := by
    rw [div_le_one (by positivity)]
    exact_mod_cast hf.le
  have hf0 : (0 : ℝ) ≤ f / 2 ^ 128 := by positivity
  have hshift : (f * fixedLn2) >>> fractionBits = f * fixedLn2 / 2 ^ 128 :=
    Nat.shiftRight_eq_div_pow _ _
  rw [hshift]
  have hupper : ((f * fixedLn2 / 2 ^ 128 : ℕ) / 2 ^ 128 : ℝ) ≤ f / 2 ^ 128 * (fixedLn2 / 2 ^ 128) := by
    rw [div_le_iff₀ (by positivity)]
    refine le_trans Nat.cast_div_le (le_of_eq ?_)
    push_cast
    ring
  have hlower : f / 2 ^ 128 * (fixedLn2 / 2 ^ 128) - 1 / 2 ^ 128 ≤
      ((f * fixedLn2 / 2 ^ 128 : ℕ) / 2 ^ 128 : ℝ) := by
    rw [le_div_iff₀ (by positivity)]
    refine le_trans (le_of_eq ?_) (div_sub_one_le_cast_div _ _)
    push_cast
    ring
  constructor
  · have : (f / 2 ^ 128 : ℝ) * (fixedLn2 / 2 ^ 128) ≤ 1 * (7 / 10) :=
      mul_le_mul hf1 (by linarith) (by positivity) (by norm_num)
    linarith
  · have h1 := mul_le_mul_of_nonneg_left hln.1 hf0
    have h2 := mul_le_mul_of_nonneg_left hln.2 hf0
    rw [abs_le]
    constructor <;> nlinarith

/-- The series has 64 terms, and what they are cut by and what comes after them is small. -/
theorem expSeries_near (hz : (z / 2 ^ 128 : ℝ) ≤ 7 / 10) :
    |(expSeries z 64 0 (2 ^ 128) 0 : ℝ) / 2 ^ 128 - Real.exp (z / 2 ^ 128)| ≤ 1 / 2 ^ 99 := by
  have hz0 : (0 : ℝ) ≤ z / 2 ^ 128 := by positivity
  have hseries := Real.exp_bound (x := z / 2 ^ 128) (by rw [abs_of_nonneg hz0]; linarith)
    (n := 64) (by norm_num)
  -- What is left out after 64 terms is below 1 / 2 ^ 100 ...
  have hrest : |(z / 2 ^ 128 : ℝ)| ^ 64 * ((64 : ℕ).succ / ((64 : ℕ).factorial * (64 : ℕ))) ≤
      1 / 2 ^ 100 := by
    have : |(z / 2 ^ 128 : ℝ)| ^ 64 ≤ 1 := by
      rw [abs_of_nonneg hz0]
      exact pow_le_one₀ hz0 (by linarith)
    calc |(z / 2 ^ 128 : ℝ)| ^ 64 * ((64 : ℕ).succ / ((64 : ℕ).factorial * (64 : ℕ)))
        ≤ 1 * ((64 : ℕ).succ / ((64 : ℕ).factorial * (64 : ℕ))) :=
          mul_le_mul_of_nonneg_right this (by positivity)
      _ ≤ 1 / 2 ^ 100 := by norm_num [Nat.factorial]
  have hterms : ∑ i ∈ range 64, exactTerm z (0 + i) =
      (∑ i ∈ range 64, (z / 2 ^ 128 : ℝ) ^ i / i.factorial) * 2 ^ 128 := by
    rw [sum_mul]
    exact sum_congr rfl fun i _ => by rw [Nat.zero_add]; rfl
  obtain ⟨hsum, hsum'⟩ := expSeries_bounds hz 64 0 (2 ^ 128) 0
    (by norm_num [exactTerm]) (by norm_num [exactTerm])
  rw [hterms] at hsum hsum'
  generalize ∑ i ∈ range 64, (z / 2 ^ 128 : ℝ) ^ i / i.factorial = S at *
  generalize expSeries z 64 0 (2 ^ 128) 0 = n at *
  -- ... and the terms that are summed are cut by 8 each.
  have hcut : |(n : ℝ) / 2 ^ 128 - S| ≤ 512 / 2 ^ 128 := by
    rw [div_sub' (by positivity), abs_div, abs_of_pos (by positivity : (0 : ℝ) < 2 ^ 128)]
    refine div_le_div_of_nonneg_right (abs_le.mpr ?_) (by positivity)
    push_cast at hsum hsum'
    constructor <;> linarith
  rw [abs_sub_comm] at hseries
  linarith [abs_sub_le ((n : ℝ) / 2 ^ 128) S (Real.exp (z / 2 ^ 128))]

theorem near_exp2Fixed {f : Nat} (hf : f < 2 ^ 128) :
    |(exp2Fixed f : ℝ) / 2 ^ 128 - 2 ^ (f / 2 ^ 128 : ℝ)| ≤ 1 / 2 ^ 59 := by
  obtain ⟨hz, hclose⟩ := fixedArgument_near hf
  -- The series is near the power of its own argument, and that argument is near the exact one.
  have hseries := expSeries_near hz
  have hexp := abs_exp_sub_exp_le (a := Real.log 2 * (f / 2 ^ 128)) hz
    (by rw [abs_sub_comm]; exact le_trans hclose (by norm_num))
  rw [abs_sub_comm, abs_sub_comm (Real.log 2 * _)] at hexp
  have hdef : exp2Fixed f = expSeries ((f * fixedLn2) >>> fractionBits) 64 0 (2 ^ 128) 0 := rfl
  rw [Real.rpow_def_of_pos two_pos, hdef]
  generalize (f * fixedLn2) >>> fractionBits = z at *
  linarith [abs_sub_le ((expSeries z 64 0 (2 ^ 128) 0 : ℝ) / 2 ^ 128) (Real.exp (z / 2 ^ 128))
    (Real.exp (Real.log 2 * (f / 2 ^ 128)))]

end exponential

/-! ## Logarithms -/

section logarithm

/-- What is cut to a whole number of at least 256 bits keeps its logarithm. -/
theorem logb_cut {q n : ℝ} (hn : 2 ^ 256 ≤ n) (hle : n ≤ q) (hlt : q - 1 ≤ n) :
    Real.logb 2 n ≤ Real.logb 2 q ∧ Real.logb 2 q - 1 / 2 ^ 255 ≤ Real.logb 2 n := by
  have hn0 : 0 < n := lt_of_lt_of_le (by positivity) hn
  have hq0 : 0 < q := lt_of_lt_of_le hn0 hle
  refine ⟨Real.logb_le_logb_of_le one_lt_two hn0 hle, ?_⟩
  -- The two logarithms differ by that of the quotient, which is next to one.
  have hquot : Real.logb 2 q - Real.logb 2 n = Real.log (q / n) / Real.log 2 := by
    rw [← Real.logb_div hq0.ne' hn0.ne']
    rfl
  have hlog : Real.log (q / n) ≤ 1 / 2 ^ 256 := by
    have h1 := Real.log_le_sub_one_of_pos (div_pos hq0 hn0)
    have h2 : q / n - 1 ≤ 1 / 2 ^ 256 := by
      rw [div_sub_one hn0.ne', div_le_div_iff₀ hn0 (by positivity)]
      nlinarith
    linarith
  have hln2 := Real.log_two_gt_d9
  have : Real.log (q / n) / Real.log 2 ≤ 1 / 2 ^ 255 := by
    rw [div_le_iff₀ (by linarith)]
    calc Real.log (q / n) ≤ 1 / 2 ^ 256 := hlog
      _ = 1 / 2 ^ 255 * (1 / 2) := by norm_num
      _ ≤ 1 / 2 ^ 255 * Real.log 2 := mul_le_mul_of_nonneg_left (by linarith) (by positivity)
  linarith

/-- The logarithm of a fixed point number with all guard bits. -/
noncomputable def guardedLog (y : Nat) : ℝ := Real.logb 2 (y / 2 ^ 256)

theorem guardedLog_eq {y : Nat} (hy : 2 ^ 256 ≤ y) : guardedLog y = Real.logb 2 y - 256 := by
  have hy0 : (y : ℝ) ≠ 0 := by
    have : y ≠ 0 := by rintro rfl; norm_num at hy
    exact_mod_cast this
  unfold guardedLog
  rw [Real.logb_div hy0 (by positivity), Real.logb_pow, Real.logb_self_eq_one one_lt_two]
  norm_num

theorem guardedLog_nonneg {y : Nat} (hy : 2 ^ 256 ≤ y) : 0 ≤ guardedLog y := by
  apply Real.logb_nonneg one_lt_two
  rw [one_le_div (by positivity)]
  exact_mod_cast hy

theorem guardedLog_le_one {y : Nat} (hy : 2 ^ 256 ≤ y) (hlt : y < 2 ^ 256 * 2) : guardedLog y ≤ 1 := by
  unfold guardedLog
  rw [← Real.logb_self_eq_one (b := 2) one_lt_two]
  have hy' : (2 : ℝ) ^ 256 ≤ y := by exact_mod_cast hy
  apply Real.logb_le_logb_of_le one_lt_two (by positivity)
  rw [div_le_iff₀ (by positivity), mul_comm]
  exact_mod_cast hlt.le

/-- A square has twice the logarithm, however many bits of it are cut. -/
theorem guardedLog_square {y : Nat} (hy : 2 ^ 256 ≤ y) (k : Nat)
    (hk : 2 ^ 256 ≤ y * y / 2 ^ (256 + k)) :
    guardedLog (y * y / 2 ^ (256 + k)) + k ≤ 2 * guardedLog y ∧
      2 * guardedLog y - 1 / 2 ^ 255 ≤ guardedLog (y * y / 2 ^ (256 + k)) + k := by
  have hy0 : (y : ℝ) ≠ 0 := by
    have : y ≠ 0 := by rintro rfl; norm_num at hy
    exact_mod_cast this
  have hle : ((y * y / 2 ^ (256 + k) : ℕ) : ℝ) ≤ y * y / 2 ^ (256 + k) := by
    refine le_trans Nat.cast_div_le (le_of_eq ?_)
    push_cast
    rfl
  have hge : (y * y / 2 ^ (256 + k) : ℝ) - 1 ≤ ((y * y / 2 ^ (256 + k) : ℕ) : ℝ) := by
    refine le_trans (le_of_eq ?_) (div_sub_one_le_cast_div _ _)
    push_cast
    rfl
  -- The exact square has twice the logarithm, less the bits that are shifted out.
  obtain ⟨hupper, hlower⟩ := logb_cut (by exact_mod_cast hk) hle hge
  have hlog : Real.logb 2 (y * y / 2 ^ (256 + k) : ℝ) = 2 * guardedLog y + 256 - k := by
    rw [guardedLog_eq hy, Real.logb_div (mul_ne_zero hy0 hy0) (by positivity),
      Real.logb_mul hy0 hy0, Real.logb_pow, Real.logb_self_eq_one one_lt_two]
    push_cast
    ring
  rw [guardedLog_eq hk]
  constructor <;> linarith

theorem read_bit {c a b g g' δ β : ℝ} (hc : 0 ≤ c) (hle : g' + b ≤ 2 * g) (hge : 2 * g - δ ≤ g' + b)
    (hupper : β ≤ c * (2 * a + b + g')) (hlower : c * (2 * a + b + g') - 1 - (c - 1) * δ ≤ β) :
    β ≤ c * 2 * (a + g) ∧ c * 2 * (a + g) - 1 - (c * 2 - 1) * δ ≤ β := by
  have hle' := mul_le_mul_of_nonneg_left hle hc
  have hge' := mul_le_mul_of_nonneg_left hge hc
  constructor <;> linarith

/-- Every bit that is read off doubles what is known, and the rest is below one bit. -/
theorem log2Bits_bounds (count acc : Nat) {y : Nat} (hy : 2 ^ 256 ≤ y) (hlt : y < 2 ^ 256 * 2) :
    (log2Bits count y acc : ℝ) ≤ 2 ^ count * (acc + guardedLog y) ∧
      2 ^ count * (acc + guardedLog y) - 1 - (2 ^ count - 1) * (1 / 2 ^ 255) ≤
        log2Bits count y acc := by
  induction count generalizing y acc with
  | zero =>
    -- with no bit left to read, the rest of the logarithm is cut, and that is below one
    have h0 := guardedLog_nonneg hy
    have h1 := guardedLog_le_one hy hlt
    unfold log2Bits
    constructor <;> norm_num <;> linarith
  | succ count ih =>
    have hsquare : (y * y) >>> guardBits = y * y / 2 ^ 256 := Nat.shiftRight_eq_div_pow _ _
    have hlow : 2 ^ 256 ≤ y * y / 2 ^ 256 := by
      rw [Nat.le_div_iff_mul_le (by positivity)]
      exact Nat.mul_le_mul hy hy
    have hhigh : y * y / 2 ^ 256 < 2 ^ 256 * 2 * 2 := by
      rw [Nat.div_lt_iff_lt_mul (by positivity),
        show (2 : ℕ) ^ 256 * 2 * 2 * 2 ^ 256 = 2 ^ 256 * 2 * (2 ^ 256 * 2) by ring]
      exact Nat.mul_lt_mul'' hlt hlt
    have hpow : (0 : ℝ) < 2 ^ count := by positivity
    have htop : (2 : ℕ) ^ (256 + 1) = 2 ^ 256 * 2 := pow_succ 2 256
    unfold log2Bits
    rw [hsquare]
    dsimp only
    -- the square is below four: its bit is one if it reaches two, and then half of it is kept
    split
    · next hbit =>
      rw [ge_iff_le, twoPow_eq, guardBits, htop] at hbit
      have hhalf : (y * y / 2 ^ 256) >>> 1 = y * y / 2 ^ (256 + 1) := by
        rw [Nat.shiftRight_eq_div_pow, Nat.div_div_eq_div_mul, pow_add]
      have hk : 2 ^ 256 ≤ y * y / 2 ^ (256 + 1) := by
        rw [← hhalf, Nat.shiftRight_eq_div_pow, Nat.le_div_iff_mul_le (by positivity), pow_one]
        exact hbit
      have hk' : (y * y / 2 ^ 256) >>> 1 < 2 ^ 256 * 2 := by
        rw [Nat.shiftRight_eq_div_pow, Nat.div_lt_iff_lt_mul (by positivity), pow_one]
        exact hhigh
      rw [hhalf] at hk'
      obtain ⟨hle, hge⟩ := guardedLog_square hy 1 hk
      obtain ⟨hupper, hlower⟩ := ih (2 * acc + 1) hk hk'
      rw [Nat.cast_one] at hle hge
      rw [Nat.cast_add, Nat.cast_mul, Nat.cast_ofNat, Nat.cast_one] at hupper hlower
      rw [hhalf, pow_succ (2 : ℝ) count]
      exact read_bit hpow.le hle hge hupper hlower
    · next hbit =>
      rw [ge_iff_le, twoPow_eq, guardBits, htop, Nat.not_le] at hbit
      obtain ⟨hle, hge⟩ := guardedLog_square hy 0 hlow
      obtain ⟨hupper, hlower⟩ := ih (2 * acc) hlow hbit
      push_cast at hle hge hupper hlower
      rw [pow_succ]
      refine read_bit hpow.le hle hge ?_ ?_ <;> rwa [add_zero]

/-- A logarithm in fixed point is cut, and what is cut is below two units. -/
theorem log2Fixed_bounds {m : Nat} (hm : 0 < m) :
    (log2Fixed m : ℝ) ≤ 2 ^ 128 * Real.logb 2 m ∧
      2 ^ 128 * Real.logb 2 m - 2 ≤ log2Fixed m := by
  -- The leading bit is the whole part, and what follows it is in the range of `log2Bits`.
  have hm0 : (m : ℝ) ≠ 0 := by exact_mod_cast Nat.ne_of_gt hm
  have hlog : 2 ^ m.log2 ≤ m := Nat.log2_self_le (Nat.ne_of_gt hm)
  have hlow : 2 ^ 256 ≤ m * 2 ^ 256 / 2 ^ m.log2 := by
    rw [Nat.le_div_iff_mul_le (by positivity), Nat.mul_comm]
    exact Nat.mul_le_mul_right _ hlog
  have hhigh : m * 2 ^ 256 / 2 ^ m.log2 < 2 ^ 256 * 2 := by
    rw [Nat.div_lt_iff_lt_mul (by positivity),
      show (2 : ℕ) ^ 256 * 2 * 2 ^ m.log2 = 2 ^ (m.log2 + 1) * 2 ^ 256 by ring]
    exact Nat.mul_lt_mul_of_pos_right Nat.lt_log2_self (by positivity)
  have hle : ((m * 2 ^ 256 / 2 ^ m.log2 : ℕ) : ℝ) ≤ m * 2 ^ 256 / 2 ^ m.log2 := by
    refine le_trans Nat.cast_div_le (le_of_eq ?_)
    rw [Nat.cast_mul, Nat.cast_pow, Nat.cast_pow, Nat.cast_ofNat]
  have hge : (m * 2 ^ 256 / 2 ^ m.log2 : ℝ) - 1 ≤ ((m * 2 ^ 256 / 2 ^ m.log2 : ℕ) : ℝ) := by
    refine le_trans (le_of_eq ?_) (div_sub_one_le_cast_div _ _)
    rw [Nat.cast_mul, Nat.cast_pow, Nat.cast_pow, Nat.cast_ofNat]
  obtain ⟨hupper, hlower⟩ := logb_cut (by exact_mod_cast hlow) hle hge
  have hvalue : Real.logb 2 (m * 2 ^ 256 / 2 ^ m.log2 : ℝ) = Real.logb 2 m + 256 - m.log2 := by
    rw [Real.logb_div (mul_ne_zero hm0 (by positivity)) (by positivity),
      Real.logb_mul hm0 (by positivity), Real.logb_pow, Real.logb_pow,
      Real.logb_self_eq_one one_lt_two]
    push_cast
    ring
  obtain ⟨hbits, hbits'⟩ := log2Bits_bounds 128 0 hlow hhigh
  rw [guardedLog_eq hlow] at hbits hbits'
  have hdef : log2Fixed m = m.log2 * 2 ^ 128 + log2Bits 128 (m * 2 ^ 256 / 2 ^ m.log2) 0 := rfl
  rw [hdef]
  rw [Nat.cast_add, Nat.cast_mul, Nat.cast_pow, Nat.cast_ofNat]
  rw [Nat.cast_zero, zero_add] at hbits hbits'
  rw [hvalue] at hupper hlower
  constructor <;> linarith

end logarithm

end SpeedTrial.Numeric
