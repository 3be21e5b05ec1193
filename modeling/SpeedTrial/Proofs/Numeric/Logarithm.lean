import SpeedTrial.Numeric.Logarithm
import SpeedTrial.Proofs.Numeric.FixedPoint
import SpeedTrial.Proofs.Numeric.Nearest

/-!
# How exact logarithms are

The logarithm of a count is the number of octaves below it, the logarithm of a centre and a series in what
the count is above the centre.  The table of the centres is checked once, entry by entry, for what the
series relies on; everything else follows the arithmetic.

* `fits_centreAt` is what the table guarantees.
* `near_log2Near` is the error near a centre, and `near_log2` that of the logarithm of a count.
-/

namespace SpeedTrial.Numeric

open Finset

/-! ## The upper half of a double -/

theorem toNat_upperWord (b : UInt64) :
    ((b >>> 32) <<< 32).toNat = b.toNat / 2 ^ 32 * 2 ^ 32 := by
  have hb := b.toNat_lt
  rw [UInt64.toNat_shiftLeft, UInt64.toNat_shiftRight, show (32 : UInt64).toNat % 64 = 32 from rfl,
    Nat.shiftRight_eq_div_pow, Nat.shiftLeft_eq]
  omega

theorem exponentField_ne_of_value {x : Float} {a : ℚ} (hx : value? x = some a) :
    exponentField x ≠ 2047 := by
  intro h
  unfold value? parts? at hx
  rw [h] at hx
  cases hx

theorem abs_fields_le {f g : Nat} (h : f ≤ g) (e : Nat) :
    |if e = 0 then (f : ℚ) * 2 ^ (-1074 : ℤ) else (f + 2 ^ 52) * 2 ^ (e - 1075 : ℤ)| ≤
      |if e = 0 then (g : ℚ) * 2 ^ (-1074 : ℤ) else (g + 2 ^ 52) * 2 ^ (e - 1075 : ℤ)| := by
  have h' : (f : ℚ) ≤ g := by exact_mod_cast h
  split
  · rw [abs_of_nonneg (by positivity), abs_of_nonneg (by positivity)]
    exact mul_le_mul_of_nonneg_right h' (by positivity)
  · rw [abs_of_nonneg (by positivity), abs_of_nonneg (by positivity)]
    exact mul_le_mul_of_nonneg_right (by linarith) (by positivity)

/-- The upper half of a double is no larger than the double. -/
theorem value?_upperHalf {x : Float} {a : ℚ} (hx : value? x = some a) :
    ∃ b, value? (upperHalf x) = some b ∧ |b| ≤ |a| := by
  have htop := exponentField_ne_of_value hx
  have hword := toNat_upperWord x.toBits
  -- the exponent lies in the half that is kept
  have hexp : ((x.toBits >>> 32) <<< 32).toNat / 2 ^ 52 % 2048 = exponentField x := by
    unfold exponentField
    rw [hword, Nat.shiftRight_eq_div_pow]
    omega
  have hbits : (upperHalf x).toBits = (x.toBits >>> 32) <<< 32 := by
    refine toBits_ofBits ?_
    rw [Nat.shiftRight_eq_div_pow, hexp]
    exact htop
  have hexp' : exponentField (upperHalf x) = exponentField x := by
    rw [← hexp, exponentField, hbits, Nat.shiftRight_eq_div_pow]
  have hfrac : fractionField (upperHalf x) ≤ fractionField x := by
    unfold fractionField
    rw [hbits, hword, twoPow_eq]
    omega
  rw [value?_of_fields (Eq.refl (exponentField x)) htop] at hx
  refine ⟨_, value?_of_fields hexp' htop, ?_⟩
  rw [← Option.some.inj hx, abs_mul, abs_mul, abs_signum, abs_signum, one_mul, one_mul]
  exact abs_fields_le hfrac (exponentField x)

/-! ## The centres -/

theorem inverse_ofInverse (x : Float) : (Centre.ofInverse x).inverse = x := by
  unfold Centre.ofInverse
  split <;> rfl

/-- Every centre is that of its inverse. -/
theorem ofInverse_inverse (part : Nat) : Centre.ofInverse (centreAt part).inverse = centreAt part := by
  have h : ∃ x, centreAt part = Centre.ofInverse x := by
    unfold centreAt centres
    rw [Array.getElem?_map]
    cases inverses[part]? with
    | none => exact ⟨1.0, rfl⟩
    | some b => exact ⟨Float.ofBits b, rfl⟩
  obtain ⟨x, hx⟩ := h
  rw [hx, inverse_ofInverse]

/-- What is read off the table: every inverse is close to one over any number of its part, and what its
centre is above the nearest double is small. -/
theorem centres_fit : ∀ part < 64,
    (parts? (centreAt part).inverse).any (fun p =>
      !p.negative && p.exponent == (if part < firstHalved then -53 else -52) &&
      decide (2 ^ 105 ≤ (2 ^ 52 + part * 2 ^ 46) * p.significand + 2 ^ 99) &&
      decide ((2 ^ 52 + (part + 1) * 2 ^ 46) * p.significand ≤ 2 ^ 105 + 2 ^ 99)) = true ∧
    (parts? (centreAt part).low).any (fun p => p.exponent ≤ -105) = true := by
  decide +kernel

/-- A centre, by one over it. -/
structure Centre.Fits (c : Centre) (I : ℝ) : Prop where
  inverse : Near c.inverse I 0
  high : Near c.high (1 / I) (1 / 2 ^ 51)
  low : Near c.low 0 (1 / 2 ^ 52)
  log : Near c.log (-Real.logb 2 I) (1 / 2 ^ 50)
  quarter_le : 1 / 4 ≤ I
  lt_two : I < 2

theorem abs_logb_le_two {I : ℝ} (h : 1 / 4 ≤ I) (h' : I < 2) : |Real.logb 2 I| ≤ 2 := by
  rw [abs_le]
  constructor
  · rw [Real.le_logb_iff_rpow_le one_lt_two (by linarith)]
    norm_num
    linarith
  · rw [Real.logb_le_iff_le_rpow one_lt_two (by linarith)]
    norm_num
    linarith

/-- The table rounds the logarithm of a centre only once, from fixed point. -/
theorem near_log_ofInverse {x : Float} {p : Parts} (hp : parts? x = some p) (hsig : 0 < p.significand)
    (hlow : (1 / 4 : ℝ) ≤ p.significand * 2 ^ p.exponent)
    (hhigh : (p.significand * 2 ^ p.exponent : ℝ) < 2) :
    Near (Centre.ofInverse x).log (-Real.logb 2 (p.significand * 2 ^ p.exponent)) (1 / 2 ^ 50) := by
  have hvalue : (Centre.ofInverse x).log =
      nearest (0 < p.log2Fixed) p.log2Fixed.natAbs (2 ^ 128) := by
    unfold Centre.ofInverse
    rw [hp]
    rfl
  obtain ⟨hle, hge⟩ := log2Fixed_bounds hsig
  set l := Real.logb 2 (p.significand * 2 ^ p.exponent) with hl
  -- In fixed point only the logarithm of the significand is cut; the exponent is whole.
  have hsplit : l = Real.logb 2 p.significand + p.exponent := by
    rw [hl, Real.logb_mul (by exact_mod_cast hsig.ne') (by positivity), ← Real.rpow_intCast,
      Real.logb_rpow two_pos (by norm_num)]
  have hfixed : |(p.log2Fixed : ℝ) / 2 ^ 128 - l| ≤ 1 / 2 ^ 120 := by
    have hdef : (p.log2Fixed : ℝ) = log2Fixed p.significand + p.exponent * 2 ^ 128 := by
      unfold Parts.log2Fixed fixedOne fractionBits
      push_cast
      norm_num
    rw [hdef, hsplit, abs_le]
    constructor <;> linarith
  have hl2 : |l| ≤ 2 := abs_logb_le_two hlow hhigh
  rw [hvalue]
  generalize p.log2Fixed = k at hfixed
  -- From here on only the rounding to a double is left, and its grid follows from the bound of two.
  have hsign : (signum (0 < k) : ℝ) * (k.natAbs / 2 ^ 128) = -(k / 2 ^ 128) := by
    have h : (signum (0 < k) : ℝ) * k.natAbs = -k := by exact_mod_cast signum_pos_mul_natAbs k
    rw [← mul_div_assoc, h, neg_div]
  have hmagnitude : (k.natAbs / (2 ^ 128 : ℕ) : ℝ) ≤ 2 ^ (2 : ℤ) := by
    have h : |(k : ℝ) / 2 ^ 128| ≤ |l| + 1 / 2 ^ 120 := by
      have := abs_sub_abs_le_abs_sub ((k : ℝ) / 2 ^ 128) l
      linarith
    rw [abs_div, abs_of_pos (by positivity : (0 : ℝ) < 2 ^ 128)] at h
    rw [Nat.cast_natAbs, Int.cast_abs]
    push_cast
    norm_num at *
    linarith
  have hround := near_nearest (N := 2) (0 < k) k.natAbs (Nat.two_pow_pos 128) (by norm_num) (by norm_num)
    hmagnitude
  rw [Nat.cast_pow, Nat.cast_ofNat, hsign] at hround
  refine (hround.trans (d := 1 / 2 ^ 120) ?_).mono (by norm_num)
  rw [neg_sub_neg, abs_sub_comm]
  exact hfixed

theorem near_high_ofInverse {x : Float} {p : Parts} (hp : parts? x = some p)
    (hexp : p.exponent ≤ 0) (hlow : (1 / 4 : ℝ) ≤ p.significand * 2 ^ p.exponent) :
    Near (Centre.ofInverse x).high (1 / (p.significand * 2 ^ p.exponent)) (1 / 2 ^ 51) := by
  have hvalue : (Centre.ofInverse x).high =
      nearest false (2 ^ (-p.exponent).toNat) p.significand := by
    unfold Centre.ofInverse
    rw [hp]
    rfl
  have hsig : 0 < p.significand := by
    rcases Nat.eq_zero_or_pos p.significand with h | h
    · rw [h, Nat.cast_zero, zero_mul] at hlow
      norm_num at hlow
    · exact h
  -- The centre is one over the significand, and the exponent becomes a power in the numerator.
  have hquot : ((2 ^ (-p.exponent).toNat : ℕ) / p.significand : ℝ) =
      1 / (p.significand * 2 ^ p.exponent) := by
    rw [Nat.cast_pow, Nat.cast_ofNat, ← zpow_natCast, Int.toNat_of_nonneg (by omega), zpow_neg]
    field_simp
  have hround := near_nearest (N := 2) false (2 ^ (-p.exponent).toNat) hsig (by norm_num)
    (by norm_num) (by
      rw [hquot, div_le_iff₀ (by linarith)]
      norm_num
      linarith)
  rw [hquot, show signum false = 1 from rfl, Rat.cast_one, one_mul] at hround
  rw [hvalue]
  exact hround.mono (by norm_num)

/-- An inverse of this size is that of a centre between one half and four. -/
theorem inverse_bounds {n : ℕ} {e : ℤ} (hleast : 2 ^ 51 ≤ n) (hlt : n < 2 ^ 53) (he : -53 ≤ e)
    (he' : e ≤ -52) : (1 / 4 : ℝ) ≤ n * 2 ^ e ∧ (n * 2 ^ e : ℝ) < 2 := by
  have h1 : (2 : ℝ) ^ 51 ≤ n := by exact_mod_cast hleast
  have h2 : (n : ℝ) < 2 ^ 53 := by exact_mod_cast hlt
  have h3 : (2 : ℝ) ^ (-53 : ℤ) ≤ 2 ^ e := zpow_le_zpow_right₀ one_le_two he
  have h4 : (2 : ℝ) ^ e ≤ 2 ^ (-52 : ℤ) := zpow_le_zpow_right₀ one_le_two he'
  constructor
  · calc (1 / 4 : ℝ) = 2 ^ 51 * 2 ^ (-53 : ℤ) := by norm_num
      _ ≤ n * 2 ^ e := mul_le_mul h1 h3 (by positivity) (by positivity)
  · calc (n * 2 ^ e : ℝ) < 2 ^ 53 * 2 ^ (-52 : ℤ) := mul_lt_mul h2 h4 (by positivity) (by positivity)
      _ = 2 := by norm_num

/-- Every centre of the table is that of its part. -/
theorem fits_centreAt {part : Nat} (h : part < 64) :
    ∃ I : ℝ, (centreAt part).Fits I ∧
      ∀ m : ℕ, 2 ^ 52 + part * 2 ^ 46 ≤ m → m < 2 ^ 52 + (part + 1) * 2 ^ 46 →
        |m * (2 : ℝ) ^ (-(if part < firstHalved then 52 else 53) : ℤ) * I - 1| ≤ 1 / 2 ^ 6 := by
  obtain ⟨hinverse, hlow⟩ := centres_fit part h
  obtain ⟨p, hp, hp'⟩ := (Option.any_eq_true _ _).mp hinverse
  obtain ⟨q, hq, hq'⟩ := (Option.any_eq_true _ _).mp hlow
  simp only [Bool.and_eq_true, Bool.not_eq_true', beq_iff_eq, decide_eq_true_eq] at hp' hq'
  obtain ⟨⟨⟨hneg, hexp⟩, hleast⟩, hgreatest⟩ := hp'
  have hsig := significand_lt hp
  -- a smaller significand is not close to one over any number of the part
  have hsig' : 2 ^ 51 ≤ p.significand := by
    by_contra hlt
    have := Nat.mul_le_mul (show 2 ^ 52 + part * 2 ^ 46 ≤ 2 ^ 53 by omega)
      (show p.significand ≤ 2 ^ 51 - 1 by omega)
    omega
  have hscale : (2 : ℝ) ^ (-(if part < firstHalved then 52 else 53) : ℤ) * 2 ^ p.exponent =
      1 / 2 ^ 105 := by
    rw [← zpow_add₀ two_ne_zero, hexp]
    split <;> norm_num
  have hexp' : -53 ≤ p.exponent ∧ p.exponent ≤ -52 := by
    rw [hexp]
    split <;> omega
  obtain ⟨hquarter, htwo⟩ := inverse_bounds hsig' hsig hexp'.1 hexp'.2
  refine ⟨p.significand * 2 ^ p.exponent, ⟨?_, ?_, ?_, ?_, hquarter, htwo⟩, fun m hm hm' => ?_⟩
  · refine ⟨p.value, value?_of_parts hp, ?_⟩
    rw [Parts.value, hneg]
    norm_num
  · rw [← ofInverse_inverse]
    exact near_high_ofInverse hp (by omega) hquarter
  · exact (near_zero hq hq').mono (by norm_num)
  · rw [← ofInverse_inverse]
    exact near_log_ofInverse hp (by omega) hquarter htwo
  · -- the table was checked at the two ends of the part, and the product rises in between
    have hle := Nat.le_trans hleast
      (Nat.add_le_add_right (Nat.mul_le_mul_right p.significand hm) (2 ^ 99))
    have hge := Nat.le_trans (Nat.mul_le_mul_right p.significand hm'.le) hgreatest
    have hle' : (2 : ℝ) ^ 105 ≤ m * p.significand + 2 ^ 99 := by exact_mod_cast hle
    have hge' : (m * p.significand : ℝ) ≤ 2 ^ 105 + 2 ^ 99 := by exact_mod_cast hge
    have hproduct : (m : ℝ) * 2 ^ (-(if part < firstHalved then 52 else 53) : ℤ) *
        (p.significand * 2 ^ p.exponent) = m * p.significand / 2 ^ 105 := by
      rw [mul_mul_mul_comm, hscale, mul_one_div]
    rw [hproduct, abs_le]
    constructor <;> linarith

/-! ## The tail of the series -/

section tail

/-- One over the natural logarithm of two. -/
noncomputable def log2e : ℝ := 1 / Real.log (2 : ℕ)

theorem log2e_eq : log2e = 1 / Real.log 2 := by
  rw [log2e, Nat.cast_ofNat]

theorem log2e_bounds :
    14426950408889634073599 / 10 ^ 22 < log2e ∧ log2e < 14426950408889634073600 / 10 ^ 22 := by
  obtain ⟨hlo, hhi⟩ := log_two_bounds
  have hpos : 0 < Real.log 2 := by linarith
  rw [log2e_eq]
  constructor
  · rw [lt_div_iff₀ hpos]
    norm_num at *
    linarith
  · rw [div_lt_iff₀ hpos]
    norm_num at *
    linarith

/-- The coefficients are those of the logarithmic series, moved a little where that makes up for the
terms left out. -/
theorem near_tailCoefficients :
    Near (Float.ofBits 0xBFE71547652B8339) (-(log2e / 2)) (1 / 2 ^ 47) ∧
      Near (Float.ofBits 0x3FDEC709DC3A04BE) (log2e / 3) (1 / 2 ^ 46) ∧
      Near (Float.ofBits 0xBFD7154764702FFB) (-(log2e / 4)) (1 / 2 ^ 30) ∧
      Near (Float.ofBits 0x3FD2776C50034C48) (log2e / 5) (1 / 2 ^ 30) ∧
      Near (Float.ofBits 0xBFCEC7B328EA92BC) (-(log2e / 6)) (1 / 2 ^ 15) ∧
      Near (Float.ofBits 0x3FCA6225E117F92E) (log2e / 7) (1 / 2 ^ 15) := by
  obtain ⟨hlo, hhi⟩ := log2e_bounds
  refine ⟨near_ofBits (p := ⟨true, 0x171547652B8339, -53⟩) (by decide) ?_,
    near_ofBits (p := ⟨false, 0x1EC709DC3A04BE, -54⟩) (by decide) ?_,
    near_ofBits (p := ⟨true, 0x17154764702FFB, -54⟩) (by decide) ?_,
    near_ofBits (p := ⟨false, 0x12776C50034C48, -54⟩) (by decide) ?_,
    near_ofBits (p := ⟨true, 0x1EC7B328EA92BC, -55⟩) (by decide) ?_,
    near_ofBits (p := ⟨false, 0x1A6225E117F92E, -55⟩) (by decide) ?_⟩ <;>
  · rw [abs_le]
    norm_num [Parts.value] at *
    constructor <;> linarith

/-- The logarithmic series from its second term on, over the square of the remainder. -/
noncomputable def tailSeries (ρ : ℝ) : ℝ :=
  ∑ i ∈ range 6, (-1) ^ (i + 1) * (log2e / (i + 2 : ℕ)) * ρ ^ i

/-- The series in the order in which the double is computed. -/
theorem tailSeries_eq (ρ : ℝ) : tailSeries ρ =
    -(log2e / 2) + ρ * (log2e / 3) + ρ * ρ * (-(log2e / 4) + ρ * (log2e / 5)) +
      ρ * ρ * (ρ * ρ) * (-(log2e / 6) + ρ * (log2e / 7)) := by
  unfold tailSeries
  simp only [sum_range_succ, sum_range_zero]
  push_cast
  ring

/-- The logarithm of what is close to one and the first terms of its series. -/
theorem abs_series_sub_le {ρ : ℝ} (hρ : |ρ| ≤ 1 / 2 ^ 6) :
    |ρ * log2e + ρ * ρ * tailSeries ρ - Real.logb 2 (1 + ρ)| ≤ 1 / 2 ^ 47 := by
  obtain ⟨hlo, hhi⟩ := log2e_bounds
  have hlog := Real.abs_log_sub_add_sum_range_le (x := -ρ) (by rw [abs_neg]; linarith) 7
  rw [sub_neg_eq_add, abs_neg] at hlog
  -- What is left out after seven terms is below 1 / 2 ^ 48 and a little.
  have hrest : |ρ| ^ (7 + 1) / (1 - |ρ|) ≤ 1 / 2 ^ 48 * (64 / 63) := by
    have hpow : |ρ| ^ (7 + 1) ≤ (1 / 2 ^ 6) ^ (7 + 1) := pow_le_pow_left₀ (abs_nonneg _) hρ _
    rw [div_le_iff₀ (by linarith)]
    norm_num at *
    linarith
  have hsplit : ρ * log2e + ρ * ρ * tailSeries ρ - Real.logb 2 (1 + ρ) =
      -(log2e * ((∑ i ∈ range 7, (-ρ) ^ (i + 1) / (i + 1)) + Real.log (1 + ρ))) := by
    rw [tailSeries_eq, Real.logb, div_eq_mul_one_div (Real.log (1 + ρ)), ← log2e_eq]
    simp only [sum_range_succ, sum_range_zero]
    push_cast
    ring
  rw [hsplit, abs_neg, abs_mul, abs_of_pos (by linarith)]
  calc log2e * |(∑ i ∈ range 7, (-ρ) ^ (i + 1) / (i + 1)) + Real.log (1 + ρ)|
      ≤ 3 / 2 * (1 / 2 ^ 48 * (64 / 63)) :=
        mul_le_mul (by linarith) (le_trans hlog hrest) (abs_nonneg _) (by norm_num)
    _ ≤ 1 / 2 ^ 47 := by norm_num

theorem within_log2Tail {r : Float} {ρ : ℝ} (hr : Within r ρ (1 / 2 ^ 6) (1 / 2 ^ 48)) :
    Within (log2Tail r) (tailSeries ρ) 1 (1 / 2 ^ 36) := by
  obtain ⟨hlo, hhi⟩ := log2e_bounds
  obtain ⟨h0, h1, h2, h3, h4, h5⟩ := near_tailCoefficients
  have hcoefficient : ∀ n : ℝ, 0 < n → |log2e / n| ≤ 3 / 2 / n := fun n hn => by
    rw [abs_of_pos (by positivity)]
    exact div_le_div_of_nonneg_right (by linarith) hn.le
  have h0 : Within _ (-(log2e / 2)) (3 / 4) (1 / 2 ^ 47) :=
    ⟨h0, by rw [abs_neg]; exact le_trans (hcoefficient 2 (by norm_num)) (by norm_num)⟩
  have h1 : Within _ (log2e / 3) (1 / 2) (1 / 2 ^ 46) :=
    ⟨h1, le_trans (hcoefficient 3 (by norm_num)) (by norm_num)⟩
  have h2 : Within _ (-(log2e / 4)) (3 / 8) (1 / 2 ^ 30) :=
    ⟨h2, by rw [abs_neg]; exact le_trans (hcoefficient 4 (by norm_num)) (by norm_num)⟩
  have h3 : Within _ (log2e / 5) (3 / 10) (1 / 2 ^ 30) :=
    ⟨h3, le_trans (hcoefficient 5 (by norm_num)) (by norm_num)⟩
  have h4 : Within _ (-(log2e / 6)) (1 / 4) (1 / 2 ^ 15) :=
    ⟨h4, by rw [abs_neg]; exact le_trans (hcoefficient 6 (by norm_num)) (by norm_num)⟩
  have h5 : Within _ (log2e / 7) (1 / 4) (1 / 2 ^ 15) :=
    ⟨h5, le_trans (hcoefficient 7 (by norm_num)) (by norm_num)⟩
  -- Each step is one rounding on the grid of its bound, in the order in which the double is computed.
  have hr2 := hr.mul hr (N := -11) (C := 1 / 2 ^ 12) (E := 1 / 2 ^ 52) (by norm_num)
  have hr4 := hr2.mul hr2 (N := -23) (C := 1 / 2 ^ 24) (E := 1 / 2 ^ 62) (by norm_num)
  have hr1 := hr.mul h1 (N := -6) (C := 1 / 2 ^ 7) (E := 1 / 2 ^ 48) (by norm_num)
  have hr3 := hr.mul h3 (N := -6) (C := 1 / 2 ^ 7) (E := 1 / 2 ^ 35) (by norm_num)
  have hr5 := hr.mul h5 (N := -6) (C := 1 / 2 ^ 7) (E := 1 / 2 ^ 20) (by norm_num)
  have h01 := h0.add hr1 (N := 0) (C := 4 / 5) (E := 1 / 2 ^ 46) (by norm_num)
  have h23 := h2.add hr3 (N := -1) (C := 1 / 2) (E := 1 / 2 ^ 29) (by norm_num)
  have h45 := h4.add hr5 (N := -1) (C := 1 / 2) (E := 1 / 2 ^ 14) (by norm_num)
  have hmiddle := hr2.mul h23 (N := -12) (C := 1 / 2 ^ 12) (E := 1 / 2 ^ 40) (by norm_num)
  have hlast := hr4.mul h45 (N := -24) (C := 1 / 2 ^ 24) (E := 1 / 2 ^ 37) (by norm_num)
  have hsum := h01.add hmiddle (N := 0) (C := 9 / 10) (E := 1 / 2 ^ 39) (by norm_num)
  rw [tailSeries_eq]
  exact hsum.add hlast (N := 0) (C := 1) (E := 1 / 2 ^ 36) (by norm_num)

end tail

/-! ## Logarithms near a centre -/

theorem within_of_parts {b : UInt64} {p : Parts} {r A : ℝ} (h : parts? (Float.ofBits b) = some p)
    (hr : ((p.value : ℚ) : ℝ) = r) (hA : |r| ≤ A) : Within (Float.ofBits b) r A 0 :=
  ⟨near_ofBits h (by rw [hr, sub_self, abs_zero]), hA⟩

/-- The leading bits of `log2e`. -/
def log2eLeading : ℚ := 0x17154765200000 / 2 ^ 52

/-- What `log2e` is above its leading bits, as far as it is used. -/
def log2eRest : ℚ := 0x1705FC2EEFA200 / 2 ^ 85

theorem within_log2eLeading : Within (Float.ofBits 0x3FF7154765200000) log2eLeading (3 / 2) 0 := by
  refine within_of_parts (p := ⟨false, 0x17154765200000, -52⟩) (by decide) ?_ ?_ <;>
    norm_num [Parts.value, log2eLeading, abs_of_pos]

theorem within_log2eRest : Within (Float.ofBits 0x3DE705FC2EEFA200) log2eRest (1 / 2 ^ 32) 0 := by
  refine within_of_parts (p := ⟨false, 0x1705FC2EEFA200, -85⟩) (by decide) ?_ ?_ <;>
    norm_num [Parts.value, log2eRest, abs_of_pos]

theorem abs_log2e_sub_le : |(log2eLeading : ℝ) + log2eRest - log2e| ≤ 1 / 2 ^ 64 := by
  obtain ⟨hlo, hhi⟩ := log2e_bounds
  unfold log2eLeading log2eRest
  rw [abs_le]
  norm_num at *
  constructor <;> linarith

section near

variable {c : Centre} {z k r : Float} {I ζ K ρ : ℝ}

/-- The quotient by the centre, less one. -/
theorem within_remainder (hc : c.Fits I) (hz : Near z ζ 0) (hζ : |ζ * I - 1| ≤ 1 / 2 ^ 6) :
    Within ((z - c.high - c.low) * c.inverse) (ζ * I - 1) (1 / 2 ^ 6) (1 / 2 ^ 48) := by
  have hI := hc.quarter_le
  have hI' := hc.lt_two
  -- The number is off the centre by what its quotient is off one, at most four times.
  have hcentre : |ζ - 1 / I| ≤ 1 / 2 ^ 4 := by
    have h : ζ - 1 / I = (ζ * I - 1) / I := by field_simp
    rw [h, abs_div, abs_of_pos (by linarith : 0 < I), div_le_iff₀ (by linarith)]
    norm_num at *
    linarith
  have hhigh : Within (z - c.high) (ζ - 1 / I) (1 / 2 ^ 4) (1 / 2 ^ 51 + 1 / 2 ^ 56) :=
    ⟨hz.sub hc.high (N := -3) (by norm_num) (by norm_num) (by norm_num at *; linarith) (by norm_num),
      hcentre⟩
  have hlow : Within c.low 0 0 (1 / 2 ^ 52) := ⟨hc.low, abs_zero.le⟩
  have hinverse : Within c.inverse I 2 0 := ⟨hc.inverse, by rw [abs_of_pos] <;> linarith⟩
  have hcut := hhigh.sub hlow (N := -3) (C := 1 / 2 ^ 4) (E := 1 / 2 ^ 50) (by norm_num)
  have hquotient := hcut.mul hinverse (N := -2) (C := 1 / 2 ^ 3) (E := 1 / 2 ^ 48) (by norm_num)
  have hvalue : (ζ - 1 / I - 0) * I = ζ * I - 1 := by
    field_simp
    ring
  exact ⟨hvalue ▸ hquotient.near, hζ⟩

/-- The linear part is computed in two halves, and where the remainder is cut for them does not matter. -/
theorem within_linear (hr : Within r ρ (1 / 2 ^ 6) (1 / 2 ^ 48)) : ∃ b : ℝ,
    Within (upperHalf r * Float.ofBits 0x3FF7154765200000) (b * log2eLeading) (1 / 2 ^ 4) (1 / 2 ^ 57) ∧
      Within ((r - upperHalf r) * Float.ofBits 0x3FF7154765200000 +
          r * Float.ofBits 0x3DE705FC2EEFA200)
        ((ρ - b) * log2eLeading + ρ * log2eRest) (1 / 2 ^ 2) (1 / 2 ^ 45) := by
  obtain ⟨a, ha, herr⟩ := hr.near
  obtain ⟨b, hb, hle⟩ := value?_upperHalf ha
  -- The half that is kept is no longer than the remainder, whatever it was cut at.
  have hle' : |(b : ℝ)| ≤ 1 / 2 ^ 5 := by
    have h1 : |(b : ℝ)| ≤ |(a : ℝ)| := by exact_mod_cast hle
    have h2 := abs_sub_abs_le_abs_sub (a : ℝ) ρ
    have h3 := hr.bound
    norm_num at *
    linarith
  have hupper : Within (upperHalf r) b (1 / 2 ^ 5) 0 := ⟨Near.of_value hb, hle'⟩
  have hfirst := hupper.mul within_log2eLeading (N := -4) (C := 1 / 2 ^ 4) (E := 1 / 2 ^ 57) (by norm_num)
  have hcut := hr.sub hupper (N := -3) (C := 1 / 2 ^ 4) (E := 1 / 2 ^ 47) (by norm_num)
  have hsecond := hcut.mul within_log2eLeading (N := -3) (C := 1 / 2 ^ 3) (E := 1 / 2 ^ 46) (by norm_num)
  have hthird := hr.mul within_log2eRest (N := -37) (C := 1 / 2 ^ 38) (E := 1 / 2 ^ 79) (by norm_num)
  exact ⟨b, hfirst, hsecond.add hthird (N := -2) (C := 1 / 2 ^ 2) (E := 1 / 2 ^ 45) (by norm_num)⟩

/-- The leading sum `high` is taken away and added again, so what it is off by does not count. -/
theorem near_compensated {t1 t2 t3 s : Float} {T L L' S : ℝ}
    (h3 : Within t3 T 67 (1 / 2 ^ 46 + 1 / 2 ^ 50)) (h1 : Within t1 L (1 / 2 ^ 4) (1 / 2 ^ 57))
    (h2 : Within t2 L' (1 / 2 ^ 2) (1 / 2 ^ 45)) (hs : Within s S (1 / 2 ^ 12) (1 / 2 ^ 47)) :
    Near (t3 - (t3 + t1) + t1 + t2 + s + (t3 + t1)) (T + L + L' + S) (1 / 2 ^ 44 + 1 / 2 ^ 45) := by
  -- `H` is the leading sum as it was rounded: it is exact from here on
  have hhigh := h3.add h1 (N := 7) (C := 68) (E := 1 / 2 ^ 44) (by norm_num)
  obtain ⟨H, hH, herr⟩ := hhigh.near
  generalize t3 + t1 = high at *
  have hHbound : |(H : ℝ)| ≤ 69 := by
    have habs := abs_sub_abs_le_abs_sub (H : ℝ) (T + L)
    have hbound := hhigh.bound
    norm_num at *
    linarith
  have hTH : |T - H| ≤ 1 / 2 ^ 3 := by
    have herr := abs_le.mp herr
    have hbound := abs_le.mp h1.bound
    rw [abs_le]
    norm_num at *
    constructor <;> linarith
  have hdiff : Within (t3 - high) (T - H) (1 / 2 ^ 3) (1 / 2 ^ 46 + 1 / 2 ^ 49) :=
    ⟨h3.near.sub (Near.of_value hH) (N := -2) (by norm_num) (by norm_num)
      (by norm_num at *; linarith) (by norm_num), hTH⟩
  have hlow1 := hdiff.add h1 (N := -2) (C := 1 / 2 ^ 2) (E := 1 / 2 ^ 46 + 1 / 2 ^ 48) (by norm_num)
  have hlow2 := hlow1.add h2 (N := 0) (C := 1 / 2) (E := 1 / 2 ^ 45 + 1 / 2 ^ 46 + 1 / 2 ^ 47) (by norm_num)
  have hlow := hlow2.add hs (N := 0) (C := 1) (E := 1 / 2 ^ 44 + 1 / 2 ^ 50) (by norm_num)
  have hfinal := hlow.add ⟨Near.of_value hH, hHbound⟩ (N := 7) (C := 70)
    (E := 1 / 2 ^ 44 + 1 / 2 ^ 45) (by norm_num)
  have hsum : T - H + L + L' + S + H = T + L + L' + S := by ring
  exact hsum ▸ hfinal.near

/-- The logarithm is that of the centre, the linear part of the remainder and the tail of its series. -/
theorem near_log2Near (hc : c.Fits I) (hz : Near z ζ 0) (hζ : |ζ * I - 1| ≤ 1 / 2 ^ 6)
    (hζ0 : 0 < ζ) (hk : Near k K 0) (hK : |K| ≤ 65) :
    Near (log2Near c z k) (K + Real.logb 2 ζ) (1 / 2 ^ 43) := by
  have hI := hc.quarter_le
  have hI' := hc.lt_two
  have hr := within_remainder hc hz hζ
  obtain ⟨b, ht1, ht2⟩ := within_linear hr
  have htail := within_log2Tail hr
  unfold log2Near
  dsimp only
  generalize (z - c.high - c.low) * c.inverse = r at *
  obtain ⟨ρ, hρ⟩ : ∃ ρ, ζ * I - 1 = ρ := ⟨_, rfl⟩
  rw [hρ] at hζ hr ht2 htail
  have hk : Within k K 65 0 := ⟨hk, hK⟩
  have hlog : Within c.log (-Real.logb 2 I) 2 (1 / 2 ^ 50) :=
    ⟨hc.log, by rw [abs_neg]; exact abs_logb_le_two hI hI'⟩
  have ht3 := hk.add hlog (N := 7) (C := 67) (E := 1 / 2 ^ 46 + 1 / 2 ^ 50) (by norm_num)
  have hr2 := hr.mul hr (N := -11) (C := 1 / 2 ^ 12) (E := 1 / 2 ^ 52) (by norm_num)
  have hsquare := hr2.mul htail (N := -11) (C := 1 / 2 ^ 12) (E := 1 / 2 ^ 47) (by norm_num)
  have hsum := near_compensated ht3 ht1 ht2 hsquare
  refine (hsum.trans (d := 1 / 2 ^ 46) ?_).mono (by norm_num)
  -- The centre's logarithm is taken away with the inverse, and the remainder makes up for the rest.
  have hvalue : K + Real.logb 2 ζ = K + -Real.logb 2 I + Real.logb 2 (1 + ρ) := by
    have hone : 1 + ρ = ζ * I := by linarith
    rw [hone, Real.logb_mul hζ0.ne' (by linarith)]
    ring
  have hseries := abs_le.mp (abs_series_sub_le hζ)
  have hconstant : |ρ * (log2eLeading + log2eRest - log2e)| ≤ 1 / 2 ^ 70 := by
    rw [abs_mul]
    refine le_trans (mul_le_mul hζ abs_log2e_sub_le (abs_nonneg _) (by norm_num)) (by norm_num)
  have hconstant' := abs_le.mp hconstant
  rw [hvalue, abs_le]
  norm_num at *
  constructor <;> linarith

end near

/-! ## Logarithms of whole numbers -/

/-- A logarithm hardly changes when its argument does. -/
theorem abs_logb_sub_le {v n : ℝ} (hn : 0 < n) (h : |v - n| ≤ n / 2 ^ 52) :
    |Real.logb 2 v - Real.logb 2 n| ≤ 1 / 2 ^ 50 := by
  obtain ⟨hlo, hhi⟩ := log2e_bounds
  obtain ⟨hlow, hhigh⟩ := abs_le.mp h
  have hv : 0 < v := by linarith
  -- Both quotients are close to one, and a logarithm is at most what its argument is above one.
  have hquot : |Real.log v - Real.log n| ≤ 1 / 2 ^ 51 := by
    have h1 := Real.log_le_sub_one_of_pos (div_pos hv hn)
    have h2 := Real.log_le_sub_one_of_pos (div_pos hn hv)
    have h3 : v / n ≤ 1 + 1 / 2 ^ 52 := by
      rw [div_le_iff₀ hn]
      linarith
    have h4 : n / v ≤ 1 + 1 / 2 ^ 51 := by
      rw [div_le_iff₀ hv]
      linarith
    rw [Real.log_div hv.ne' hn.ne'] at h1
    rw [Real.log_div hn.ne' hv.ne'] at h2
    rw [abs_le]
    constructor <;> linarith
  have hsplit : Real.logb 2 v - Real.logb 2 n = log2e * (Real.log v - Real.log n) := by
    rw [log2e_eq, Real.logb, Real.logb]
    ring
  rw [hsplit, abs_mul, abs_of_pos (by linarith)]
  calc log2e * |Real.log v - Real.log n| ≤ 3 / 2 * (1 / 2 ^ 51) :=
        mul_le_mul (by linarith) hquot (abs_nonneg _) (by norm_num)
    _ ≤ 1 / 2 ^ 50 := by norm_num

/-- The double nearest to a count. -/
theorem parts?_ofCount {n : Nat} (hn : 2 ≤ n) (hlt : n < 2 ^ 64) :
    ∃ p, parts? (ofCount n) = some p ∧ 2 ^ 52 ≤ p.significand ∧ -52 ≤ p.exponent ∧ p.exponent ≤ 12 ∧
      |(p.significand * 2 ^ p.exponent : ℝ) - n| ≤ n / 2 ^ 52 := by
  have hn' : (2 : ℝ) ≤ n := by exact_mod_cast hn
  have hlt' : (n : ℝ) < 2 ^ 64 := by exact_mod_cast hlt
  have hlog : ((2 : ℝ) ^ n.log2 : ℝ) ≤ n := by exact_mod_cast Nat.log2_self_le (by omega)
  have hlog' : (n : ℝ) ≤ 2 ^ ((n.log2 + 1 : ℕ) : ℤ) := by
    rw [zpow_natCast]
    exact_mod_cast Nat.lt_log2_self.le
  have hlog64 : n.log2 < 64 := (Nat.log2_lt (by omega)).mpr hlt
  obtain ⟨v, hv, herr⟩ := near_ofCount (N := (n.log2 + 1 : ℕ)) (by omega) (by omega) hlog'
  -- The octave of the count bounds the rounding by a part of the count itself.
  have herr : |(v : ℝ) - n| ≤ n / 2 ^ 52 := by
    refine le_trans herr ?_
    rw [zpow_natCast, pow_succ]
    linarith
  obtain ⟨p, hp, rfl⟩ := parts?_of_value hv
  have habs := abs_cast_value p
  have hpos : 0 < ((p.value : ℚ) : ℝ) := by
    have := (abs_le.mp herr).1
    linarith
  rw [abs_of_pos hpos] at habs
  rw [habs] at herr
  obtain ⟨hlow, hhigh⟩ := abs_le.mp herr
  have hsig : (p.significand : ℝ) < 2 ^ 53 := by exact_mod_cast significand_lt hp
  have hpow : (0 : ℝ) < 2 ^ p.exponent := by positivity
  -- An exponent that is too small or too large would put the double below one or above the count.
  have hexp : -52 ≤ p.exponent := by
    by_contra hlt
    have h1 : (2 : ℝ) ^ p.exponent ≤ 2 ^ (-53 : ℤ) := zpow_le_zpow_right₀ one_le_two (by omega)
    have h2 := mul_le_mul hsig.le h1 hpow.le (by positivity)
    rw [show (2 : ℝ) ^ 53 * 2 ^ (-53 : ℤ) = 1 by norm_num] at h2
    linarith
  have hnormal : 2 ^ 52 ≤ p.significand := (normal_or_least hp).resolve_right (by omega)
  refine ⟨p, hp, hnormal, hexp, ?_, herr⟩
  by_contra hgt
  have h1 : (2 : ℝ) ^ (13 : ℤ) ≤ 2 ^ p.exponent := zpow_le_zpow_right₀ one_le_two (by omega)
  have h2 : (2 : ℝ) ^ 52 ≤ p.significand := by exact_mod_cast hnormal
  have h3 := mul_le_mul h2 h1 (by positivity) (by positivity)
  rw [show (2 : ℝ) ^ 52 * 2 ^ (13 : ℤ) = 2 ^ 65 by norm_num] at h3
  linarith

/-- The logarithm of a count is off by less than `2 ^ -42`; zero counts as one. -/
theorem near_log2 {n : Nat} (hlt : n < 2 ^ 64) :
    Near (log2 n) (Real.logb 2 (max n 1 : ℕ)) (1 / 2 ^ 42) := by
  rcases Nat.lt_or_ge n 2 with hsmall | hn
  · -- zero and one have no octave below them, and their logarithm is written as zero
    have hlog : log2 n = 0.0 := if_pos (by omega)
    have hzero : parts? (0.0 : Float) = some ⟨false, 0, -1074⟩ := by decide
    rw [hlog, show max n 1 = 1 by omega, Nat.cast_one, Real.logb_one]
    refine ⟨_, value?_of_parts hzero, ?_⟩
    norm_num [Parts.value]
  · obtain ⟨p, hp, hnormal, hexp, hexp', herr⟩ := parts?_ofCount hn hlt
    have hsig := significand_lt hp
    have hpart : (p.significand - 2 ^ 52) / 2 ^ 46 < 64 := by omega
    unfold log2
    rw [if_neg (by omega), hp]
    dsimp only
    simp only [twoPow_eq]
    obtain ⟨I, hfits, hclose⟩ := fits_centreAt hpart
    have hζ := hclose p.significand (by omega) (by omega)
    generalize (p.significand - 2 ^ 52) / 2 ^ 46 = part at *
    -- in the upper parts the significand is halved once more, and the octave counted up
    obtain ⟨halving, hhalving⟩ : ∃ h : Int, (if part < firstHalved then 52 else 53) = h := ⟨_, rfl⟩
    have hcases : halving = 52 ∨ halving = 53 := by
      rw [← hhalving]
      split
      · exact .inl rfl
      · exact .inr rfl
    rw [hhalving] at hζ ⊢
    have hz : Near (nearestScaled false p.significand (-halving)) (p.significand * 2 ^ (-halving)) 0 :=
      near_nearestScaled hsig (by omega) (by omega)
    -- The octaves are counted exactly: they are far below 53 bits.
    have hk : Near (ofCount (p.exponent + halving).toNat) (p.exponent + halving : ℤ) 0 := by
      have h := Near.of_value (value?_ofCount (n := (p.exponent + halving).toNat) (by omega))
      have hcast : (((p.exponent + halving).toNat : ℤ) : ℝ) = (p.exponent + halving : ℤ) := by
        rw [Int.toNat_of_nonneg (by omega)]
      rw [Int.cast_natCast] at hcast
      rwa [Rat.cast_natCast, hcast] at h
    have hK : |((p.exponent + halving : ℤ) : ℝ)| ≤ 65 := by
      rw [abs_of_nonneg (by exact_mod_cast (by omega : 0 ≤ p.exponent + halving))]
      exact_mod_cast (by omega : p.exponent + halving ≤ 65)
    have hsig0 : (0 : ℝ) < p.significand := by exact_mod_cast (by omega : 0 < p.significand)
    have hlog := near_log2Near hfits hz hζ (by positivity) hk hK
    -- The halving is in both terms and falls out of the sum.
    have hvalue : ((p.exponent + halving : ℤ) : ℝ) + Real.logb 2 (p.significand * 2 ^ (-halving)) =
        Real.logb 2 (p.significand * 2 ^ p.exponent) := by
      rw [Real.logb_mul hsig0.ne' (by positivity), Real.logb_mul hsig0.ne' (by positivity),
        ← Real.rpow_intCast, ← Real.rpow_intCast, Real.logb_rpow two_pos (by norm_num),
        Real.logb_rpow two_pos (by norm_num)]
      push_cast
      ring
    rw [hvalue] at hlog
    rw [show max n 1 = n by omega]
    have hn0 : (0 : ℝ) < n := by exact_mod_cast (by omega : 0 < n)
    exact (hlog.trans (abs_logb_sub_le hn0 herr)).mono (by norm_num)

end SpeedTrial.Numeric
