import SpeedTrial.Numeric.Exponential
import SpeedTrial.Proofs.Numeric.FixedPoint
import SpeedTrial.Proofs.Numeric.Nearest
import SpeedTrial.Proofs.Numeric.Order

/-!
# How exact powers of two are

The power of a double is a root from the table, scaled by the whole octaves, and one more factor for the
remainder.  The scaling is exact, so the error is that of the root, that of the polynomial and two roundings.

* `near_root` is the error of the table and `near_addPower` that of the polynomial.
* `near_exp2` says that a power of two has 46 correct bits wherever it is finite, and `Near.exp2` adds what
  the exponent is off by.
-/

namespace SpeedTrial.Numeric

open Finset

/-! ## The roots -/

/-- The excess of a root is below a unit of its last place. -/
theorem excess_small : ∀ k < 128,
    (parts? (Root.ofStep k).excess).any (fun p => p.exponent ≤ -105) = true := by
  decide +kernel

theorem near_excess {k : Nat} (hk : k < 128) : Near (Root.ofStep k).excess 0 (1 / 2 ^ 52) := by
  obtain ⟨p, hp, hexp⟩ := (Option.any_eq_true _ _).mp (excess_small k hk)
  exact (near_zero hp (of_decide_eq_true hexp)).mono (by norm_num)

theorem two_rpow_le_two {k : ℝ} (hk : k ≤ 128) : (2 : ℝ) ^ (k / 128) ≤ 2 := by
  have hk1 : k / 128 ≤ 1 := (div_le_one (by norm_num)).mpr hk
  calc (2 : ℝ) ^ (k / 128) ≤ 2 ^ (1 : ℝ) := Real.rpow_le_rpow_of_exponent_le one_le_two hk1
    _ = 2 := Real.rpow_one 2

theorem near_root {k : Nat} (hk : k < 128) :
    Near (Root.ofStep k).value (2 ^ (k / 128 : ℝ)) (1 / 2 ^ 50) := by
  have hf : k * 2 ^ 121 < 2 ^ 128 := by omega
  have hexp := near_exp2Fixed hf
  have hk' : ((k * 2 ^ 121 : ℕ) / 2 ^ 128 : ℝ) = k / 128 := by
    push_cast
    ring
  rw [hk'] at hexp
  have hroot : (2 : ℝ) ^ (k / 128 : ℝ) ≤ 2 := two_rpow_le_two (by exact_mod_cast hk.le)
  have hle : (exp2Fixed (k * 2 ^ 121) : ℝ) / (2 ^ 128 : ℕ) ≤ 2 ^ (2 : ℤ) := by
    rw [Nat.cast_pow, Nat.cast_ofNat]
    have := (abs_le.mp hexp).2
    norm_num at *
    linarith
  have hround := near_nearest (N := 2) false (exp2Fixed (k * 2 ^ 121)) (Nat.two_pow_pos 128)
    (by norm_num) (by norm_num) hle
  have hvalue : (Root.ofStep k).value = nearest false (exp2Fixed (k * 2 ^ 121)) (2 ^ 128) := rfl
  rw [hvalue]
  refine (hround.trans (t := 2 ^ (k / 128 : ℝ)) (d := 1 / 2 ^ 59) ?_).mono (by norm_num)
  rw [show signum false = 1 from rfl, Rat.cast_one, one_mul, Nat.cast_pow, Nat.cast_ofNat]
  exact hexp

/-! ## The number of steps -/

theorem abs_steps_sub_le (p : Parts) : |((p.steps : ℤ) : ℚ) - p.value * 128| ≤ 1 / 2 := by
  have hmagnitude : |((if p.exponent + stepBits ≥ 0 then
      p.significand * twoPow (p.exponent + stepBits).toNat
      else roundDiv p.significand (twoPow (-(p.exponent + stepBits)).toNat) .toEven : ℕ) : ℚ) -
        p.significand * 2 ^ p.exponent * 128| ≤ 1 / 2 := by
    -- Scaling by the steps of an octave is exact; only a fraction of a step is rounded.
    have h128 : (p.significand : ℚ) * 2 ^ p.exponent * 128 =
        p.significand * 2 ^ (p.exponent + stepBits) := by
      rw [zpow_add₀ two_ne_zero, mul_assoc]
      norm_num [stepBits]
    rw [h128]
    generalize p.exponent + (stepBits : ℤ) = e
    split
    · next h =>
      rw [twoPow_eq, Nat.cast_mul, Nat.cast_pow, Nat.cast_ofNat, ← zpow_natCast,
        Int.toNat_of_nonneg h, sub_self, abs_zero]
      norm_num
    · next h =>
      have hround := abs_roundDiv_sub_le p.significand .toEven (Nat.two_pow_pos (-e).toNat)
      rw [Nat.cast_pow, Nat.cast_ofNat, ← zpow_natCast, Int.toNat_of_nonneg (by omega), zpow_neg,
        div_inv_eq_mul] at hround
      exact hround
  unfold Parts.steps Parts.value
  dsimp only
  generalize (if p.exponent + stepBits ≥ 0 then p.significand * twoPow (p.exponent + stepBits).toNat
    else roundDiv p.significand (twoPow (-(p.exponent + stepBits)).toNat) .toEven) = k at *
  split
  · rw [← abs_neg]
    push_cast
    convert hmagnitude using 2
    ring
  · push_cast
    convert hmagnitude using 2
    ring

/-! ## The remainder -/

section remainder

/-- The coefficients are those of the exponential series of `r · ln 2`, moved a little where that makes
up for the terms left out. -/
theorem near_powerCoefficients :
    Near (Float.ofBits 0x3FE62E42FEFA39EF) (Real.log 2) (1 / 2 ^ 54) ∧
      Near (Float.ofBits 0x3FCEBFBDFF82C424) (Real.log 2 ^ 2 / 2) (1 / 2 ^ 46) ∧
      Near (Float.ofBits 0x3FAC6B08D70CF4B5) (Real.log 2 ^ 3 / 6) (1 / 2 ^ 37) ∧
      Near (Float.ofBits 0x3F83B2ABD24650CC) (Real.log 2 ^ 4 / 24) (1 / 2 ^ 28) ∧
      Near (Float.ofBits 0x3F55D7E09B4E3A84) (Real.log 2 ^ 5 / 120) (1 / 2 ^ 22) := by
  obtain ⟨hlo, hhi⟩ := log_two_bounds
  have hpow : ∀ n, (6931471805599453094172321 / 10 ^ 25 : ℝ) ^ n ≤ Real.log 2 ^ n ∧
      Real.log 2 ^ n ≤ (6931471805599453094172322 / 10 ^ 25) ^ n := fun n =>
    ⟨pow_le_pow_left₀ (by norm_num) hlo.le n, pow_le_pow_left₀ (by linarith) hhi.le n⟩
  have h2 := hpow 2
  have h3 := hpow 3
  have h4 := hpow 4
  have h5 := hpow 5
  refine ⟨near_ofBits (p := ⟨false, 0x162E42FEFA39EF, -53⟩) (by decide) ?_,
    near_ofBits (p := ⟨false, 0x1EBFBDFF82C424, -55⟩) (by decide) ?_,
    near_ofBits (p := ⟨false, 0x1C6B08D70CF4B5, -57⟩) (by decide) ?_,
    near_ofBits (p := ⟨false, 0x13B2ABD24650CC, -59⟩) (by decide) ?_,
    near_ofBits (p := ⟨false, 0x15D7E09B4E3A84, -62⟩) (by decide) ?_⟩ <;>
  · rw [abs_le]
    norm_num [Parts.value] at *
    constructor <;> linarith

theorem abs_log_two_mul_le {ρ : ℝ} (hρ : |ρ| ≤ 1 / 2 ^ 8) : |Real.log 2 * ρ| ≤ 1 / 2 ^ 8 := by
  obtain ⟨hlo, hhi⟩ := log_two_bounds
  rw [abs_mul, abs_of_pos (by linarith)]
  calc Real.log 2 * |ρ| ≤ 1 * (1 / 2 ^ 8) := mul_le_mul (by linarith) hρ (abs_nonneg _) (by norm_num)
    _ = 1 / 2 ^ 8 := one_mul _

theorem abs_power_sub_one_le {ρ : ℝ} (hρ : |ρ| ≤ 1 / 2 ^ 8) : |(2 : ℝ) ^ ρ - 1| ≤ 1 / 2 ^ 7 := by
  have hx := abs_log_two_mul_le hρ
  have hexp := Real.abs_exp_sub_one_le (le_trans hx (by norm_num))
  rw [Real.rpow_def_of_pos two_pos]
  linarith

/-- The power of a small remainder and the first terms of its series. -/
theorem abs_power_sub_le {ρ : ℝ} (hρ : |ρ| ≤ 1 / 2 ^ 8) :
    |(ρ * Real.log 2 + ρ ^ 2 * (Real.log 2 ^ 2 / 2 + ρ * (Real.log 2 ^ 3 / 6)) +
        ρ ^ 4 * (Real.log 2 ^ 4 / 24 + ρ * (Real.log 2 ^ 5 / 120))) - (2 ^ ρ - 1)| ≤ 1 / 2 ^ 55 := by
  have hx := abs_log_two_mul_le hρ
  have hexp := Real.exp_bound (le_trans hx (by norm_num)) (n := 6) (by norm_num)
  -- Six terms of the series are taken, and the rest is below the sixth power of 1 / 2 ^ 8.
  have hrest : |Real.log 2 * ρ| ^ 6 * ((6 : ℕ).succ / ((6 : ℕ).factorial * (6 : ℕ))) ≤
      1 / 2 ^ 55 := by
    have hpow : |Real.log 2 * ρ| ^ 6 ≤ (1 / 2 ^ 8) ^ 6 := pow_le_pow_left₀ (abs_nonneg _) hx 6
    norm_num [Nat.factorial] at hpow ⊢
    linarith
  rw [Real.rpow_def_of_pos two_pos, abs_sub_comm]
  refine le_trans (le_of_eq ?_) (le_trans hexp hrest)
  congr 1
  simp only [sum_range_succ, sum_range_zero, Nat.factorial]
  push_cast
  ring

theorem near_addPower {start r : Float} {ρ : ℝ} (hstart : Near start 0 (1 / 2 ^ 52))
    (hr : Near r ρ (1 / 2 ^ 60)) (hρ : |ρ| ≤ 1 / 2 ^ 8) :
    Near (addPower start r) (2 ^ ρ - 1) (1 / 2 ^ 50) := by
  obtain ⟨hlo, hhi⟩ := log_two_bounds
  obtain ⟨h1, h2, h3, h4, h5⟩ := near_powerCoefficients
  set L := Real.log 2 with hL
  have hlog : |L| ≤ 1 := by
    rw [abs_of_pos (by linarith)]
    linarith
  have hcoefficient : ∀ n (c : ℝ), 0 < c → |L ^ n / c| ≤ 1 / c := fun n c hc => by
    rw [abs_div, abs_of_pos hc, abs_pow]
    exact div_le_div_of_nonneg_right (pow_le_one₀ (abs_nonneg _) hlog) hc.le
  have hr : Within r ρ (1 / 2 ^ 8) (1 / 2 ^ 60) := ⟨hr, hρ⟩
  have h1 : Within _ L 1 (1 / 2 ^ 54) := ⟨h1, hlog⟩
  have h2 : Within _ (L ^ 2 / 2) (1 / 2) (1 / 2 ^ 46) := ⟨h2, hcoefficient 2 2 (by norm_num)⟩
  have h3 : Within _ (L ^ 3 / 6) (1 / 6) (1 / 2 ^ 37) := ⟨h3, hcoefficient 3 6 (by norm_num)⟩
  have h4 : Within _ (L ^ 4 / 24) (1 / 24) (1 / 2 ^ 28) := ⟨h4, hcoefficient 4 24 (by norm_num)⟩
  have h5 : Within _ (L ^ 5 / 120) (1 / 120) (1 / 2 ^ 22) := ⟨h5, hcoefficient 5 120 (by norm_num)⟩
  have hstart : Within start 0 0 (1 / 2 ^ 52) := ⟨hstart, abs_zero.le⟩
  -- the three products that the polynomial adds to `start`
  have hlinear := hr.mul h1 (N := -7) (C := 1 / 2 ^ 8) (E := 1 / 2 ^ 58) (by norm_num)
  have hr2 := hr.mul hr (N := -15) (C := 1 / 2 ^ 16) (E := 1 / 2 ^ 66) (by norm_num)
  have hr3 := hr.mul h3 (N := -10) (C := 1 / 2 ^ 10) (E := 1 / 2 ^ 44) (by norm_num)
  have h23 := h2.add hr3 (N := 0) (C := 1) (E := 1 / 2 ^ 43) (by norm_num)
  have hsquare := hr2.mul h23 (N := -15) (C := 1 / 2 ^ 16) (E := 1 / 2 ^ 58) (by norm_num)
  have hr5 := hr.mul h5 (N := -14) (C := 1 / 2 ^ 14) (E := 1 / 2 ^ 29) (by norm_num)
  have h45 := h4.add hr5 (N := -3) (C := 1 / 2 ^ 4) (E := 1 / 2 ^ 27) (by norm_num)
  have hr4 := hr2.mul hr2 (N := -31) (C := 1 / 2 ^ 32) (E := 1 / 2 ^ 80) (by norm_num)
  have hfourth := hr4.mul h45 (N := -35) (C := 1 / 2 ^ 36) (E := 1 / 2 ^ 58) (by norm_num)
  have hsum1 := hstart.add hlinear (N := -7) (C := 1 / 2 ^ 8) (E := 1 / 2 ^ 52 + 1 / 2 ^ 57) (by norm_num)
  have hsum2 := hsum1.add hsquare (N := -6) (C := 1 / 2 ^ 7) (E := 1 / 2 ^ 52 + 1 / 2 ^ 56) (by norm_num)
  have hsum := hsum2.add hfourth (N := -6) (C := 1 / 2 ^ 6) (E := 1 / 2 ^ 51) (by norm_num)
  refine (hsum.near.trans (d := 1 / 2 ^ 55) ?_).mono (by norm_num)
  have hseries := abs_power_sub_le hρ
  rw [← hL] at hseries
  convert hseries using 3
  ring

end remainder

/-! ## Powers -/

/-- Scaling a root by whole octaves is exact up to a rounding. -/
theorem near_scale {k : Nat} (hk : k < 128) {j : Int} (hj : -1000 ≤ j) (hj' : j ≤ 900) :
    Near ((Root.ofStep k).value * nearestScaled false 1 j) (2 ^ (k / 128 : ℝ) * 2 ^ j)
      (2 ^ j / 2 ^ 49) := by
  have hP : (0 : ℝ) < 2 ^ j := by positivity
  -- A power of two is a double of its own, so only the product with the root is rounded.
  have hoctaves : Near (nearestScaled false 1 j) (2 ^ j) 0 := by
    simpa using near_nearestScaled (m := 1) (s := j) (by norm_num) (by omega) (by omega)
  have hroot : |(2 : ℝ) ^ (k / 128 : ℝ)| ≤ 2 := by
    rw [abs_of_pos (by positivity)]
    exact two_rpow_le_two (by exact_mod_cast hk.le)
  have hN : (2 : ℝ) ^ (j + 2) = 2 ^ j * 4 := by
    rw [zpow_add₀ two_ne_zero]
    norm_num
  refine (near_root hk).mul hoctaves (N := j + 2) (by omega) (by omega) hroot
    (abs_of_pos hP).le ?_ ?_
  · rw [hN]
    linarith
  · rw [hN]
    linarith

/-- A factor close to one is multiplied by adding what it is above one. -/
theorem Near.scaled {scale y : Float} {R ρ : ℝ} {j : Int} (hj : -1000 ≤ j) (hj' : j ≤ 900)
    (hscale : Near scale (R * 2 ^ j) (2 ^ j / 2 ^ 49)) (hR : 0 ≤ R) (hR' : R ≤ 2)
    (hy : Near y (2 ^ ρ - 1) (1 / 2 ^ 50)) (hρ : |(2 : ℝ) ^ ρ - 1| ≤ 1 / 2 ^ 7) :
    Near (scale + scale * y) (R * 2 ^ j * 2 ^ ρ) (2 ^ j / 2 ^ 47) := by
  have hP : (0 : ℝ) < 2 ^ j := by positivity
  have hN : ∀ i : Int, (2 : ℝ) ^ (j + i) = 2 ^ j * 2 ^ i := fun i => zpow_add₀ two_ne_zero j i
  have hRP : |R * 2 ^ j| ≤ 2 * 2 ^ j := by
    rw [abs_of_nonneg (mul_nonneg hR hP.le)]
    exact mul_le_mul_of_nonneg_right hR' hP.le
  -- The correction is smaller than the scale by what `2 ^ ρ` is off one, and so is its rounding.
  have hproduct : Near (scale * y) (R * 2 ^ j * (2 ^ ρ - 1)) (2 ^ j / 2 ^ 48) := by
    refine hscale.mul hy (N := j + -5) (by omega) (by omega) hRP hρ ?_ ?_ <;> rw [hN]
    · norm_num
      linarith
    · norm_num
      linarith
  have hsum : R * 2 ^ j + R * 2 ^ j * (2 ^ ρ - 1) = R * 2 ^ j * 2 ^ ρ := by ring
  rw [← hsum]
  refine hscale.add hproduct (N := j + 2) (by omega) (by omega) ?_ ?_ <;> rw [hN]
  · rw [hsum, abs_mul, abs_of_pos (by positivity : (0 : ℝ) < 2 ^ ρ)]
    have h2 : (2 : ℝ) ^ ρ ≤ 1 + 1 / 2 ^ 7 := by linarith [(abs_le.mp hρ).2]
    have := mul_le_mul hRP h2 (by positivity) (by positivity)
    norm_num at *
    linarith
  · norm_num
    linarith

theorem value?_512 : value? 512.0 = some 512 := by
  have h : parts? (512.0 : Float) = some ⟨false, 2 ^ 52, -43⟩ := by decide
  rw [value?_of_parts h]
  norm_num [Parts.value]

theorem value?_neg_512 : value? (-512.0) = some (-512) := by
  have h : parts? (-512.0 : Float) = some ⟨true, 2 ^ 52, -43⟩ := by decide
  rw [value?_of_parts h]
  norm_num [Parts.value]

/-- The remainder of the exponent is computed exactly enough. -/
theorem near_remainder {x : Float} {a : ℚ} (hx : value? x = some a) {k : Int}
    (hk : |(k : ℚ) - a * 128| ≤ 1 / 2) (hsmall : k.natAbs < 2 ^ 53) :
    Near (x - nearestScaled (k < 0) k.natAbs (-stepBits)) (a - k / 128) (1 / 2 ^ 60) ∧
      |(a - k / 128 : ℝ)| ≤ 1 / 2 ^ 8 := by
  -- A whole number of steps has at most 53 bits, and so it is exact once it is scaled.
  have hstep : value? (nearestScaled (k < 0) k.natAbs (-stepBits)) = some (k / 128 : ℚ) := by
    rw [value?_nearestScaled _ hsmall (by decide) (by decide)]
    congr 1
    rw [← mul_assoc, signum_neg_mul_natAbs]
    norm_num [stepBits, div_eq_mul_inv]
  have hρ : |(a - k / 128 : ℝ)| ≤ 1 / 2 ^ 8 := by
    have hk' := (Rat.cast_le (K := ℝ)).mpr hk
    push_cast at hk'
    rw [abs_le] at hk' ⊢
    constructor <;> linarith
  refine ⟨?_, hρ⟩
  have hsub := (Near.of_value hx).sub (Near.of_value hstep) (N := -8) (E := 1 / 2 ^ 60) (by norm_num)
    (by norm_num)
  push_cast at hsub
  exact hsub (by norm_num at *; linarith) (by norm_num)

/-- A power of two is off by less than `2 ^ -46` of it. -/
theorem near_exp2 {x : Float} {a : ℚ} (hx : value? x = some a) (ha : |a| < 512) :
    Near (exp2 x) (2 ^ (a : ℝ)) (2 ^ (a : ℝ) / 2 ^ 46) := by
  obtain ⟨hlow, hhigh⟩ := abs_lt.mp ha
  obtain ⟨p, hp, hvalue⟩ := parts?_of_value hx
  have hk := abs_steps_sub_le p
  rw [hvalue] at hk
  unfold exp2
  rw [if_neg (fun h => absurd ((le_iff value?_512 hx).mp h) (not_le.mpr hhigh)),
    if_neg (fun h => absurd ((le_iff hx value?_neg_512).mp h) (not_le.mpr hlow)), hp]
  dsimp only
  generalize p.steps = k at hk ⊢
  -- The exponent is below 512, so the octaves stay far away from both ends of the doubles.
  have hkbounds : -65537 ≤ k ∧ k ≤ 65537 := by
    have h := abs_le.mp hk
    constructor
    · have : (-65537 : ℚ) ≤ k := by linarith
      exact_mod_cast this
    · have : (k : ℚ) ≤ 65537 := by linarith
      exact_mod_cast this
  obtain ⟨hr, hρ⟩ := near_remainder hx hk (by omega)
  -- `k` steps are `j` octaves and the root of `κ` steps
  have hsplit : (128 : ℤ) * (k / 128) + k % 128 = k := Int.mul_ediv_add_emod k 128
  rw [rootAt_eq, show (stepsPerOctave : ℤ) = 128 from rfl]
  obtain ⟨κ, hκ⟩ : ∃ κ : ℕ, k % 128 = κ := ⟨(k % 128).toNat, by omega⟩
  have hκlt : κ < 128 := by omega
  have hj : -1000 ≤ k / 128 ∧ k / 128 ≤ 900 := by omega
  generalize k / 128 = j at *
  rw [hκ, Int.toNat_natCast]
  -- Octaves, root and remainder put together give the power of the exponent.
  have hpow : (2 : ℝ) ^ (κ / 128 : ℝ) * 2 ^ j * 2 ^ (a - k / 128 : ℝ) = 2 ^ (a : ℝ) := by
    rw [← Real.rpow_intCast, ← Real.rpow_add two_pos, ← Real.rpow_add two_pos]
    congr 1
    rw [← hsplit, hκ]
    push_cast
    ring
  have hfactor := abs_power_sub_one_le hρ
  have hR : (1 : ℝ) ≤ 2 ^ (κ / 128 : ℝ) := Real.one_le_rpow one_le_two (by positivity)
  have hnear := (near_scale hκlt hj.1 hj.2).scaled hj.1 hj.2 (by positivity)
    (two_rpow_le_two (by exact_mod_cast hκlt.le)) (near_addPower (near_excess hκlt) hr hρ) hfactor
  rw [hpow] at hnear
  refine hnear.mono ?_
  -- the error is a part of the octave, which is at most twice the power
  have hP : (0 : ℝ) < 2 ^ j := by positivity
  have hhalf : 2 ^ j * (1 / 2) ≤ (2 : ℝ) ^ (a : ℝ) := by
    rw [← hpow]
    refine mul_le_mul ?_ ?_ (by norm_num) (by positivity)
    · exact le_mul_of_one_le_left hP.le hR
    · linarith [(abs_le.mp hfactor).1]
  linarith

theorem abs_two_rpow_sub_le {a r ε : ℝ} (h : |a - r| ≤ ε) (hε : ε ≤ 1 / 2 ^ 10) :
    |(2 : ℝ) ^ a - 2 ^ r| ≤ 2 ^ r * ε := by
  obtain ⟨hlo, hhi⟩ := log_two_bounds
  have hlog : |Real.log 2 * (a - r)| ≤ 7 / 10 * ε := by
    rw [abs_mul, abs_of_pos (by linarith)]
    exact mul_le_mul (by linarith) h (abs_nonneg _) (by norm_num)
  have hexp := Real.abs_exp_sub_one_sub_id_le (x := Real.log 2 * (a - r)) (by linarith)
  have hfactor : |(2 : ℝ) ^ (a - r) - 1| ≤ ε := by
    rw [Real.rpow_def_of_pos two_pos]
    -- the linear term takes seven tenths of `ε`, and the square no more than the rest
    have hε0 : 0 ≤ ε := le_trans (abs_nonneg _) h
    have hsquare : (Real.log 2 * (a - r)) ^ 2 ≤ 3 / 10 * ε := by
      rw [← sq_abs]
      have := mul_le_mul hlog hlog (abs_nonneg _) (by linarith)
      nlinarith
    have := abs_sub_abs_le_abs_sub (Real.exp (Real.log 2 * (a - r)) - 1) (Real.log 2 * (a - r))
    linarith
  have hsplit : (2 : ℝ) ^ a - 2 ^ r = 2 ^ r * (2 ^ (a - r) - 1) := by
    rw [mul_sub, ← Real.rpow_add two_pos, add_sub_cancel, mul_one]
  rw [hsplit, abs_mul, abs_of_pos (Real.rpow_pos_of_pos two_pos _)]
  exact mul_le_mul_of_nonneg_left hfactor (Real.rpow_pos_of_pos two_pos _).le

theorem two_rpow_le_add_one {ε : ℝ} (h : 0 ≤ ε) (hε : ε ≤ 1 / 2 ^ 10) : (2 : ℝ) ^ ε ≤ 1 + ε := by
  have hle := (abs_le.mp (abs_two_rpow_sub_le (a := ε) (r := 0) (by rw [sub_zero, abs_of_nonneg h]) hε)).2
  rw [Real.rpow_zero, one_mul] at hle
  linarith

/-- What the exponent is off by, the power is off by in proportion. -/
theorem Near.exp2 {x : Float} {r ε : ℝ} (h : Near x r ε) (hr : |r| ≤ 500) (hε : ε ≤ 1 / 2 ^ 10) :
    Near (exp2 x) (2 ^ r) (2 ^ r * (ε + 1 / 2 ^ 45)) := by
  have hε0 := h.nonneg
  obtain ⟨a, ha, herr⟩ := h
  -- The exponent is off by so little that it still counts as small.
  have hsmall : |a| < 512 := by
    have h1 := abs_sub_abs_le_abs_sub (a : ℝ) r
    have h2 : |(a : ℝ)| < 512 := by linarith
    exact_mod_cast h2
  have hpower := abs_two_rpow_sub_le herr hε
  refine ((near_exp2 ha hsmall).trans hpower).mono ?_
  have hr0 : (0 : ℝ) < 2 ^ r := Real.rpow_pos_of_pos two_pos _
  have hle := (abs_le.mp hpower).2
  have hone : (2 : ℝ) ^ r * ε ≤ 2 ^ r * 1 := mul_le_mul_of_nonneg_left (by linarith) hr0.le
  linarith

end SpeedTrial.Numeric
