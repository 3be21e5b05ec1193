import SpeedTrial.Proofs.Numeric.Values

/-!
# Rounding to a double

A sum, a product or a quotient of doubles is computed exactly, but for the bits of a quotient that do
not end, and is then shifted to 53 bits.  Two bits beside the significand remember enough of what was
shifted out to round to the nearest.

* `Stands` is the number that a significand with these two bits stands for.
* `roundWithAccuracy_near` and `normalize_near` say that the rounded result is off by at most half a
  unit of the last place of any power of two that the exact result does not exceed.
* `roundWithAccuracy_exact` says that a result of 53 bits is left as it is.
-/

namespace SpeedTrial.Numeric

open Float.Model Float.Model.UnpackedFloat

/-! ## Significands with residual bits -/

/-- The numbers that a significand with its two residual bits stands for. -/
def Stands : ExtendedMantissa → ℚ → Prop
  | ⟨m, false, false⟩, w => w = m
  | ⟨m, false, true⟩, w => m < w ∧ w < m + 1 / 2
  | ⟨m, true, false⟩, w => w = m + 1 / 2
  | ⟨m, true, true⟩, w => m + 1 / 2 < w ∧ w < m + 1

theorem Stands.bounds {em : ExtendedMantissa} {w : ℚ} (h : Stands em w) :
    em.mantissa ≤ w ∧ w < em.mantissa + 1 := by
  obtain ⟨m, _ | _, _ | _⟩ := em
  · rw [show w = m from h]
    exact ⟨le_rfl, by linarith⟩
  · exact ⟨h.1.le, by linarith [h.2]⟩
  · rw [show w = m + 1 / 2 from h]
    exact ⟨by linarith, by linarith⟩
  · exact ⟨by linarith [h.1], h.2⟩

theorem Stands.shiftRightOne {em : ExtendedMantissa} {w : ℚ} (h : Stands em w) :
    Stands em.shiftRightOne (w / 2) := by
  obtain ⟨m, r, s⟩ := em
  have hm : (m : ℚ) = 2 * (m / 2 : ℕ) + (m % 2 : ℕ) := by
    exact_mod_cast (Nat.div_add_mod m 2).symm
  rcases Nat.mod_two_eq_zero_or_one m with hbit | hbit <;> rw [hbit] at hm <;>
    cases r <;> cases s <;> simp [Stands, ExtendedMantissa.shiftRightOne, hbit] at h hm ⊢ <;>
    first | linarith | exact ⟨by linarith, by linarith⟩

theorem Stands.shiftRight {em : ExtendedMantissa} {w : ℚ} (h : Stands em w) (n : Nat) :
    Stands (em >>> n) (w / 2 ^ n) := by
  show Stands (n.repeat ExtendedMantissa.shiftRightOne em) (w / 2 ^ n)
  induction n with
  | zero => simpa [Nat.repeat] using h
  | succ n ih =>
    rw [pow_succ, ← div_div]
    exact ih.shiftRightOne

theorem Stands.abs_rounded_sub_le {em : ExtendedMantissa} {w : ℚ} (h : Stands em w) :
    |(em.roundedMantissa : ℚ) - w| ≤ 1 / 2 := by
  rw [abs_le]
  obtain ⟨m, r, s⟩ := em
  have hodd : ((m % 2 : ℕ) : ℚ) ≤ 1 := by exact_mod_cast Nat.le_of_lt_succ (Nat.mod_lt m two_pos)
  have heven : (0 : ℚ) ≤ ((m % 2 : ℕ) : ℚ) := Nat.cast_nonneg _
  cases r <;> cases s <;>
    simp only [Stands, ExtendedMantissa.roundedMantissa, ExtendedMantissa.accuracy,
      Accuracy.roundToNearestEven, Nat.cast_add, Nat.cast_one] at h ⊢ <;>
    exact ⟨by linarith, by linarith⟩

/-! ## The shift to 53 bits -/

/-- The exponent that the nearest double to `m · 2 ^ e` has, unless the rounding carries. -/
def gridOf (m : Nat) (e : Int) : Int := max (m.log2 + e - 52) (-1074)

theorem targetExponent_eq (m : Nat) (e : Int) :
    Format.binary64.targetExponent (totalExponent m e) = gridOf m e := by
  show max ((m.log2 : ℤ) + 1 + e - 53) (-1074) = max ((m.log2 : ℤ) + e - 52) (-1074)
  congr 1
  ring

/-- A significand that may have been carried to `2 ^ 53` is brought back to 53 bits without changing
the value. -/
theorem shiftToTargetExponent_carried {r : Nat} {t : Int} (hr : r ≤ 2 ^ 53) (ht : -1074 ≤ t)
    (hgt : t ≤ 970) (hn : 2 ^ 52 ≤ r ∨ t = -1074) :
    let d := shiftToTargetExponent Format.binary64 r t .exact
    (d.1.mantissa : ℚ) * 2 ^ d.2 = r * 2 ^ t ∧ OnGrid d.1.mantissa d.2 := by
  unfold shiftToTargetExponent shiftToExponent
  dsimp only
  rw [targetExponent_eq]
  -- only the carried significand has a bit too many
  rcases Nat.lt_or_eq_of_le hr with hlt | rfl
  · have hlog : r.log2 ≤ 52 := by
      rcases Nat.eq_zero_or_pos r with rfl | hpos
      · decide
      · exact Nat.le_of_lt_succ ((Nat.log2_lt (Nat.ne_of_gt hpos)).mpr hlt)
    have hk : (gridOf r t - t).toNat = 0 := by
      unfold gridOf
      omega
    rw [hk]
    refine ⟨by rw [Nat.cast_zero, add_zero]; rfl, ?_⟩
    exact ⟨hlt, by omega, by omega, hn.imp_right (by omega)⟩
  · have hk : (gridOf (2 ^ 53) t - t).toNat = 1 := by
      unfold gridOf
      rw [Nat.log2_two_pow]
      omega
    rw [hk]
    refine ⟨?_, by decide, by omega, by omega, .inl (by decide)⟩
    show ((2 ^ 53 / 2 : ℕ) : ℚ) * 2 ^ (t + 1) = ((2 ^ 53 : ℕ) : ℚ) * 2 ^ t
    rw [zpow_add_one₀ two_ne_zero]
    norm_num
    ring

theorem mantissa_ofMantissaAndAccuracy (m : Nat) (acc : Accuracy) :
    (ExtendedMantissa.ofMantissaAndAccuracy m acc).mantissa = m := by
  cases acc with
  | exact => rfl
  | inexact o => cases o <;> rfl

section rounding

variable {m : Nat} {e N : Int} {acc : Accuracy} {w : ℚ}

/-- The bits that rounding drops from a significand. -/
def droppedBits (m : Nat) (e : Int) : Nat := (gridOf m e - e).toNat

theorem add_droppedBits (hc : 52 ≤ m.log2 ∨ e ≤ -1074) : e + droppedBits m e = gridOf m e := by
  unfold droppedBits gridOf
  omega

theorem shiftToTargetExponent_eq (hc : 52 ≤ m.log2 ∨ e ≤ -1074) :
    shiftToTargetExponent Format.binary64 m e acc =
      (ExtendedMantissa.ofMantissaAndAccuracy m acc >>> droppedBits m e, gridOf m e) := by
  unfold shiftToTargetExponent shiftToExponent
  rw [targetExponent_eq]
  exact Prod.ext rfl (add_droppedBits hc)

theorem div_mul_gridOf (hc : 52 ≤ m.log2 ∨ e ≤ -1074) :
    w / 2 ^ droppedBits m e * 2 ^ gridOf m e = w * 2 ^ e := by
  rw [← add_droppedBits hc, zpow_add₀ two_ne_zero, zpow_natCast]
  field_simp

theorem div_droppedBits_lt (hw : w < m + 1) : w / 2 ^ droppedBits m e < 2 ^ 53 := by
  rw [div_lt_iff₀ (by positivity), ← pow_add]
  have hm : m + 1 ≤ 2 ^ (53 + droppedBits m e) :=
    Nat.le_trans Nat.lt_log2_self (Nat.pow_le_pow_right two_pos (by unfold droppedBits gridOf; omega))
  exact lt_of_lt_of_le hw (by exact_mod_cast hm)

theorem le_div_droppedBits (hw : m ≤ w) (hc : 52 ≤ m.log2 ∨ e ≤ -1074) (hg : gridOf m e ≠ -1074) :
    2 ^ 52 ≤ w / 2 ^ droppedBits m e := by
  rw [le_div_iff₀ (by positivity), ← pow_add]
  have hlog : 52 + droppedBits m e ≤ m.log2 := by
    unfold droppedBits gridOf at *
    omega
  have hm : 2 ^ (52 + droppedBits m e) ≤ m :=
    (Nat.le_log2 (by rintro rfl; simp at hlog)).mp hlog
  exact le_trans (by exact_mod_cast hm) hw

theorem gridOf_le (hw : m ≤ w) (hc : 52 ≤ m.log2 ∨ e ≤ -1074) (hN : -1022 ≤ N)
    (hle : w * 2 ^ e ≤ 2 ^ N) : gridOf m e ≤ N - 52 := by
  rcases Nat.eq_zero_or_pos m with rfl | hpos
  · have he : e ≤ -1074 := hc.resolve_left (by decide)
    unfold gridOf
    rw [Nat.log2_zero]
    omega
  · have hlog : (2 : ℚ) ^ (m.log2 + e) ≤ 2 ^ N := by
      rw [zpow_add₀ two_ne_zero, zpow_natCast]
      have hm : (2 : ℚ) ^ m.log2 ≤ m := by exact_mod_cast Nat.log2_self_le (Nat.ne_of_gt hpos)
      exact le_trans (mul_le_mul_of_nonneg_right (le_trans hm hw) (by positivity)) hle
    have := (zpow_le_zpow_iff_right₀ one_lt_two).mp hlog
    unfold gridOf
    omega

/-! ## The rounded result -/

/-- The rounded result is a whole number of steps of its grid, and at most half a step away. -/
theorem roundWithAccuracy_eq {s : Sign} (acc : Accuracy)
    (hw : Stands (.ofMantissaAndAccuracy m acc) w) (hc : 52 ≤ m.log2 ∨ e ≤ -1074)
    (hgrid : gridOf m e ≤ 970) :
    ∃ r : ℕ, unpackedValue? (Float.Model.pack
        (roundWithAccuracy Format.binary64 s m e acc)).unpack =
          some ((s.apply 1 : ℤ) * ((r : ℚ) * 2 ^ gridOf m e)) ∧
      |(r : ℚ) - w / 2 ^ droppedBits m e| ≤ 1 / 2 := by
  have hbounds := hw.bounds
  rw [mantissa_ofMantissaAndAccuracy] at hbounds
  have hleast : -1074 ≤ gridOf m e := le_max_right _ _
  have herr := (hw.shiftRight (droppedBits m e)).abs_rounded_sub_le
  unfold roundWithAccuracy
  rw [shiftToTargetExponent_eq hc]
  dsimp only
  generalize (ExtendedMantissa.ofMantissaAndAccuracy m acc >>> droppedBits m e).roundedMantissa = r at *
  -- rounding adds or takes at most one half, so the result is in the range of 53 bits or carried
  have hr : r ≤ 2 ^ 53 := by
    have : (r : ℚ) < 2 ^ 53 + 1 := by
      linarith [(abs_le.mp herr).2, div_droppedBits_lt (e := e) hbounds.2]
    exact_mod_cast Nat.le_of_lt_succ (by exact_mod_cast this)
  have hn : 2 ^ 52 ≤ r ∨ gridOf m e = -1074 := by
    by_cases hg : gridOf m e = -1074
    · exact .inr hg
    · have : (2 : ℚ) ^ 52 < r + 1 := by
        linarith [(abs_le.mp herr).1, le_div_droppedBits hbounds.1 hc hg]
      exact .inl (Nat.le_of_lt_succ (by exact_mod_cast this))
  -- from here on `r` is an arbitrary significand of 53 bits, or one that was carried
  obtain ⟨hvalue, hon⟩ := shiftToTargetExponent_carried hr hleast hgrid hn
  generalize shiftToTargetExponent Format.binary64 r (gridOf m e) .exact = d at *
  obtain ⟨em, e'⟩ := d
  refine ⟨r, ?_, herr⟩
  rw [← hvalue]
  split
  · next hzero =>
    rw [show em.mantissa = 0 from hzero, Nat.cast_zero, zero_mul, mul_zero]
    cases s <;> rfl
  · next hpos =>
    rw [unpack_pack _ hon]
    cases s <;> simp [unpackedValue?, Sign.apply]

theorem roundWithAccuracy_near {s : Sign} (acc : Accuracy)
    (hw : Stands (.ofMantissaAndAccuracy m acc) w) (hc : 52 ≤ m.log2 ∨ e ≤ -1074)
    (hN : -1022 ≤ N) (hN' : N ≤ 1022) (hle : w * 2 ^ e ≤ 2 ^ N) :
    ∃ q, unpackedValue? (Float.Model.pack
        (roundWithAccuracy Format.binary64 s m e acc)).unpack = some q ∧
      |q - s.apply 1 * (w * 2 ^ e)| ≤ 2 ^ (N - 53) := by
  have hbounds := hw.bounds
  rw [mantissa_ofMantissaAndAccuracy] at hbounds
  have hgrid := gridOf_le hbounds.1 hc hN hle
  obtain ⟨r, hvalue, herr⟩ := roundWithAccuracy_eq (s := s) acc hw hc (by omega)
  refine ⟨s.apply 1 * (r * 2 ^ gridOf m e), hvalue, ?_⟩
  -- The sign does not change the error, and on the grid it is one half.
  have hs : |((s.apply 1 : ℤ) : ℚ)| = 1 := by cases s <;> simp [Sign.apply]
  rw [← mul_sub, abs_mul, hs, one_mul, ← div_mul_gridOf hc, ← sub_mul, abs_mul,
    abs_of_pos (zpow_pos two_pos (gridOf m e) : (0 : ℚ) < _)]
  calc |(r : ℚ) - w / 2 ^ droppedBits m e| * 2 ^ gridOf m e
      ≤ 1 / 2 * 2 ^ (N - 52) :=
        mul_le_mul herr (zpow_le_zpow_right₀ one_le_two hgrid) (by positivity) (by norm_num)
    _ = 2 ^ (N - 53) := by
        rw [show N - 52 = N - 53 + 1 by ring, zpow_add_one₀ two_ne_zero]
        ring

/-- A result that has at most 53 bits is not changed by rounding. -/
theorem roundWithAccuracy_exact {s : Sign} {k : Nat} {t : Int} (hc : 52 ≤ m.log2 ∨ e ≤ -1074)
    (hm : 0 < m) (hv : (m : ℚ) * 2 ^ e = k * 2 ^ t) (hk : k < 2 ^ 53) (ht : -1074 ≤ t)
    (ht' : t ≤ 970) :
    unpackedValue? (Float.Model.pack
        (roundWithAccuracy Format.binary64 s m e .exact)).unpack =
      some ((s.apply 1 : ℤ) * ((m : ℚ) * 2 ^ e)) := by
  -- With at most 53 bits nothing of the number is below its grid.
  have hgrid : gridOf m e ≤ t := by
    have hlt : (2 : ℚ) ^ (m.log2 + e) < 2 ^ (53 + t) := by
      have hlog : (2 : ℚ) ^ m.log2 ≤ m := by exact_mod_cast Nat.log2_self_le (Nat.ne_of_gt hm)
      have hk' : (k : ℚ) < 2 ^ 53 := by exact_mod_cast hk
      rw [zpow_add₀ two_ne_zero, zpow_add₀ two_ne_zero, zpow_natCast]
      calc (2 : ℚ) ^ m.log2 * 2 ^ e ≤ m * 2 ^ e := mul_le_mul_of_nonneg_right hlog (by positivity)
        _ = k * 2 ^ t := hv
        _ < 2 ^ 53 * 2 ^ t := mul_lt_mul_of_pos_right hk' (by positivity)
    have := (zpow_lt_zpow_iff_right₀ one_lt_two).mp hlt
    unfold gridOf
    omega
  obtain ⟨r, hvalue, herr⟩ := roundWithAccuracy_eq (s := s) .exact (w := (m : ℚ)) rfl hc (by omega)
  -- on its grid the result is a whole number, and `r` is within one half of it
  obtain ⟨d, hd⟩ := Int.eq_ofNat_of_zero_le (by omega : 0 ≤ t - gridOf m e)
  have hwhole : (m : ℚ) / 2 ^ droppedBits m e = (k * 2 ^ d : ℕ) := by
    have hstep : (2 : ℚ) ^ t = 2 ^ d * 2 ^ gridOf m e := by
      rw [show t = d + gridOf m e by omega, zpow_add₀ two_ne_zero, zpow_natCast]
    have hmul := div_mul_gridOf (w := (m : ℚ)) hc
    rw [hv, hstep, ← mul_assoc] at hmul
    have hcancel := mul_right_cancel₀ (by positivity) hmul
    rw [hcancel]
    push_cast
    rfl
  rw [hwhole] at herr
  have hr : r = k * 2 ^ d := by
    obtain ⟨h1, h2⟩ := abs_le.mp herr
    have hle : (r : ℚ) < (k * 2 ^ d : ℕ) + 1 := by linarith
    have hge : ((k * 2 ^ d : ℕ) : ℚ) < r + 1 := by linarith
    have hle' : r < k * 2 ^ d + 1 := by exact_mod_cast hle
    have hge' : k * 2 ^ d < r + 1 := by exact_mod_cast hge
    omega
  rw [hvalue, hr, ← hwhole, div_mul_gridOf hc]

theorem log2_shiftLeft (a : Nat) (h : 0 < m) : (m <<< a).log2 = m.log2 + a := by
  have hpos : m <<< a ≠ 0 := by
    rw [Nat.shiftLeft_eq]
    exact Nat.ne_of_gt (Nat.mul_pos h (Nat.two_pow_pos a))
  rw [Nat.log2_eq_iff hpos, Nat.shiftLeft_eq, pow_add, pow_succ, pow_add]
  have hle := Nat.log2_self_le (Nat.ne_of_gt h)
  have hlt := Nat.lt_log2_self (n := m)
  rw [pow_succ] at hlt
  constructor
  · exact Nat.mul_le_mul_right _ hle
  · calc m * 2 ^ a < 2 ^ m.log2 * 2 * 2 ^ a := Nat.mul_lt_mul_of_pos_right hlt (Nat.two_pow_pos a)
      _ = 2 ^ m.log2 * 2 ^ a * 2 := by ring

theorem decreaseExponent_value (m : Nat) (e t : Int) :
    ((decreaseExponent m e t).1 : ℚ) * 2 ^ (decreaseExponent m e t).2 = m * 2 ^ e := by
  show ((m <<< (e - t).toNat : ℕ) : ℚ) * 2 ^ (e - ((e - t).toNat : ℤ)) = m * 2 ^ e
  rw [Nat.shiftLeft_eq, Nat.cast_mul, Nat.cast_pow, Nat.cast_ofNat, ← zpow_natCast, mul_assoc,
    ← zpow_add₀ two_ne_zero, add_sub_cancel]

theorem round_near {s : Sign} (hm : 0 < m) (hN : -1022 ≤ N) (hN' : N ≤ 1022)
    (hle : m * (2 : ℚ) ^ e ≤ 2 ^ N) :
    ∃ q, unpackedValue? (Float.Model.pack (round Format.binary64 s m e)).unpack = some q ∧
      |q - s.apply 1 * (m * 2 ^ e)| ≤ 2 ^ (N - 53) := by
  unfold UnpackedFloat.round
  dsimp only
  rw [targetExponent_eq, ← decreaseExponent_value m e (gridOf m e)]
  rw [← decreaseExponent_value m e (gridOf m e)] at hle
  -- After the shift there are 53 bits, or the exponent is the least there is.
  refine roundWithAccuracy_near _ (w := ((decreaseExponent m e (gridOf m e)).1 : ℚ)) rfl ?_ hN hN' hle
  show 52 ≤ (m <<< (e - gridOf m e).toNat).log2 ∨ e - ((e - gridOf m e).toNat : ℤ) ≤ -1074
  rw [log2_shiftLeft _ hm]
  unfold gridOf
  omega

theorem normalize_near {z : Int} {s : Sign} (hN : -1022 ≤ N) (hN' : N ≤ 1022)
    (hle : |z * (2 : ℚ) ^ e| ≤ 2 ^ N) :
    ∃ q, unpackedValue? (Float.Model.pack (UnpackedFloat.normalize Format.binary64 z e s)).unpack = some q ∧
      |q - z * 2 ^ e| ≤ 2 ^ (N - 53) := by
  have hpow : (0 : ℚ) < 2 ^ e := by positivity
  rw [abs_mul, abs_of_pos hpow] at hle
  unfold UnpackedFloat.normalize
  rcases lt_trichotomy z 0 with hz | rfl | hz
  · -- a negative number is rounded by its magnitude
    rw [Int.compare_eq_lt.mpr hz]
    have hcast : (((-z).toNat : ℕ) : ℚ) = -z := by
      exact_mod_cast congrArg (Int.cast : ℤ → ℚ) (Int.toNat_of_nonneg (by omega : 0 ≤ -z))
    have hz' : (z : ℚ) < 0 := by exact_mod_cast hz
    obtain ⟨q, hq, hnear⟩ := round_near (s := .negative) (m := (-z).toNat) (by omega) hN hN'
      (by rwa [hcast, ← abs_of_neg hz'])
    refine ⟨q, hq, ?_⟩
    rw [hcast] at hnear
    simpa [Sign.apply] using hnear
  · rw [Int.compare_eq_eq.mpr rfl]
    refine ⟨0, value_pack_zero s, ?_⟩
    rw [Int.cast_zero, zero_mul, sub_zero, abs_zero]
    positivity
  · rw [Int.compare_eq_gt.mpr hz]
    have hcast : ((z.toNat : ℕ) : ℚ) = z := by
      exact_mod_cast congrArg (Int.cast : ℤ → ℚ) (Int.toNat_of_nonneg hz.le)
    have hz' : (0 : ℚ) < z := by exact_mod_cast hz
    obtain ⟨q, hq, hnear⟩ := round_near (s := .positive) (m := z.toNat) (by omega) hN hN'
      (by rwa [hcast, ← abs_of_pos hz'])
    refine ⟨q, hq, ?_⟩
    rw [hcast] at hnear
    simpa [Sign.apply] using hnear

end rounding

end SpeedTrial.Numeric
