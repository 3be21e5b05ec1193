import SpeedTrial.Proofs.Numeric.Nearest
import SpeedTrial.Proofs.Numeric.Order

/-!
# Rounding keeps the order

A double that comes from a count or a quotient is the exact number rounded on its grid, where it has 53 bits.
No double is nearer to the number than that one, and from this alone it follows that rounding keeps the order
of what is rounded.

* `Rounds` says that a double is a positive number rounded on its grid, and `rounds_ofCount` and `rounds_div`
  that counts and quotients are.
* `Rounds.abs_sub_le` says that no double is nearer, and `Rounds.le_of_lt` that the order is kept.
* `eq_of_value?_eq` says that a positive number is the value of one double only.
-/

namespace SpeedTrial.Numeric

open Float.Model Float.Model.UnpackedFloat

/-! ## Values of doubles -/

section values

variable {x y : Float} {q : ℚ}

/-- The magnitude of a finite double is on the grid. -/
theorem exists_onGrid (hx : value? x = some q) : ∃ m e, OnGrid m e ∧ |q| = (m : ℚ) * 2 ^ e := by
  rw [value?_eq] at hx
  rcases unpackedValue?_eq_some hx with ⟨s, -, rfl⟩ | ⟨s, m, e, hm, hxu, rfl⟩
  · exact ⟨0, -1074, ⟨by norm_num, by norm_num, by norm_num, .inr rfl⟩, by simp⟩
  · refine ⟨m, e, .of_unpack hxu, ?_⟩
    rw [apply_mul, mul_assoc, abs_apply_one_mul (by positivity)]

theorem eq_positive_of_pos {s : Sign} {a : ℚ} (ha : 0 ≤ a) (hpos : 0 < ((s.apply 1 : ℤ) : ℚ) * a) :
    s = .positive := by
  cases s with
  | positive => rfl
  | negative => exact absurd hpos (not_lt.mpr (mul_nonpos_of_nonpos_of_nonneg (by simp [Sign.apply]) ha))

/-- A positive double is unpacked without a sign. -/
theorem unpack_of_value_pos (hx : value? x = some q) (hpos : 0 < q) :
    ∃ m e hm, x.toModel.unpack = .finite .positive m e hm ∧ OnGrid m e ∧
      q = (m : ℚ) * 2 ^ e := by
  rw [value?_eq] at hx
  rcases unpackedValue?_eq_some hx with ⟨s, -, rfl⟩ | ⟨s, m, e, hm, hxu, rfl⟩
  · exact absurd hpos (lt_irrefl 0)
  · rw [apply_mul, mul_assoc] at hpos
    obtain rfl := eq_positive_of_pos (by positivity) hpos
    exact ⟨m, e, hm, hxu, .of_unpack hxu, rfl⟩

/-- A positive number is the value of one double at most. -/
theorem eq_of_value?_eq (hx : value? x = some q) (hy : value? y = some q) (hpos : 0 < q) : x = y := by
  obtain ⟨m, e, hm, hxu, hon, hq⟩ := unpack_of_value_pos hx hpos
  obtain ⟨m', e', hm', hyu, hon', hq'⟩ := unpack_of_value_pos hy hpos
  have hvalue : (m : ℚ) * 2 ^ e = m' * 2 ^ e' := hq.symm.trans hq'
  -- on the grid a larger exponent is a larger value, so there is one exponent and then one significand
  obtain rfl : e = e' := by
    rcases lt_trichotomy e e' with h | h | h
    · exact absurd hvalue (hon.value_lt hon' h).ne
    · exact h
    · exact absurd hvalue (hon'.value_lt hon h).ne'
  obtain rfl : m = m' := by
    exact_mod_cast mul_right_cancel₀ (by positivity) hvalue
  have hmodel : x.toModel = y.toModel := by
    rw [← pack_unpack_model x.toModel, ← pack_unpack_model y.toModel, hxu, hyu]
  cases x
  cases y
  exact congrArg Float.ofModel hmodel

end values

/-! ## Numbers rounded on their grid -/

/-- The double is a number rounded to a multiple of a power of two, on which the number has 53 bits unless no
power is smaller. -/
def Rounds (x : ℚ) (y : Float) : Prop :=
  ∃ (r : ℕ) (g : ℤ), value? y = some ((r : ℚ) * 2 ^ g) ∧ |(r : ℚ) - x / 2 ^ g| ≤ 1 / 2 ∧
    (2 ^ (g + 52) ≤ x ∨ g = -1074)

section grid

variable {r m : ℕ} {g e : ℤ} {x : ℚ}

/-- No whole number is nearer than one that is at most one half away. -/
theorem abs_sub_le_of_whole (hnear : |(r : ℚ) - x| ≤ 1 / 2) (k : ℕ) : |(r : ℚ) - x| ≤ |(k : ℚ) - x| := by
  rcases eq_or_ne r k with rfl | hne
  · exact le_rfl
  · -- any other is a full step away from this one
    have hstep : (1 : ℚ) ≤ |(r : ℚ) - k| := by
      exact_mod_cast Int.one_le_abs (sub_ne_zero.mpr (by exact_mod_cast hne : (r : ℤ) ≠ k))
    have htriangle : |(r : ℚ) - k| ≤ |(r : ℚ) - x| + |(k : ℚ) - x| := by
      rw [abs_sub_comm (k : ℚ) x]
      exact abs_sub_le _ _ _
    linarith

theorem abs_sub_le_of_onGrid (hnear : |(r : ℚ) - x / 2 ^ g| ≤ 1 / 2) (hfine : 2 ^ (g + 52) ≤ x ∨ g = -1074)
    (hon : OnGrid m e) : |(r : ℚ) * 2 ^ g - x| ≤ |(m : ℚ) * 2 ^ e - x| := by
  have hpow : (0 : ℚ) < 2 ^ g := by positivity
  have hscale : ∀ z : ℚ, |z * 2 ^ g - x| = |z - x / 2 ^ g| * 2 ^ g := fun z => by
    rw [← abs_of_pos hpow, ← abs_mul, abs_of_pos hpow, sub_mul, div_mul_cancel₀ _ hpow.ne']
  rcases le_or_gt g e with hle | hlt
  · -- the other number is a multiple of the step, too
    have hwhole : (m : ℚ) * 2 ^ e = (m * 2 ^ (e - g).toNat : ℕ) * 2 ^ g := by
      rw [Nat.cast_mul, Nat.cast_pow, Nat.cast_ofNat, ← zpow_natCast, Int.toNat_of_nonneg (by omega), mul_assoc,
        ← zpow_add₀ two_ne_zero, sub_add_cancel]
    rw [hwhole, hscale, hscale]
    exact mul_le_mul_of_nonneg_right (abs_sub_le_of_whole hnear _) hpow.le
  · -- the other number is below the first number of 53 bits, which is a multiple of the step
    have hlow : 2 ^ (g + 52) ≤ x := hfine.resolve_right (by have := hon.least; omega)
    have hsmall : (m : ℚ) * 2 ^ e ≤ 2 ^ (g + 52) := by
      have hm : (m : ℚ) ≤ 2 ^ 53 := by exact_mod_cast hon.lt.le
      calc (m : ℚ) * 2 ^ e ≤ 2 ^ 53 * 2 ^ e := mul_le_mul_of_nonneg_right hm (by positivity)
        _ = 2 ^ (e + 53) := by rw [zpow_add₀ two_ne_zero, mul_comm]; norm_num
        _ ≤ 2 ^ (g + 52) := zpow_le_zpow_right₀ one_le_two (by omega)
    have hfirst : ((2 ^ 52 : ℕ) : ℚ) * 2 ^ g = 2 ^ (g + 52) := by
      rw [zpow_add₀ two_ne_zero, mul_comm]
      norm_num
    calc |(r : ℚ) * 2 ^ g - x| ≤ |((2 ^ 52 : ℕ) : ℚ) * 2 ^ g - x| := by
          rw [hscale, hscale]
          exact mul_le_mul_of_nonneg_right (abs_sub_le_of_whole hnear _) hpow.le
      _ ≤ |(m : ℚ) * 2 ^ e - x| := by
          rw [hfirst, abs_of_nonpos (sub_nonpos.mpr hlow), abs_of_nonpos (by linarith)]
          linarith

end grid

section rounds

variable {x x' q q' : ℚ} {y y' z : Float}

/-- No double is nearer to a number than what it is rounded to. -/
theorem Rounds.abs_sub_le (h : Rounds x y) (hx : 0 ≤ x) (hy : value? y = some q) (hz : value? z = some q') :
    |q - x| ≤ |q' - x| := by
  obtain ⟨r, g, hvalue, hnear, hfine⟩ := h
  obtain rfl := Option.some.inj (hy.symm.trans hvalue)
  obtain ⟨m, e, hon, habs⟩ := exists_onGrid hz
  calc |(r : ℚ) * 2 ^ g - x| ≤ |(m : ℚ) * 2 ^ e - x| := abs_sub_le_of_onGrid hnear hfine hon
    _ = |abs q' - abs x| := by rw [habs, abs_of_nonneg hx]
    _ ≤ |q' - x| := abs_abs_sub_abs_le _ _

/-- Rounding keeps the order. -/
theorem Rounds.le_of_lt (h : Rounds x y) (h' : Rounds x' y') (hx : 0 ≤ x) (hlt : x < x')
    (hy : value? y = some q) (hy' : value? y' = some q') : q ≤ q' := by
  have hnear := sq_le_sq.mpr (h.abs_sub_le hx hy hy')
  have hnear' := sq_le_sq.mpr (h'.abs_sub_le (hx.trans hlt.le) hy' hy)
  -- both numbers would have to be on the other side of the middle
  by_contra hgt
  have hgap : 0 < q - q' := sub_pos.mpr (not_le.mp hgt)
  have hfar : 0 < (q - q') * (x' - x) := mul_pos hgap (sub_pos.mpr hlt)
  nlinarith

/-- The error is at most one half in the last of 53 bits. -/
theorem Rounds.relative (h : Rounds x y) (hx : 2 ^ (-1022 : ℤ) ≤ x) (hy : value? y = some q) :
    |q - x| ≤ x / 2 ^ 53 := by
  obtain ⟨r, g, hvalue, hnear, hfine⟩ := h
  obtain rfl := Option.some.inj (hy.symm.trans hvalue)
  have hpow : (0 : ℚ) < 2 ^ g := by positivity
  -- the number has 53 bits on the grid, or the grid is the finest and the number large enough
  have hlow : (2 : ℚ) ^ g ≤ x / 2 ^ 52 := by
    rw [le_div_iff₀ (by positivity), ← zpow_natCast, ← zpow_add₀ two_ne_zero]
    rcases hfine with hfine | rfl
    · exact hfine
    · exact hx
  have hsplit : (r : ℚ) * 2 ^ g - x = ((r : ℚ) - x / 2 ^ g) * 2 ^ g := by
    rw [sub_mul, div_mul_cancel₀ _ hpow.ne']
  calc |(r : ℚ) * 2 ^ g - x| = |(r : ℚ) - x / 2 ^ g| * 2 ^ g := by rw [hsplit, abs_mul, abs_of_pos hpow]
    _ ≤ 1 / 2 * (x / 2 ^ 52) := mul_le_mul hnear hlow hpow.le (by norm_num)
    _ = x / 2 ^ 53 := by ring

theorem Rounds.exists_value (h : Rounds x y) (hx : 2 ^ (-1022 : ℤ) ≤ x) : ∃ q, 0 < q ∧ value? y = some q := by
  obtain ⟨r, g, hvalue, -⟩ := id h
  refine ⟨_, ?_, hvalue⟩
  have hpos : 0 < x := lt_of_lt_of_le (by positivity) hx
  have hsmall : x / 2 ^ 53 < x := div_lt_self hpos (by norm_num)
  linarith [(abs_le.mp (h.relative hx hvalue)).1]

end rounds

/-! ## Counts and quotients -/

/-- A count is rounded. -/
theorem rounds_ofCount {n : ℕ} (hn : 0 < n) (hle : n ≤ 2 ^ 200) : Rounds n (ofCount n) := by
  obtain ⟨-, -, hlower⟩ := gridExponent_spec hn one_pos
  have hle' : (n / (1 : ℕ) : ℚ) ≤ 2 ^ (200 : ℤ) := by
    rw [Nat.cast_one, div_one]
    exact_mod_cast hle
  have hgrid := gridExponent_le hn one_pos (by norm_num) hle'
  have hvalue := value?_nearest false hn one_pos (by omega)
  have hnear := abs_onGrid_sub_le n one_pos
  rw [show signum false = 1 from rfl, one_mul] at hvalue
  rw [Nat.cast_one, div_one] at hnear hlower
  exact ⟨_, _, hvalue, hnear, hlower⟩

/-- A quotient of positive doubles is rounded. -/
theorem rounds_div {x y : Float} {a b : ℚ} (hx : value? x = some a) (hy : value? y = some b) (ha : 0 < a)
    (hb : 0 < b) (hle : a / b ≤ 2 ^ (1000 : ℤ)) : Rounds (a / b) (x / y) := by
  have hpos : 0 < a / b := div_pos ha hb
  rw [value?_eq] at hx hy
  rcases model_div_cases hx hy hb.ne' with ⟨hzero, -⟩ | ⟨s, m, e, acc, w, hw, hc, hv, hvalue⟩
  · exact absurd hzero hpos.ne'
  · have hbounds := hw.bounds
    rw [mantissa_ofMantissaAndAccuracy] at hbounds
    have hw0 : 0 ≤ w := le_trans (Nat.cast_nonneg m) hbounds.1
    -- both operands are positive, so only the magnitude is left
    rw [hv] at hpos hle ⊢
    obtain rfl := eq_positive_of_pos (by positivity) hpos
    have hone : ((Sign.positive.apply 1 : ℤ) : ℚ) = 1 := rfl
    rw [hone, one_mul] at hle ⊢
    have hgrid := gridOf_le hbounds.1 hc (by norm_num) hle
    obtain ⟨r, hround, hnear⟩ := roundWithAccuracy_eq (s := .positive) acc hw hc (by omega)
    rw [hone, one_mul] at hround
    refine ⟨r, gridOf m e, ?_, ?_, ?_⟩
    · rw [value?_eq]
      exact hvalue.trans hround
    · rwa [← div_mul_gridOf hc, mul_div_cancel_right₀ _ (by positivity)]
    · rw [← div_mul_gridOf hc]
      by_cases hg : gridOf m e = -1074
      · exact .inr hg
      · refine .inl ?_
        rw [add_comm, zpow_add₀ two_ne_zero]
        exact mul_le_mul_of_nonneg_right (by exact_mod_cast le_div_droppedBits hbounds.1 hc hg) (by positivity)

end SpeedTrial.Numeric
