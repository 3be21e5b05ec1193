import SpeedTrial.Proofs.Numeric.Arithmetic

/-!
# The order of doubles

The comparison of two doubles looks at the signs, then at the exponents and only then at the significands.
What unpacking gives is on the grid, where this is the order of the values.

* `le_iff` says that finite doubles are ordered as their values are.
-/

namespace SpeedTrial.Numeric

open Float.Model Float.Model.UnpackedFloat

section order

variable {m m' : Nat} {e e' : Int}

theorem OnGrid.value_lt (h : OnGrid m e) (h' : OnGrid m' e') (hlt : e < e') :
    (m : ℚ) * 2 ^ e < m' * 2 ^ e' := by
  have hm : (m : ℚ) < 2 ^ 53 := by exact_mod_cast h.lt
  have hm' : (2 : ℚ) ^ 52 ≤ m' := by
    exact_mod_cast h'.normal.resolve_right (by have := h.least; omega)
  calc (m : ℚ) * 2 ^ e < 2 ^ 53 * 2 ^ e := mul_lt_mul_of_pos_right hm (by positivity)
    _ = 2 ^ 52 * 2 ^ (e + 1) := by
        rw [zpow_add_one₀ two_ne_zero]
        ring
    _ ≤ m' * 2 ^ e' := mul_le_mul hm' (zpow_le_zpow_right₀ one_le_two (by omega)) (by positivity)
        (by positivity)

theorem compare_scaled (m m' : Nat) (e : Int) :
    compare ((m : ℚ) * 2 ^ e) (m' * 2 ^ e) = compare m m' := by
  have hpow : (0 : ℚ) < 2 ^ e := by positivity
  rcases lt_trichotomy m m' with hm | rfl | hm
  · rw [compare_lt_iff_lt.mpr hm]
    exact compare_lt_iff_lt.mpr (mul_lt_mul_of_pos_right (by exact_mod_cast hm) hpow)
  · rw [compare_eq_iff_eq.mpr rfl, compare_eq_iff_eq.mpr rfl]
  · rw [compare_gt_iff_gt.mpr hm]
    exact compare_gt_iff_gt.mpr (mul_lt_mul_of_pos_right (by exact_mod_cast hm) hpow)

/-- On the grid the larger exponent is that of the larger value. -/
theorem OnGrid.compare_eq (h : OnGrid m e) (h' : OnGrid m' e') :
    (compare e e').then (compare m m') = compare ((m : ℚ) * 2 ^ e) (m' * 2 ^ e') := by
  rcases lt_trichotomy e e' with hlt | rfl | hlt
  · rw [compare_lt_iff_lt.mpr hlt, compare_lt_iff_lt.mpr (h.value_lt h' hlt)]
    rfl
  · rw [compare_eq_iff_eq.mpr rfl, compare_scaled]
    rfl
  · rw [compare_gt_iff_gt.mpr hlt, compare_gt_iff_gt.mpr (h'.value_lt h hlt)]
    rfl

end order

theorem swap_compare (a b : ℚ) : (compare a b).swap = compare (-a) (-b) := by
  rcases lt_trichotomy a b with h | rfl | h
  · rw [compare_lt_iff_lt.mpr h, compare_gt_iff_gt.mpr (neg_lt_neg h)]
    rfl
  · rw [compare_eq_iff_eq.mpr rfl, compare_eq_iff_eq.mpr rfl]
    rfl
  · rw [compare_gt_iff_gt.mpr h, compare_lt_iff_lt.mpr (neg_lt_neg h)]
    rfl

theorem compare_unpack {x y : Float.Model} {a b : ℚ} (hx : modelValue? x = some a)
    (hy : modelValue? y = some b) : x.unpack.compare y.unpack = some (compare a b) := by
  have hpos : ∀ (m : Nat) (e : Int), 0 < m → (0 : ℚ) < m * 2 ^ e := fun m e hm =>
    mul_pos (by exact_mod_cast hm) (by positivity)
  rcases unpackedValue?_eq_some hx with ⟨s, hxu, rfl⟩ | ⟨s, m, e, hm, hxu, rfl⟩ <;>
    rcases unpackedValue?_eq_some hy with ⟨s', hyu, rfl⟩ | ⟨s', m', e', hm', hyu, rfl⟩ <;>
    rw [hxu, hyu]
  · rw [compare_eq_iff_eq.mpr rfl]
    rfl
  · cases s' with
    | positive =>
      refine congrArg some (compare_lt_iff_lt.mpr ?_).symm
      simpa [Sign.apply] using hpos m' e' hm'
    | negative =>
      refine congrArg some (compare_gt_iff_gt.mpr ?_).symm
      simpa [Sign.apply] using hpos m' e' hm'
  · cases s with
    | positive =>
      refine congrArg some (compare_gt_iff_gt.mpr ?_).symm
      simpa [Sign.apply] using hpos m e hm
    | negative =>
      refine congrArg some (compare_lt_iff_lt.mpr ?_).symm
      simpa [Sign.apply] using hpos m e hm
  · have hc := (OnGrid.of_unpack hxu).compare_eq (.of_unpack hyu)
    -- the magnitudes count only where the signs agree, and the other way round below zero
    cases s with
    | positive =>
      cases s' with
      | positive => exact congrArg some hc
      | negative =>
        refine congrArg some (compare_gt_iff_gt.mpr ?_).symm
        have h := hpos m e hm
        have h' := hpos m' e' hm'
        simp only [Sign.apply, Int.cast_neg, Int.cast_natCast]
        linarith
    | negative =>
      cases s' with
      | positive =>
        refine congrArg some (compare_lt_iff_lt.mpr ?_).symm
        have h := hpos m e hm
        have h' := hpos m' e' hm'
        simp only [Sign.apply, Int.cast_neg, Int.cast_natCast]
        linarith
      | negative =>
        show some ((compare e e').then (compare m m')).swap = _
        rw [hc, swap_compare]
        simp only [Sign.apply, Int.cast_neg, Int.cast_natCast, neg_mul]

section floats

variable {x y : Float} {a b : ℚ}

/-- Doubles are compared by their values. -/
theorem le_iff (hx : value? x = some a) (hy : value? y = some b) : x ≤ y ↔ a ≤ b := by
  rw [value?_eq] at hx hy
  show decide (UnpackedFloat.le x.toModel.unpack y.toModel.unpack = true) = true ↔ _
  rw [decide_eq_true_iff]
  unfold UnpackedFloat.le
  rw [compare_unpack hx hy]
  show (compare a b).isLE = true ↔ _
  rw [Ordering.isLE_iff_ne_gt, compare_gt_iff_gt]
  exact not_lt

end floats

end SpeedTrial.Numeric
