import SpeedTrial.Proofs.Numeric.Nearest

/-!
# Doubles moved to whole numbers

A double is moved to a whole number by its significand and its exponent, and this is the rounding of its
value.

* `truncToWord_eq` and `ceilToWord_eq` are the floor and the ceiling of a value, up to the largest word.
* `abs_roundedMagnitude_sub_le` says that a rounded magnitude is off by at most one half.
-/

namespace SpeedTrial.Numeric

variable (p : Parts)

/-- The magnitude of a double is a whole number or a quotient of two. -/
theorem abs_value_cases : (0 ≤ p.exponent ∧ |p.value| = (p.significand * 2 ^ p.exponent.toNat : ℕ)) ∨
    (p.exponent < 0 ∧ |p.value| = p.significand / (2 ^ (-p.exponent).toNat : ℕ)) := by
  rcases lt_or_ge p.exponent 0 with h | h
  · refine .inr ⟨h, ?_⟩
    rw [abs_value, Nat.cast_pow, Nat.cast_ofNat, ← zpow_natCast, Int.toNat_of_nonneg (by omega), zpow_neg,
      div_inv_eq_mul]
  · refine .inl ⟨h, ?_⟩
    rw [abs_value, Nat.cast_mul, Nat.cast_pow, Nat.cast_ofNat, ← zpow_natCast, Int.toNat_of_nonneg h]

theorem floorMagnitude_eq : p.floorMagnitude = ⌊|p.value|⌋₊ := by
  unfold Parts.floorMagnitude
  rcases abs_value_cases p with ⟨h, habs⟩ | ⟨h, habs⟩
  · rw [if_pos h, habs, Nat.floor_natCast]
    rfl
  · rw [if_neg (by omega), habs, Nat.floor_div_natCast, Nat.floor_natCast]
    rfl

theorem abs_roundedMagnitude_sub_le : |(p.roundedMagnitude : ℚ) - abs p.value| ≤ 1 / 2 := by
  unfold Parts.roundedMagnitude
  rcases abs_value_cases p with ⟨h, habs⟩ | ⟨h, habs⟩
  · rw [if_pos h, habs, twoPow_eq, sub_self, abs_zero]
    norm_num
  · rw [if_neg (by omega), habs]
    exact abs_roundDiv_sub_le p.significand .up (Nat.two_pow_pos _)

theorem ceilingMagnitude_eq : p.ceilingMagnitude = ⌈|p.value|⌉₊ := by
  unfold Parts.ceilingMagnitude
  rcases abs_value_cases p with ⟨h, habs⟩ | ⟨h, habs⟩
  · rw [if_pos h, habs, Nat.ceil_natCast]
    rfl
  · have hden : 0 < 2 ^ (-p.exponent).toNat := Nat.two_pow_pos _
    have hden' : (0 : ℚ) < (2 ^ (-p.exponent).toNat : ℕ) := by exact_mod_cast hden
    rw [if_neg (by omega), habs]
    dsimp only
    rw [twoPow_eq]
    refine eq_of_forall_ge_iff fun k => ?_
    rw [Nat.ceil_le, div_le_iff₀ hden', Nat.div_le_iff_le_mul_add_pred hden, Nat.mul_comm,
      Nat.add_le_add_iff_right]
    exact_mod_cast Iff.rfl

/-- A rule for magnitudes that gives zero for zero gives its word for a double that is not negative. -/
theorem toWord_eq {rule : Parts → Nat} {f : ℚ → Nat} {x : Float} {q : ℚ} (hrule : ∀ p, rule p = f |p.value|)
    (hzero : f 0 = 0) (h : value? x = some q) (hq : 0 ≤ q) : toWord rule x = min (f q) maxWord := by
  obtain ⟨p, hp, rfl⟩ := parts?_of_value h
  unfold toWord
  rw [hp]
  dsimp only
  split
  · next hneg => rw [le_antisymm (value_nonpos hneg) hq, hzero, Nat.zero_min]
  · rw [hrule, abs_of_nonneg hq]

/-- The greatest word not above a double is the floor of its value. -/
theorem truncToWord_eq {x : Float} {q : ℚ} (h : value? x = some q) (hq : 0 ≤ q) :
    truncToWord x = min ⌊q⌋₊ maxWord :=
  toWord_eq floorMagnitude_eq Nat.floor_zero h hq

/-- The least word not below a double is the ceiling of its value. -/
theorem ceilToWord_eq {x : Float} {q : ℚ} (h : value? x = some q) (hq : 0 ≤ q) :
    ceilToWord x = min ⌈q⌉₊ maxWord :=
  toWord_eq ceilingMagnitude_eq Nat.ceil_zero h hq

end SpeedTrial.Numeric
