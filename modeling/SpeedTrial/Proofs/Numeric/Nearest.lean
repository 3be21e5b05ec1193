import SpeedTrial.Proofs.Numeric.Near

/-!
# Quotients rounded to a double

A quotient of two naturals is rounded on the grid of the doubles around it, and the double is put together
from the bits that this gives.  Where the quotient is on the grid itself nothing is lost.

* `value?_ofMagnitudeBits` is the value of a double put together from bits.
* `value?_nearest` says that the nearest double is the quotient rounded on its grid, and `near_nearest` how
  close that is.
* `value?_nearest_of_eq` says that a quotient of 53 bits is its own nearest double; counts of 53 bits are a
  case of it.
-/

namespace SpeedTrial.Numeric

open Float.Model Float.Model.UnpackedFloat

/-! ## Doubles from bits -/

theorem toBits_ofBits {b : UInt64} (h : (b.toNat >>> 52) % 2048 ≠ 2047) :
    (Float.ofBits b).toBits = b := by
  have hexp : @unpackExponent Format.binary64 b.toBitVec ≠ -1#11 :=
    fun he => h (congrArg BitVec.toNat he)
  have hnan : @isNaNBits Format.binary64 b.toBitVec = false := by
    unfold isNaNBits
    exact decide_eq_false fun hb => hexp hb.1
  apply UInt64.toBitVec_inj.mp
  show UnpackedFloat.pack Format.binary64 (unpack Format.binary64 b.toBitVec) = b.toBitVec
  rw [Float.Model.UnpackedFloat.pack_unpack, hnan]
  rfl

/-- Plus or minus one. -/
def signum (negative : Bool) : ℚ := if negative then -1 else 1

theorem abs_signum (negative : Bool) : |signum negative| = 1 := by
  cases negative <;> simp [signum]

theorem signum_neg_mul_natAbs (k : Int) : signum (k < 0) * (k.natAbs : ℚ) = k := by
  unfold signum
  rcases lt_or_ge k 0 with h | h
  · rw [if_pos (by simpa using h), Nat.cast_natAbs, abs_of_neg h]
    push_cast
    ring
  · rw [if_neg (by simpa using h), Nat.cast_natAbs, abs_of_nonneg h, one_mul]

theorem signum_pos_mul_natAbs (k : Int) : signum (0 < k) * (k.natAbs : ℚ) = -k := by
  have h := signum_neg_mul_natAbs (-k)
  rw [Int.natAbs_neg, Int.cast_neg, decide_eq_decide.mpr Int.neg_neg_iff_pos] at h
  exact h

theorem toBits_ofMagnitudeBits (negative : Bool) {bits : Nat} (h : bits < infinityBits) :
    (ofMagnitudeBits negative bits).toBits.toNat =
      (if negative then 2 ^ 63 else 0) + bits := by
  have hbits : bits < 2047 * 2 ^ 52 := h
  -- The sign bit lies above every finite magnitude, so the word is the plain sum.
  have hnat : (UInt64.ofNat ((if negative then twoPow 63 else 0) + bits)).toNat =
      (if negative then 2 ^ 63 else 0) + bits := by
    rw [UInt64.toNat_ofNat']
    apply Nat.mod_eq_of_lt
    show (if negative then 2 ^ 63 else 0) + bits < 2 ^ 64
    cases negative <;> simp only [Bool.false_eq_true, if_false, if_true] <;> omega
  unfold ofMagnitudeBits
  rw [toBits_ofBits, hnat]
  rw [hnat, Nat.shiftRight_eq_div_pow]
  cases negative <;> simp only [Bool.false_eq_true, if_false, if_true] <;> omega

theorem infinityBits_eq : infinityBits = 2047 * 2 ^ 52 := rfl

theorem fields_ofMagnitudeBits (negative : Bool) {bits : Nat} (h : bits < infinityBits) :
    signBit (ofMagnitudeBits negative bits) = negative ∧
      exponentField (ofMagnitudeBits negative bits) = bits / 2 ^ 52 ∧
      fractionField (ofMagnitudeBits negative bits) = bits % 2 ^ 52 := by
  have hbits := toBits_ofMagnitudeBits negative h
  rw [infinityBits_eq] at h
  unfold signBit exponentField fractionField
  rw [hbits, Nat.shiftRight_eq_div_pow, Nat.shiftRight_eq_div_pow]
  refine ⟨?_, ?_, ?_⟩
  · cases negative
    · exact beq_eq_false_iff_ne.mpr (by simp only [Bool.false_eq_true, if_false]; omega)
    · exact beq_iff_eq.mpr (by simp only [if_true]; omega)
  · cases negative <;> simp only [Bool.false_eq_true, if_false, if_true] <;> omega
  · show _ % 2 ^ 52 = _
    cases negative <;> simp only [Bool.false_eq_true, if_false, if_true] <;> omega

theorem value?_of_fields {x : Float} {e : Nat} (he : exponentField x = e) (htop : e ≠ 2047) :
    value? x = some (signum (signBit x) * (if e = 0 then (fractionField x : ℚ) * 2 ^ (-1074 : ℤ)
      else ((fractionField x : ℚ) + 2 ^ 52) * 2 ^ (e - 1075 : ℤ))) := by
  unfold value? parts?
  rw [he]
  split
  · exact absurd rfl htop
  · rw [if_pos rfl]
    show some _ = some _
    rw [← mul_assoc]
    rfl
  · next k _ =>
    rw [if_neg (Nat.succ_ne_zero k), ← mul_assoc]
    show some (signum (signBit x) * ((fractionField x + twoPow 52 : ℕ) : ℚ) * 2 ^ ((k : ℤ) - 1074)) = _
    rw [show ((k.succ : ℕ) : ℤ) - 1075 = k - 1074 by push_cast; ring, Nat.cast_add]
    norm_num

/-- The bits below the sign are the significand, counted on from the first bits of its exponent. -/
theorem value?_ofMagnitudeBits (negative : Bool) {a m : Nat} (hm : m ≤ 2 ^ 53)
    (hn : 2 ^ 52 ≤ m ∨ a = 0) (ha : a ≤ 2044) :
    value? (ofMagnitudeBits negative (a * 2 ^ 52 + m)) =
      some (signum negative * (m * 2 ^ (a - 1074 : ℤ))) := by
  have hlt : a * 2 ^ 52 + m < infinityBits := by
    rw [infinityBits_eq]
    omega
  obtain ⟨hsign, hfield, hfraction⟩ := fields_ofMagnitudeBits negative hlt
  rw [value?_of_fields hfield (by omega), hsign, hfraction]
  rcases Nat.lt_or_ge m (2 ^ 52) with hlow | hlow
  · -- without a leading bit the field of the exponent is zero
    obtain rfl : a = 0 := hn.resolve_left (Nat.not_le.mpr hlow)
    rw [if_pos (by omega), Nat.zero_mul, Nat.zero_add, Nat.mod_eq_of_lt hlow]
    norm_num
  · -- the leading bit goes into the field of the exponent, and a carry does so once more
    rw [if_neg (by omega)]
    rcases Nat.lt_or_eq_of_le hm with hlt | rfl
    · rw [show (a * 2 ^ 52 + m) / 2 ^ 52 = a + 1 by omega,
        show (a * 2 ^ 52 + m) % 2 ^ 52 = m - 2 ^ 52 by omega, Nat.cast_sub hlow]
      push_cast
      rw [show (a : ℤ) + 1 - 1075 = a - 1074 by ring]
      norm_num
    · rw [show (a * 2 ^ 52 + 2 ^ 53) / 2 ^ 52 = a + 2 by omega,
        show (a * 2 ^ 52 + 2 ^ 53) % 2 ^ 52 = 0 by omega]
      push_cast
      rw [show (a : ℤ) + 2 - 1075 = a - 1074 + 1 by ring, zpow_add_one₀ two_ne_zero]
      congr 2
      ring

/-! ## The grid of a quotient -/

section grid

variable {num den : Nat}

theorem zpow_le_div_iff (num : Nat) (g : Int) (hd : 0 < den) :
    (2 : ℚ) ^ (g + 52) ≤ num / den ↔
      if g ≥ 0 then den * twoPow (g.toNat + 52) ≤ num
      else den * twoPow 52 ≤ num * twoPow (-g).toNat := by
  have hd' : (0 : ℚ) < den := by exact_mod_cast hd
  simp only [twoPow_eq]
  rw [le_div_iff₀ hd', zpow_add₀ two_ne_zero]
  split
  · next h =>
    rw [← @Nat.cast_le ℚ, Nat.cast_mul, Nat.cast_pow, pow_add, ← zpow_natCast _ g.toNat,
      Int.toNat_of_nonneg h, mul_comm (den : ℚ)]
    norm_num
  · next h =>
    have hg : (2 : ℚ) ^ (-g).toNat = (2 ^ g)⁻¹ := by
      rw [← zpow_natCast, Int.toNat_of_nonneg (by omega), zpow_neg]
    rw [← @Nat.cast_le ℚ, Nat.cast_mul, Nat.cast_mul, Nat.cast_pow, Nat.cast_pow, Nat.cast_ofNat,
      hg, ← div_eq_mul_inv, le_div_iff₀ (by positivity)]
    norm_num
    constructor <;> intro h <;> linarith

theorem div_lt_zpow (num : Nat) (hd : 0 < den) :
    (num / den : ℚ) < 2 ^ ((num.log2 : ℤ) - den.log2 + 1) := by
  have hnum : (num : ℚ) < 2 ^ (num.log2 + 1) := by exact_mod_cast Nat.lt_log2_self
  have hden : (2 : ℚ) ^ den.log2 ≤ den := by exact_mod_cast Nat.log2_self_le (Nat.ne_of_gt hd)
  have hd' : (0 : ℚ) < den := by exact_mod_cast hd
  rw [div_lt_iff₀ hd', show (num.log2 : ℤ) - den.log2 + 1 = (num.log2 + 1 : ℕ) - den.log2 by
    push_cast; ring, zpow_sub₀ two_ne_zero, zpow_natCast, zpow_natCast, div_mul_eq_mul_div,
    lt_div_iff₀ (by positivity)]
  exact mul_lt_mul hnum hden (by positivity) (by positivity)

theorem zpow_le_div (hn : 0 < num) (hd : 0 < den) :
    2 ^ ((num.log2 : ℤ) - den.log2 - 1) ≤ (num / den : ℚ) := by
  have hnum : (2 : ℚ) ^ num.log2 ≤ num := by exact_mod_cast Nat.log2_self_le (Nat.ne_of_gt hn)
  have hden : (den : ℚ) ≤ 2 ^ (den.log2 + 1) := by exact_mod_cast Nat.lt_log2_self.le
  have hd' : (0 : ℚ) < den := by exact_mod_cast hd
  rw [le_div_iff₀ hd', show (num.log2 : ℤ) - den.log2 - 1 = num.log2 - (den.log2 + 1 : ℕ) by
    push_cast; ring, zpow_sub₀ two_ne_zero, zpow_natCast, zpow_natCast, div_mul_eq_mul_div,
    div_le_iff₀ (by positivity)]
  exact mul_le_mul hnum hden hd'.le (by positivity)

/-- A quotient has 53 bits on its grid, unless the grid is the finest. -/
theorem gridExponent_spec (hn : 0 < num) (hd : 0 < den) :
    -1074 ≤ gridExponent num den ∧ (num / den : ℚ) < 2 ^ (gridExponent num den + 53) ∧
      (2 ^ (gridExponent num den + 52) ≤ (num / den : ℚ) ∨ gridExponent num den = -1074) := by
  have hupper := div_lt_zpow num hd
  have hlower := zpow_le_div hn hd
  unfold gridExponent
  dsimp only
  generalize hg : (num.log2 : ℤ) - den.log2 - 52 = g
  have hreach := zpow_le_div_iff num g hd
  rw [show (num.log2 : ℤ) - den.log2 + 1 = g + 53 by omega] at hupper
  rw [show (num.log2 : ℤ) - den.log2 - 1 = g - 1 + 52 by omega] at hlower
  -- The first guess is off by one at most, and either way it is not taken below the least exponent.
  have hmax : ∀ {k : Int}, (num / den : ℚ) < 2 ^ (k + 53) → 2 ^ (k + 52) ≤ (num / den : ℚ) →
      -1074 ≤ max k (-1074) ∧ (num / den : ℚ) < 2 ^ (max k (-1074) + 53) ∧
        (2 ^ (max k (-1074) + 52) ≤ (num / den : ℚ) ∨ max k (-1074) = -1074) := by
    intro k hlt hle
    refine ⟨le_max_right _ _, lt_of_lt_of_le hlt (zpow_le_zpow_right₀ one_le_two (by omega)), ?_⟩
    rcases le_total k (-1074) with h | h
    · exact .inr (max_eq_right h)
    · rw [max_eq_left h]
      exact .inl hle
  by_cases h : (2 : ℚ) ^ (g + 52) ≤ num / den
  · rw [if_pos (hreach.mp h)]
    exact hmax hupper h
  · rw [if_neg fun h' => h (hreach.mpr h')]
    refine hmax ?_ hlower
    rw [show g - 1 + 53 = g + 52 by ring]
    exact lt_of_not_ge h

theorem gridExponent_le {N : Int} (hn : 0 < num) (hd : 0 < den) (hN : -1022 ≤ N)
    (hle : (num / den : ℚ) ≤ 2 ^ N) : gridExponent num den ≤ N - 52 := by
  obtain ⟨-, -, hlower⟩ := gridExponent_spec hn hd
  rcases hlower with h | h
  · have := (zpow_le_zpow_iff_right₀ (one_lt_two : (1 : ℚ) < 2)).mp (le_trans h hle)
    omega
  · omega

end grid

/-! ## Rounding on the grid -/

section nearest

variable {num den : Nat} {N : Int}

/-- A quotient on its grid, rounded. -/
def onGrid (num den : Nat) : Nat :=
  if gridExponent num den ≥ 0 then
    roundDiv num (den * 2 ^ (gridExponent num den).toNat) .toEven
  else roundDiv (num * 2 ^ (-gridExponent num den).toNat) den .toEven

theorem nearest_eq (negative : Bool) (hn : 0 < num)
    (hlim : (gridExponent num den + 1074).toNat * 2 ^ 52 + onGrid num den < infinityBits) :
    nearest negative num den =
      ofMagnitudeBits negative ((gridExponent num den + 1074).toNat * 2 ^ 52 + onGrid num den) := by
  unfold nearest
  rw [if_neg (Nat.ne_of_gt hn)]
  dsimp only
  rw [min_eq_left]
  · rfl
  · exact hlim.le

theorem abs_roundDiv_sub_le (num : Nat) {den : Nat} (tie : Tie) (h : 0 < den) :
    |(roundDiv num den tie : ℚ) - num / den| ≤ 1 / 2 := by
  have hd : (0 : ℚ) < den := by exact_mod_cast h
  have hupper : 2 * ((den : ℚ) * roundDiv num den tie) ≤ 2 * num + den := by
    exact_mod_cast two_mul_roundDiv_le num den tie h
  have hlower : 2 * (num : ℚ) ≤ 2 * (den * roundDiv num den tie) + den := by
    exact_mod_cast le_two_mul_roundDiv num den tie h
  rw [abs_le, neg_le_sub_iff_le_add, sub_le_iff_le_add, div_le_iff₀ hd]
  constructor
  · linarith
  · rw [← sub_le_iff_le_add', le_div_iff₀ hd]
    linarith

theorem abs_onGrid_sub_le (num : Nat) (hd : 0 < den) :
    |(onGrid num den : ℚ) - num / den / 2 ^ gridExponent num den| ≤ 1 / 2 := by
  unfold onGrid
  generalize gridExponent num den = e
  split
  · next h =>
    have hpow : (2 : ℚ) ^ e = 2 ^ e.toNat := by
      rw [← zpow_natCast, Int.toNat_of_nonneg h]
    have hround := abs_roundDiv_sub_le num .toEven (Nat.mul_pos hd (Nat.two_pow_pos e.toNat))
    rw [hpow, div_div]
    push_cast at hround
    exact hround
  · next h =>
    have hpow : (2 : ℚ) ^ e = (2 ^ (-e).toNat)⁻¹ := by
      rw [← zpow_natCast, Int.toNat_of_nonneg (by omega), zpow_neg, inv_inv]
    have hround := abs_roundDiv_sub_le (num * 2 ^ (-e).toNat) .toEven hd
    rw [hpow, div_inv_eq_mul, div_mul_eq_mul_div]
    push_cast at hround
    exact hround

theorem value?_nearest_zero (negative : Bool) (den : Nat) : value? (nearest negative 0 den) = some 0 := by
  have h := value?_ofMagnitudeBits negative (a := 0) (m := 0) (by omega) (.inr rfl) (by omega)
  rw [Nat.zero_mul, Nat.zero_add, Nat.cast_zero, zero_mul, mul_zero] at h
  unfold nearest
  rw [if_pos rfl]
  exact h

/-- The nearest double is the quotient rounded on its grid. -/
theorem value?_nearest (negative : Bool) (hn : 0 < num) (hd : 0 < den)
    (hgrid : gridExponent num den ≤ 970) :
    value? (nearest negative num den) =
      some (signum negative * (onGrid num den * 2 ^ gridExponent num den)) := by
  obtain ⟨hleast, hupper, hlower⟩ := gridExponent_spec hn hd
  have herr := abs_le.mp (abs_onGrid_sub_le num hd)
  have hpow : (0 : ℚ) < 2 ^ gridExponent num den := by positivity
  rw [zpow_add₀ two_ne_zero] at hupper
  -- Rounding may carry to `2 ^ 53` but not beyond, and does not fall below `2 ^ 52`.
  have hm : onGrid num den ≤ 2 ^ 53 := by
    have : (onGrid num den : ℚ) < 2 ^ 53 + 1 := by
      have : (num : ℚ) / den / 2 ^ gridExponent num den < 2 ^ 53 := by
        rw [div_lt_iff₀ hpow, mul_comm]
        exact_mod_cast hupper
      linarith [herr.2]
    exact Nat.le_of_lt_succ (by exact_mod_cast this)
  have hm' : 2 ^ 52 ≤ onGrid num den ∨ (gridExponent num den + 1074).toNat = 0 := by
    refine hlower.imp (fun h => ?_) (fun h => by rw [h]; rfl)
    have : (2 : ℚ) ^ 52 < onGrid num den + 1 := by
      have : (2 : ℚ) ^ 52 ≤ num / den / 2 ^ gridExponent num den := by
        rw [zpow_add₀ two_ne_zero] at h
        rw [le_div_iff₀ hpow, mul_comm]
        exact_mod_cast h
      linarith [herr.1]
    exact Nat.le_of_lt_succ (by exact_mod_cast this)
  have hlim : (gridExponent num den + 1074).toNat * 2 ^ 52 + onGrid num den < infinityBits := by
    rw [infinityBits_eq]
    omega
  rw [nearest_eq negative hn hlim, value?_ofMagnitudeBits negative hm hm' (by omega),
    show (((gridExponent num den + 1074).toNat : ℕ) : ℤ) - 1074 = gridExponent num den by omega]

/-- The nearest double to a quotient is near to it. -/
theorem nearest_near (negative : Bool) (hd : 0 < den) (hN : -1022 ≤ N) (hN' : N ≤ 1022)
    (hle : (num / den : ℚ) ≤ 2 ^ N) :
    ∃ q, value? (nearest negative num den) = some q ∧
      |q - signum negative * (num / den)| ≤ 2 ^ (N - 53) := by
  rcases Nat.eq_zero_or_pos num with rfl | hn
  · refine ⟨0, value?_nearest_zero negative den, ?_⟩
    rw [Nat.cast_zero, zero_div, mul_zero, sub_zero, abs_zero]
    positivity
  · have hgrid := gridExponent_le hn hd hN hle
    refine ⟨_, value?_nearest negative hn hd (by omega), ?_⟩
    have hpow : (0 : ℚ) < 2 ^ gridExponent num den := by positivity
    -- On the grid the error is one half, and the grid is at most `2 ^ (N - 52)`.
    have hsplit : (onGrid num den : ℚ) * 2 ^ gridExponent num den - num / den =
        (onGrid num den - num / den / 2 ^ gridExponent num den) * 2 ^ gridExponent num den := by
      rw [sub_mul, div_mul_cancel₀ _ hpow.ne']
    rw [← mul_sub, abs_mul, abs_signum, one_mul, hsplit, abs_mul, abs_of_pos hpow]
    calc |(onGrid num den : ℚ) - num / den / 2 ^ gridExponent num den| * 2 ^ gridExponent num den
        ≤ 1 / 2 * 2 ^ (N - 52) :=
          mul_le_mul (abs_onGrid_sub_le num hd) (zpow_le_zpow_right₀ one_le_two hgrid) hpow.le (by norm_num)
      _ = 2 ^ (N - 53) := by
          rw [show N - 52 = N - 53 + 1 by ring, zpow_add_one₀ two_ne_zero]
          ring

end nearest

/-! ## Numbers of 53 bits -/

section exact

variable {num den m n : Nat} {s N : Int}

/-- A quotient that has at most 53 bits is its own nearest double. -/
theorem value?_nearest_of_eq (negative : Bool) (num : Nat) (hd : 0 < den) (hv : (num / den : ℚ) = m * 2 ^ s)
    (hm : m < 2 ^ 53) (hs : -1074 ≤ s) (hs' : s ≤ 970) :
    value? (nearest negative num den) = some (signum negative * (m * 2 ^ s)) := by
  rw [← hv]
  rcases Nat.eq_zero_or_pos num with rfl | hn
  · rw [value?_nearest_zero, Nat.cast_zero, zero_div, mul_zero]
  · obtain ⟨hleast, -, hlower⟩ := gridExponent_spec hn hd
    -- A number of 53 bits lies on the grid of its own quotient.
    have hgrid : gridExponent num den ≤ s := by
      rcases hlower with h | h
      · have hlt : (2 : ℚ) ^ (gridExponent num den + 52) < 2 ^ (53 + s) := by
          rw [hv] at h
          refine lt_of_le_of_lt h ?_
          rw [zpow_add₀ two_ne_zero]
          have : (m : ℚ) < 2 ^ (53 : ℤ) := by exact_mod_cast hm
          exact mul_lt_mul_of_pos_right this (by positivity)
        have := (zpow_lt_zpow_iff_right₀ (one_lt_two : (1 : ℚ) < 2)).mp hlt
        omega
      · omega
    -- the quotient is a whole number on its grid, and so is what it is rounded to
    have hwhole : (num / den / 2 ^ gridExponent num den : ℚ) =
        (m * 2 ^ (s - gridExponent num den).toNat : ℕ) := by
      rw [hv, Nat.cast_mul, Nat.cast_pow, Nat.cast_ofNat, ← zpow_natCast,
        Int.toNat_of_nonneg (by omega), zpow_sub₀ two_ne_zero, mul_div_assoc]
    have herr := abs_onGrid_sub_le num hd
    rw [hwhole] at herr
    have honGrid : onGrid num den = m * 2 ^ (s - gridExponent num den).toNat := by
      have h : |((onGrid num den : ℤ) - (m * 2 ^ (s - gridExponent num den).toNat : ℕ) : ℤ)| < 1 := by
        have : |((onGrid num den : ℚ) - (m * 2 ^ (s - gridExponent num den).toNat : ℕ))| < 1 :=
          lt_of_le_of_lt herr (by norm_num)
        exact_mod_cast this
      exact_mod_cast sub_eq_zero.mp (Int.abs_lt_one_iff.mp h)
    rw [value?_nearest negative hn hd (by omega), honGrid, ← hwhole,
      div_mul_cancel₀ _ (by positivity)]

theorem value?_nearestScaled (negative : Bool) (hm : m < 2 ^ 53) (hs : -1074 ≤ s) (hs' : s ≤ 970) :
    value? (nearestScaled negative m s) = some (signum negative * (m * 2 ^ s)) := by
  unfold nearestScaled
  split
  · next h =>
    refine value?_nearest_of_eq negative _ one_pos ?_ hm hs hs'
    rw [twoPow_eq, Nat.cast_one, div_one, Nat.cast_mul, Nat.cast_pow, Nat.cast_ofNat, ← zpow_natCast,
      Int.toNat_of_nonneg h]
  · next h =>
    refine value?_nearest_of_eq negative _ (Nat.two_pow_pos _) ?_ hm hs hs'
    rw [twoPow_eq, Nat.cast_pow, Nat.cast_ofNat, ← zpow_natCast, Int.toNat_of_nonneg (by omega),
      zpow_neg, div_inv_eq_mul]

theorem near_nearestScaled (hm : m < 2 ^ 53) (hs : -1074 ≤ s) (hs' : s ≤ 970) :
    Near (nearestScaled false m s) (m * 2 ^ s) 0 := by
  simpa [signum] using Near.of_value (value?_nearestScaled false hm hs hs')

theorem value?_ofCount (hn : n < 2 ^ 53) : value? (ofCount n) = some (n : ℚ) := by
  have h := value?_nearest_of_eq false n (s := 0) one_pos (by norm_num) hn (by norm_num)
    (by norm_num)
  rwa [show signum false = 1 from rfl, one_mul, zpow_zero, mul_one] at h

/-- The first number of 54 bits is a double, too. -/
theorem value?_ofCount_of_le (hn : n ≤ 2 ^ 53) : value? (ofCount n) = some (n : ℚ) := by
  rcases Nat.lt_or_eq_of_le hn with hlt | rfl
  · exact value?_ofCount hlt
  · have h := value?_nearest_of_eq false (2 ^ 53) (m := 2 ^ 52) (s := 1) one_pos (by norm_num) (by norm_num)
      (by norm_num) (by norm_num)
    rw [show signum false = 1 from rfl, one_mul] at h
    refine h.trans (congrArg some ?_)
    norm_num

theorem near_ofCount_exact (hn : n < 2 ^ 53) : Near (ofCount n) n 0 := by
  simpa using Near.of_value (value?_ofCount hn)

theorem near_nearest (negative : Bool) (num : Nat) (hd : 0 < den) (hN : -1022 ≤ N) (hN' : N ≤ 1022)
    (hle : (num / den : ℝ) ≤ 2 ^ N) :
    Near (nearest negative num den) (signum negative * (num / den)) (2 ^ N / 2 ^ 53) := by
  have hle' : (num / den : ℚ) ≤ 2 ^ N := by
    apply (Rat.cast_le (K := ℝ)).mp
    push_cast
    exact hle
  obtain ⟨q, hq, herr⟩ := nearest_near negative hd hN hN' hle'
  replace herr := (Rat.cast_le (K := ℝ)).mpr herr
  push_cast at herr
  rw [zpow_sub₀ two_ne_zero, zpow_ofNat] at herr
  exact ⟨q, hq, herr⟩

theorem near_ofCount (hN : 0 ≤ N) (hN' : N ≤ 1022) (hle : (n : ℝ) ≤ 2 ^ N) :
    Near (ofCount n) n (2 ^ N / 2 ^ 53) := by
  have h := near_nearest false n one_pos (by omega) hN' (by simpa using hle)
  unfold ofCount
  simpa [signum] using h

/-- A count is rounded in its last place. -/
theorem near_ofCount_relative (hn : 0 < n) (hlt : n ≤ 2 ^ 200) :
    Near (ofCount n) n (n / 2 ^ 52) := by
  have hn' : (1 : ℝ) ≤ n := by exact_mod_cast hn
  have hlt' : (n : ℝ) ≤ 2 ^ 200 := by exact_mod_cast hlt
  obtain ⟨N, hN, hN', hle, hge⟩ := exists_octave (r := n) (le_trans (by norm_num) hn') hlt'
  have hN0 : 0 ≤ N := by
    by_contra h
    have : (2 : ℝ) ^ N < 2 ^ (0 : ℤ) := zpow_lt_zpow_right₀ one_lt_two (by omega)
    rw [zpow_zero] at this
    linarith
  exact (near_ofCount hN0 (by omega) hle).mono (by linarith)

end exact

end SpeedTrial.Numeric
