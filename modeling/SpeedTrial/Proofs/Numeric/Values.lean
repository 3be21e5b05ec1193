import SpeedTrial.Numeric.Binary64
import Mathlib

/-!
# What doubles stand for

A double is kept as 64 bits, and its arithmetic unpacks the bits into a sign, a significand and an
exponent, computes with those and packs the result again.  The exact value of a double can be read
off at either end: from its fields, as `parts?` does, or from what the arithmetic unpacks.

* `value?` is the exact value of a finite double, and `value?_eq` says that both readings agree.
* `OnGrid` describes the significands and exponents that unpacking gives, and `unpack_pack` says that
  those survive being packed.
-/

namespace SpeedTrial.Numeric

open Float.Model Float.Model.UnpackedFloat

/-! ## Exact values -/

/-- The exact value of the parts of a double. -/
def Parts.value (p : Parts) : ℚ :=
  (if p.negative then -1 else 1) * p.significand * 2 ^ p.exponent

/-- The exact value of a double, if it is finite. -/
def value? (x : Float) : Option ℚ := (parts? x).map Parts.value

/-- The exact value of an unpacked double, if it is finite. -/
def unpackedValue? : UnpackedFloat → Option ℚ
  | .zero _ => some 0
  | .finite s m e _ => some (s.apply m * 2 ^ e)
  | _ => none

theorem value?_of_parts {x : Float} {p : Parts} (h : parts? x = some p) : value? x = some p.value := by
  unfold value?
  rw [h]
  rfl

/-- The magnitude of a double is its significand, scaled. -/
theorem abs_value (p : Parts) : |p.value| = p.significand * 2 ^ p.exponent := by
  unfold Parts.value
  rw [abs_mul, abs_mul, abs_of_nonneg (by positivity : (0 : ℚ) ≤ p.significand),
    abs_of_pos (by positivity : (0 : ℚ) < 2 ^ p.exponent)]
  split <;> simp

/-- A double with its sign bit set is not positive. -/
theorem value_nonpos {p : Parts} (h : p.negative) : p.value ≤ 0 := by
  unfold Parts.value
  rw [if_pos h, neg_one_mul, neg_mul]
  exact neg_nonpos.mpr (by positivity)

theorem parts?_of_value {x : Float} {q : ℚ} (h : value? x = some q) :
    ∃ p, parts? x = some p ∧ p.value = q :=
  Option.map_eq_some_iff.mp h

/-! ## The fields of a double -/

theorem twoPow_eq (n : Nat) : twoPow n = 2 ^ n := rfl

theorem significand_lt {x : Float} {p : Parts} (h : parts? x = some p) : p.significand < 2 ^ 53 := by
  have hf : fractionField x < 2 ^ 52 := by
    unfold fractionField
    rw [twoPow_eq]
    exact Nat.mod_lt _ (Nat.two_pow_pos 52)
  unfold parts? at h
  split at h
  · cases h
  · cases h
    dsimp only
    omega
  · cases h
    dsimp only
    rw [twoPow_eq]
    omega

theorem normal_or_least {x : Float} {p : Parts} (h : parts? x = some p) :
    2 ^ 52 ≤ p.significand ∨ p.exponent = -1074 := by
  unfold parts? at h
  split at h
  · cases h
  · cases h
    exact .inr rfl
  · cases h
    exact .inl (Nat.le_add_left _ _)

theorem toNat_unpackExponent (x : Float) :
    (@unpackExponent Format.binary64 x.toModel.toBits.toBitVec).toNat = exponentField x :=
  rfl

theorem toNat_unpackMantissa (x : Float) :
    (@unpackMantissa Format.binary64 x.toModel.toBits.toBitVec).toNat =
      fractionField x := by
  show (x.toBits.toNat >>> 0) % 2 ^ 52 = x.toBits.toNat % 2 ^ 52
  rw [Nat.shiftRight_zero]

theorem toNat_unpackSign (x : Float) :
    (@unpackSign Format.binary64 x.toModel.toBits.toBitVec).toNat =
      x.toBits.toNat >>> 63 := by
  show (x.toBits.toNat >>> 63) % 2 ^ 1 = x.toBits.toNat >>> 63
  apply Nat.mod_eq_of_lt
  have := x.toBits.toNat_lt
  rw [Nat.shiftRight_eq_div_pow]
  omega

theorem apply_ofBitVec_unpackSign (x : Float) (m : Nat) :
    (((Sign.ofBitVec (@unpackSign Format.binary64 x.toModel.toBits.toBitVec)).apply m : ℤ)
      : ℚ) = (if signBit x then -1 else 1) * m := by
  unfold signBit Sign.ofBitVec
  rw [← toNat_unpackSign]
  generalize @unpackSign Format.binary64 x.toModel.toBits.toBitVec = b
  have hb : b = 0#1 ∨ b = 1#1 := by
    revert b
    decide
  rcases hb with rfl | rfl <;> simp [Sign.apply]

theorem toNat_one_append (m : BitVec 52) : (1#1 ++ m).toNat = m.toNat + 2 ^ 52 := by
  rw [BitVec.toNat_append, ← Nat.shiftLeft_add_eq_or_of_lt m.isLt, Nat.add_comm]
  rfl

/-- The fields of a double and what its arithmetic unpacks have one value. -/
theorem value?_eq (x : Float) : value? x = unpackedValue? x.toModel.unpack := by
  have he := toNat_unpackExponent x
  have hm := toNat_unpackMantissa x
  have hs := apply_ofBitVec_unpackSign x
  -- The two readings split alike, at an exponent of all ones and at one of zero.
  have htop : exponentField x = 2047 ↔
      @unpackExponent Format.binary64 x.toModel.toBits.toBitVec = -1#11 := by
    rw [← he]
    exact BitVec.toNat_inj (y := -1#11)
  have hzero : exponentField x = 0 ↔
      @unpackExponent Format.binary64 x.toModel.toBits.toBitVec = 0#11 := by
    rw [← he]
    exact BitVec.toNat_inj (y := 0#11)
  unfold value? parts? Float.Model.unpack UnpackedFloat.unpack
  dsimp only
  split
  · next h =>
    -- infinities and NaN have no value on either side
    rw [if_pos (htop.mp h)]
    split <;> rfl
  · next h =>
    -- a subnormal double, or a zero
    rw [if_neg (fun h' => by rw [htop.mpr h'] at h; cases h), if_pos (hzero.mp h)]
    split
    · next hm0 =>
      rw [hm0] at hm
      show some _ = some _
      rw [Parts.value, ← hm]
      simp
    · show some _ = some _
      rw [Parts.value, ← hs, hm, he, h]
      rfl
  · next e hne h =>
    -- a normal double: what is unpacked has the leading bit, and the bias takes in the 52 places
    rw [if_neg (fun h' => hne (by rw [h] at htop; exact Nat.succ.inj (htop.mpr h'))),
      if_neg (fun h' => by rw [hzero.mpr h'] at h; cases h)]
    show some _ = some _
    rw [Parts.value, ← hs, toNat_one_append, hm, he, h]
    congr 3
    show (e : ℤ) - 1074 = ((e + 1 : ℕ) : ℤ) - 1075
    omega

/-! ## Packing -/

/-- A significand and an exponent that a double can have. -/
structure OnGrid (m : Nat) (e : Int) : Prop where
  lt : m < 2 ^ 53
  least : -1074 ≤ e
  greatest : e ≤ 971
  normal : 2 ^ 52 ≤ m ∨ e = -1074

theorem OnGrid.of_unpack {x : Float.Model} {s : Sign} {m : Nat} {e : Int} {h : 0 < m}
    (hx : x.unpack = .finite s m e h) : OnGrid m e := by
  have hm := (@unpackMantissa Format.binary64 x.toBits.toBitVec).isLt
  have he := (@unpackExponent Format.binary64 x.toBits.toBitVec).isLt
  unfold Float.Model.unpack UnpackedFloat.unpack at hx
  dsimp only at hx
  split at hx
  · split at hx <;> cases hx
  · next htop =>
    have htop : (@unpackExponent Format.binary64 x.toBits.toBitVec).toNat ≠ 2047 :=
      fun h => htop (BitVec.eq_of_toNat_eq h)
    split at hx
    · next hzero =>
      split at hx
      · cases hx
      · -- subnormal: no leading bit, and the least exponent
        obtain ⟨-, rfl, rfl⟩ := UnpackedFloat.finite.inj hx
        rw [hzero]
        exact ⟨Nat.lt_trans hm (by decide), by decide, by decide, .inr (by decide)⟩
    · next hzero =>
      have hzero : (@unpackExponent Format.binary64 x.toBits.toBitVec).toNat ≠ 0 :=
        fun h => hzero (BitVec.eq_of_toNat_eq h)
      obtain ⟨-, rfl, rfl⟩ := UnpackedFloat.finite.inj hx
      rw [toNat_one_append]
      -- normal: the bounds of both fields are what is needed
      generalize (@unpackMantissa Format.binary64 x.toBits.toBitVec).toNat = a at *
      generalize (@unpackExponent Format.binary64 x.toBits.toBitVec).toNat = b at *
      have hm : a < 2 ^ 52 := hm
      have he : b < 2 ^ 11 := he
      have hbias : (Format.binary64.exponentBias : ℤ) + (52 : ℕ) = 1075 := rfl
      rw [hbias]
      constructor <;> omega

theorem unpack_normal (s : Sign) {b m : Nat} (hpos : 0 < b) (hb : b < 2047) (hlow : 2 ^ 52 ≤ m)
    (hm : m < 2 ^ 53) :
    unpack Format.binary64 (packComponents Format.binary64 s (BitVec.ofNat 11 b) (BitVec.ofNat 52 m)) =
      .finite s m (b - 1075) (Nat.lt_of_lt_of_le (by decide) hlow) := by
  have hexp : (BitVec.ofNat 11 b).toNat = b := by
    rw [BitVec.toNat_ofNat, Nat.mod_eq_of_lt (by omega)]
  have hsig : (1#1 ++ BitVec.ofNat 52 m).toNat = m := by
    rw [toNat_one_append, BitVec.toNat_ofNat]
    omega
  unfold UnpackedFloat.unpack
  simp only [unpackExponent_packComponents, unpackMantissa_packComponents,
    unpackSign_packComponents, Sign.ofBitVec_toBitVec]
  -- The exponent is neither of the two that stand for something else.
  rw [if_neg, if_neg]
  · congr 1
    rw [hexp]
    rfl
  · intro h
    have := congrArg BitVec.toNat h
    rw [hexp] at this
    exact absurd this (Nat.ne_of_gt hpos)
  · intro h
    have := congrArg BitVec.toNat h
    rw [hexp] at this
    exact absurd this (Nat.ne_of_lt hb)

theorem unpack_subnormal (s : Sign) {m : Nat} (hpos : 0 < m) (hm : m < 2 ^ 52) :
    unpack Format.binary64 (packComponents Format.binary64 s 0#11 (BitVec.ofNat 52 m)) =
      .finite s m (-1074) hpos := by
  have hsig : (BitVec.ofNat 52 m).toNat = m := by
    rw [BitVec.toNat_ofNat, Nat.mod_eq_of_lt hm]
  unfold UnpackedFloat.unpack
  simp only [unpackExponent_packComponents, unpackMantissa_packComponents,
    unpackSign_packComponents, Sign.ofBitVec_toBitVec]
  rw [if_neg (by decide), if_pos trivial, dif_neg]
  · congr 1
  · intro h
    have := congrArg BitVec.toNat h
    rw [hsig] at this
    exact absurd this (Nat.ne_of_gt hpos)

theorem unpack_pack {s : Sign} {m : Nat} {e : Int} (h : 0 < m) (hg : OnGrid m e) :
    (Float.Model.pack (.finite s m e h)).unpack = .finite s m e h := by
  obtain ⟨hlt, hleast, hgreatest, hnormal⟩ := hg
  have hbias : (e + (Format.binary64.exponentBias : ℤ) + (52 : ℕ)).toNat = (e + 1075).toNat := by
    show (e + 1023 + 52).toNat = _
    omega
  show unpack Format.binary64 (UnpackedFloat.pack Format.binary64 (.finite s m e h)) = _
  unfold UnpackedFloat.pack
  dsimp only
  rw [hbias, if_neg (by show ¬ 2 ^ 11 ≤ _; omega)]
  rcases Nat.lt_or_ge m (2 ^ 52) with hlow | hlow
  · -- below the leading bit only the least exponent is on the grid, and that packs as a zero field
    have he : e = -1074 := hnormal.resolve_left (Nat.not_le.mpr hlow)
    have hlog : m.log2 < 52 := (Nat.log2_lt (Nat.ne_of_gt h)).mpr hlow
    rw [if_neg (by show ¬ m.log2 + 1 = 53; omega)]
    subst he
    exact unpack_subnormal s h hlow
  · have hlog : m.log2 = 52 := (Nat.log2_eq_iff (Nat.ne_of_gt h)).mpr ⟨hlow, hlt⟩
    rw [if_pos (by show m.log2 + 1 = 53; omega)]
    refine (unpack_normal s (by omega) (by omega) hlow hlt).trans ?_
    congr 1
    omega

theorem value_pack_zero (s : Sign) :
    unpackedValue? (Float.Model.pack (.zero s)).unpack = some 0 := by
  cases s <;> rfl

end SpeedTrial.Numeric
