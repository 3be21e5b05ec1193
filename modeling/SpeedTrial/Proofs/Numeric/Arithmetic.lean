import SpeedTrial.Proofs.Numeric.Rounding

/-!
# The arithmetic of doubles

Sums, differences, products and quotients of finite doubles are the nearest doubles to the exact ones.

* `add_near`, `sub_near`, `mul_near` and `div_near` say so with a bound on the exact result: if that is
  at most `2 ^ N`, the double is off by at most `2 ^ (N - 53)`.
* `mul_exact` is a product that needs no rounding.
-/

namespace SpeedTrial.Numeric

open Float.Model Float.Model.UnpackedFloat

/-! ## Unpacked operands -/

/-- The value of a packed double. -/
def modelValue? (x : Float.Model) : Option ℚ := unpackedValue? x.unpack

theorem unpackedValue?_eq_some {u : UnpackedFloat} {a : ℚ} (h : unpackedValue? u = some a) :
    (∃ s, u = .zero s ∧ a = 0) ∨
      ∃ s m e, ∃ hm : 0 < m, u = .finite s m e hm ∧ a = s.apply m * 2 ^ e := by
  cases u with
  | zero s => exact .inl ⟨s, rfl, (Option.some.inj h).symm⟩
  | finite s m e hm => exact .inr ⟨s, m, e, hm, rfl, (Option.some.inj h).symm⟩
  | infinity s => cases h
  | notANumber => cases h

theorem pack_unpack_model (x : Float.Model) : Float.Model.pack x.unpack = x := by
  obtain ⟨bits, hv⟩ := x
  show Float.Model.mk _ _ = _
  congr 1
  exact UInt64.toBitVec_inj.mp (Float.Model.UnpackedFloat.pack_unpack_of_valid hv)

theorem apply_neg (s : Sign) (z : Int) : (-s).apply z = -s.apply z := by
  cases s
  · exact (neg_neg z).symm
  · rfl

theorem apply_one_mul (s s' : Sign) : (s * s').apply 1 = s.apply 1 * s'.apply 1 := by
  cases s <;> cases s' <;> rfl

theorem apply_one_div (s s' : Sign) : (s / s').apply 1 = s.apply 1 * s'.apply 1 := by
  cases s <;> cases s' <;> rfl

theorem apply_one_sq (s : Sign) : s.apply 1 * s.apply 1 = 1 := by
  cases s <;> rfl

theorem apply_mul (s : Sign) (m : Nat) : ((s.apply m : ℤ) : ℚ) = (s.apply 1 : ℤ) * m := by
  cases s <;> simp [Sign.apply]

theorem aligned_value (s : Sign) (m : Nat) {e t : Int} (h : t ≤ e) :
    ((s.apply ((decreaseExponent m e t).1 : ℕ) : ℤ) : ℚ) * 2 ^ t = (s.apply m : ℤ) * 2 ^ e := by
  have ht : (decreaseExponent m e t).2 = t := by
    show e - ((e - t).toNat : ℤ) = t
    omega
  have hv := decreaseExponent_value m e t
  rw [ht] at hv
  rw [apply_mul, apply_mul, mul_assoc, hv, mul_assoc]

theorem abs_apply_one_mul {s : Sign} {a : ℚ} (h : 0 ≤ a) : |((s.apply 1 : ℤ) : ℚ) * a| = a := by
  rw [abs_mul, abs_of_nonneg h]
  cases s <;> simp [Sign.apply]

/-! ## Quotients -/

theorem stands_accuracyOfFraction {M d : Nat} (hd : 0 < d) :
    Stands (.ofMantissaAndAccuracy (M / d) (accuracyOfFraction (M % d) d)) (M / d : ℚ) := by
  have hd' : (0 : ℚ) < d := by exact_mod_cast hd
  have hM : (M : ℚ) / d = (M / d : ℕ) + (M % d : ℕ) / d := by
    rw [div_eq_iff hd'.ne', add_mul, div_mul_cancel₀ _ hd'.ne']
    exact_mod_cast (Nat.div_add_mod' M d).symm
  have hlt : ((M % d : ℕ) : ℚ) / d < 1 := by
    rw [div_lt_one hd']
    exact_mod_cast Nat.mod_lt M hd
  rw [hM]
  generalize M / d = q at *
  unfold accuracyOfFraction
  split
  · next hzero =>
    show _ = _
    rw [hzero]
    simp
  · next hpos =>
    have hpos' : 0 < ((M % d : ℕ) : ℚ) / d :=
      div_pos (by exact_mod_cast Nat.pos_of_ne_zero hpos) hd'
    rcases lt_trichotomy (2 * (M % d)) d with h | h | h
    · rw [Nat.compare_eq_lt.mpr h]
      have hhalf : ((M % d : ℕ) : ℚ) / d < 1 / 2 := by
        rw [div_lt_div_iff₀ hd' two_pos, one_mul]
        exact_mod_cast (by omega : M % d * 2 < d)
      exact ⟨by linarith, by linarith⟩
    · rw [Nat.compare_eq_eq.mpr h]
      have hhalf : ((M % d : ℕ) : ℚ) / d = 1 / 2 := by
        rw [div_eq_div_iff hd'.ne' two_ne_zero, one_mul]
        exact_mod_cast (by omega : M % d * 2 = d)
      show _ = _
      rw [hhalf]
    · rw [Nat.compare_eq_gt.mpr h]
      have hhalf : 1 / 2 < ((M % d : ℕ) : ℚ) / d := by
        rw [div_lt_div_iff₀ two_pos hd', one_mul]
        exact_mod_cast (by omega : d < M % d * 2)
      exact ⟨by linarith, by linarith⟩

section quotient

variable {m m' : Nat} {e e' : Int}

/-- The exponent that a quotient is computed with: small enough for 53 bits. -/
def quotientExponent (m : Nat) (e : Int) (m' : Nat) (e' : Int) : Int :=
  min (e - e') (max (m.log2 + e - (m'.log2 + e') - 53) (-1074))

/-- The dividend on that exponent. -/
def dividend (m : Nat) (e : Int) (m' : Nat) (e' : Int) : Nat :=
  m <<< (e - e' - quotientExponent m e m' e').toNat

theorem divCore_eq : divCore Format.binary64 m e m' e' =
    (dividend m e m' e' / m', quotientExponent m e m' e',
      accuracyOfFraction (dividend m e m' e' % m') m') := by
  have h : min (e - e') (Format.binary64.targetExponent (totalExponent m e - totalExponent m' e')) =
      quotientExponent m e m' e' := by
    show min (e - e') (max ((m.log2 : ℤ) + 1 + e - ((m'.log2 : ℤ) + 1 + e') - 53) (-1074)) = _
    unfold quotientExponent
    congr 2
    ring
  unfold divCore dividend
  dsimp only
  rw [h]

theorem dividend_value : (dividend m e m' e' : ℚ) * 2 ^ quotientExponent m e m' e' =
    m * 2 ^ (e - e') := by
  have h := decreaseExponent_value m (e - e') (quotientExponent m e m' e')
  have he : (decreaseExponent m (e - e') (quotientExponent m e m' e')).2 =
      quotientExponent m e m' e' := by
    show e - e' - ((e - e' - quotientExponent m e m' e').toNat : ℤ) = _
    unfold quotientExponent
    omega
  rw [he] at h
  exact h

theorem le_log2_quotient (hm : 0 < m) (hm' : 0 < m') :
    52 ≤ (dividend m e m' e' / m').log2 ∨ quotientExponent m e m' e' ≤ -1074 := by
  by_cases hE : quotientExponent m e m' e' ≤ -1074
  · exact .inr hE
  · -- What is below 53 bits is shifted up until the quotient has them.
    have hshift : 53 + m'.log2 ≤ m.log2 + (e - e' - quotientExponent m e m' e').toNat := by
      unfold quotientExponent at *
      omega
    have hM : 2 ^ 52 * m' ≤ dividend m e m' e' := by
      calc 2 ^ 52 * m' ≤ 2 ^ 52 * 2 ^ (m'.log2 + 1) := Nat.mul_le_mul_left _ Nat.lt_log2_self.le
        _ = 2 ^ (53 + m'.log2) := by ring
        _ ≤ 2 ^ (dividend m e m' e').log2 := by
          apply Nat.pow_le_pow_right two_pos
          unfold dividend
          rw [log2_shiftLeft _ hm]
          exact hshift
        _ ≤ dividend m e m' e' := by
          apply Nat.log2_self_le
          unfold dividend
          rw [Nat.shiftLeft_eq]
          positivity
    have hq : 2 ^ 52 ≤ dividend m e m' e' / m' := (Nat.le_div_iff_mul_le hm').mpr hM
    exact .inl ((Nat.le_log2 (by omega)).mpr hq)

end quotient

/-! ## The four operations -/

section arithmetic

theorem abs_zero_le_zpow (n : Int) : |(0 : ℚ)| ≤ 2 ^ n := by
  rw [abs_zero]
  positivity

variable {x y : Float.Model} {a b : ℚ} {N : Int}

theorem model_add_near (hx : modelValue? x = some a) (hy : modelValue? y = some b)
    (hN : -1022 ≤ N) (hN' : N ≤ 1022) (hle : |a + b| ≤ 2 ^ N) :
    ∃ q, modelValue? (x + y) = some q ∧ |q - (a + b)| ≤ 2 ^ (N - 53) := by
  have hzero := abs_zero_le_zpow (N - 53)
  have hsum : modelValue? (x + y) = unpackedValue?
      (Float.Model.pack (UnpackedFloat.add Format.binary64 x.unpack y.unpack)).unpack := rfl
  -- a sum with a zero is the other operand as it is, and only two finite ones are rounded
  rcases unpackedValue?_eq_some hx with ⟨s, hxu, rfl⟩ | ⟨s, m, e, hm, hxu, rfl⟩
  · rcases unpackedValue?_eq_some hy with ⟨s', hyu, rfl⟩ | ⟨s', m', e', hm', hyu, rfl⟩
    · refine ⟨0, ?_, by simpa using hzero⟩
      rw [hsum, hxu, hyu]
      cases s <;> cases s' <;> rfl
    · refine ⟨_, ?_, by rwa [zero_add, sub_self]⟩
      rw [hsum, hxu]
      rw [hyu]
      show unpackedValue? (Float.Model.pack (.finite s' m' e' hm')).unpack = _
      rw [← hyu, pack_unpack_model]
      exact hy
  · rcases unpackedValue?_eq_some hy with ⟨s', hyu, rfl⟩ | ⟨s', m', e', hm', hyu, rfl⟩
    · refine ⟨_, ?_, by rwa [add_zero, sub_self]⟩
      rw [hsum, hxu, hyu]
      show unpackedValue? (Float.Model.pack (.finite s m e hm)).unpack = _
      rw [← hxu, pack_unpack_model]
      exact hx
    · -- the significands are brought to the smaller exponent, so that the sum of the two is exact
      have hv : ((s.apply ((decreaseExponent m e (min e e')).1 : ℕ) +
          s'.apply ((decreaseExponent m' e' (min e e')).1 : ℕ) : ℤ) : ℚ) * 2 ^ min e e' =
          (s.apply m : ℤ) * 2 ^ e + (s'.apply m' : ℤ) * 2 ^ e' := by
        rw [Int.cast_add, add_mul, aligned_value _ _ (min_le_left _ _),
          aligned_value _ _ (min_le_right _ _)]
      rw [hsum, hxu, hyu]
      rw [← hv] at hle ⊢
      exact normalize_near hN hN' hle

theorem model_sub_near (hx : modelValue? x = some a) (hy : modelValue? y = some b)
    (hN : -1022 ≤ N) (hN' : N ≤ 1022) (hle : |a - b| ≤ 2 ^ N) :
    ∃ q, modelValue? (x - y) = some q ∧ |q - (a - b)| ≤ 2 ^ (N - 53) := by
  have hzero := abs_zero_le_zpow (N - 53)
  have hdiff : modelValue? (x - y) = unpackedValue?
      (Float.Model.pack (UnpackedFloat.sub Format.binary64 x.unpack y.unpack)).unpack := rfl
  rcases unpackedValue?_eq_some hx with ⟨s, hxu, rfl⟩ | ⟨s, m, e, hm, hxu, rfl⟩
  · rcases unpackedValue?_eq_some hy with ⟨s', hyu, rfl⟩ | ⟨s', m', e', hm', hyu, rfl⟩
    · refine ⟨0, ?_, by simpa using hzero⟩
      rw [hdiff, hxu, hyu]
      cases s <;> cases s' <;> rfl
    · refine ⟨0 - (s'.apply m' : ℤ) * 2 ^ e', ?_, by rwa [sub_self]⟩
      rw [hdiff, hxu, hyu]
      show unpackedValue? (Float.Model.pack (.finite (-s') m' e' hm')).unpack = _
      rw [unpack_pack hm' (.of_unpack hyu)]
      show some (((-s').apply m' : ℤ) * (2 : ℚ) ^ e') = _
      rw [zero_sub, ← neg_mul, apply_neg, Int.cast_neg]
  · rcases unpackedValue?_eq_some hy with ⟨s', hyu, rfl⟩ | ⟨s', m', e', hm', hyu, rfl⟩
    · refine ⟨_, ?_, by rwa [sub_zero, sub_self]⟩
      rw [hdiff, hxu, hyu]
      show unpackedValue? (Float.Model.pack (.finite s m e hm)).unpack = _
      rw [← hxu, pack_unpack_model]
      exact hx
    · have hv : ((s.apply ((decreaseExponent m e (min e e')).1 : ℕ) -
          s'.apply ((decreaseExponent m' e' (min e e')).1 : ℕ) : ℤ) : ℚ) * 2 ^ min e e' =
          (s.apply m : ℤ) * 2 ^ e - (s'.apply m' : ℤ) * 2 ^ e' := by
        rw [Int.cast_sub, sub_mul, aligned_value _ _ (min_le_left _ _),
          aligned_value _ _ (min_le_right _ _)]
      rw [hdiff, hxu, hyu]
      rw [← hv] at hle ⊢
      exact normalize_near hN hN' hle

/-- A product is zero, or it is rounded from the product of the significands. -/
theorem model_mul_cases (hx : modelValue? x = some a) (hy : modelValue? y = some b) :
    (a * b = 0 ∧ modelValue? (x * y) = some 0) ∨ ∃ s m e, 0 < m ∧ (52 ≤ m.log2 ∨ e ≤ -1074) ∧
      a * b = ((s : Sign).apply 1 : ℤ) * ((m : ℕ) * 2 ^ (e : ℤ)) ∧ modelValue? (x * y) = unpackedValue?
        (Float.Model.pack (roundWithAccuracy Format.binary64 s m e .exact)).unpack := by
  have hprod : modelValue? (x * y) = unpackedValue?
      (Float.Model.pack (UnpackedFloat.mul Format.binary64 x.unpack y.unpack)).unpack := rfl
  rcases unpackedValue?_eq_some hx with ⟨s, hxu, rfl⟩ | ⟨s, m, e, hm, hxu, rfl⟩
  · refine .inl ⟨zero_mul b, ?_⟩
    rw [hprod, hxu]
    rcases unpackedValue?_eq_some hy with ⟨s', hyu, -⟩ | ⟨s', m', e', hm', hyu, -⟩
    · rw [hyu]
      exact value_pack_zero (s * s')
    · rw [hyu]
      exact value_pack_zero (s * s')
  · rcases unpackedValue?_eq_some hy with ⟨s', hyu, rfl⟩ | ⟨s', m', e', hm', hyu, rfl⟩
    · refine .inl ⟨mul_zero _, ?_⟩
      rw [hprod, hxu, hyu]
      exact value_pack_zero (s * s')
    · refine .inr ⟨s * s', m * m', e + e', Nat.mul_pos hm hm', ?_, ?_, by rw [hprod, hxu, hyu]; rfl⟩
      · obtain ⟨-, -, -, hn⟩ := OnGrid.of_unpack hxu
        obtain ⟨-, -, -, hn'⟩ := OnGrid.of_unpack hyu
        have hne : m * m' ≠ 0 := Nat.ne_of_gt (Nat.mul_pos hm hm')
        -- one factor with 53 bits is enough, and without one both exponents are the least
        rcases hn with hn | hn
        · exact .inl ((Nat.le_log2 hne).mpr (Nat.le_trans hn (Nat.le_mul_of_pos_right m hm')))
        · rcases hn' with hn' | hn'
          · exact .inl ((Nat.le_log2 hne).mpr (Nat.le_trans hn' (Nat.le_mul_of_pos_left m' hm)))
          · exact .inr (by omega)
      · rw [apply_mul s, apply_mul s', apply_one_mul, zpow_add₀ two_ne_zero, Nat.cast_mul,
          Int.cast_mul]
        ring

theorem model_mul_near (hx : modelValue? x = some a) (hy : modelValue? y = some b)
    (hN : -1022 ≤ N) (hN' : N ≤ 1022) (hle : |a * b| ≤ 2 ^ N) :
    ∃ q, modelValue? (x * y) = some q ∧ |q - a * b| ≤ 2 ^ (N - 53) := by
  rcases model_mul_cases hx hy with ⟨hzero, hvalue⟩ | ⟨s, m, e, -, hc, hv, hvalue⟩
  · exact ⟨0, hvalue, by simpa [hzero] using abs_zero_le_zpow (N - 53)⟩
  · rw [hv, abs_apply_one_mul (by positivity)] at hle
    rw [hvalue, hv]
    exact roundWithAccuracy_near .exact (w := (m : ℚ)) rfl hc hN hN' hle

/-- A product of 53 bits is exact. -/
theorem model_mul_exact {k : Nat} {t : Int} (hx : modelValue? x = some a) (hy : modelValue? y = some b)
    (hk : k < 2 ^ 53) (ht : -1074 ≤ t) (ht' : t ≤ 970) (hv : |a * b| = k * 2 ^ t) :
    modelValue? (x * y) = some (a * b) := by
  rcases model_mul_cases hx hy with ⟨hzero, hvalue⟩ | ⟨s, m, e, hm, hc, hab, hvalue⟩
  · rw [hvalue, hzero]
  · rw [hab, abs_apply_one_mul (by positivity)] at hv
    rw [hvalue, hab]
    exact roundWithAccuracy_exact hc hm hv hk ht ht'

/-- A quotient is zero, or it is rounded from a significand that stands for the quotient of the two. -/
theorem model_div_cases (hx : modelValue? x = some a) (hy : modelValue? y = some b) (hb : b ≠ 0) :
    (a / b = 0 ∧ modelValue? (x / y) = some 0) ∨ ∃ s m e acc w,
      Stands (.ofMantissaAndAccuracy m acc) w ∧ (52 ≤ m.log2 ∨ e ≤ -1074) ∧
      a / b = ((s : Sign).apply 1 : ℤ) * (w * 2 ^ (e : ℤ)) ∧ modelValue? (x / y) = unpackedValue?
        (Float.Model.pack (roundWithAccuracy Format.binary64 s m e acc)).unpack := by
  have hquot : modelValue? (x / y) = unpackedValue?
      (Float.Model.pack (UnpackedFloat.div Format.binary64 x.unpack y.unpack)).unpack := rfl
  rcases unpackedValue?_eq_some hy with ⟨s', hyu, rfl⟩ | ⟨s', m', e', hm', hyu, rfl⟩
  · exact absurd rfl hb
  · rcases unpackedValue?_eq_some hx with ⟨s, hxu, rfl⟩ | ⟨s, m, e, hm, hxu, rfl⟩
    · refine .inl ⟨zero_div _, ?_⟩
      rw [hquot, hxu, hyu]
      exact value_pack_zero (s / s')
    · -- of the rest of the division rounding only asks on which side of one half it is
      refine .inr ⟨s / s', _, _, _, (dividend m e m' e' : ℚ) / m', stands_accuracyOfFraction hm',
        @le_log2_quotient m m' e e' hm hm', ?_, ?_⟩
      · have hm'' : (m' : ℚ) ≠ 0 := by exact_mod_cast Nat.ne_of_gt hm'
        have hsq : ((s'.apply 1 : ℤ) : ℚ) * (s'.apply 1 : ℤ) = 1 := by exact_mod_cast apply_one_sq s'
        have hs' : ((s'.apply 1 : ℤ) : ℚ) ≠ 0 := left_ne_zero_of_mul_eq_one hsq
        rw [div_mul_eq_mul_div, dividend_value, zpow_sub₀ two_ne_zero, apply_mul s, apply_mul s',
          apply_one_div, Int.cast_mul, div_eq_iff (by positivity)]
        field_simp
        linear_combination (-((s.apply 1 : ℤ) : ℚ)) * hsq
      · rw [hquot, hxu, hyu]
        unfold UnpackedFloat.div
        dsimp only
        rw [divCore_eq]

theorem model_div_near (hx : modelValue? x = some a) (hy : modelValue? y = some b) (hb : b ≠ 0)
    (hN : -1022 ≤ N) (hN' : N ≤ 1022) (hle : |a / b| ≤ 2 ^ N) :
    ∃ q, modelValue? (x / y) = some q ∧ |q - a / b| ≤ 2 ^ (N - 53) := by
  rcases model_div_cases hx hy hb with ⟨hzero, hvalue⟩ | ⟨s, m, e, acc, w, hw, hc, hv, hvalue⟩
  · exact ⟨0, hvalue, by simpa [hzero] using abs_zero_le_zpow (N - 53)⟩
  · have hw0 : 0 ≤ w := le_trans (Nat.cast_nonneg _) hw.bounds.1
    rw [hv, abs_apply_one_mul (by positivity)] at hle
    rw [hvalue, hv]
    exact roundWithAccuracy_near acc hw hc hN hN' hle

end arithmetic

section floats

variable {x y : Float} {a b : ℚ} {N : Int}

theorem add_near (hx : value? x = some a) (hy : value? y = some b) (hN : -1022 ≤ N)
    (hN' : N ≤ 1022) (hle : |a + b| ≤ 2 ^ N) :
    ∃ q, value? (x + y) = some q ∧ |q - (a + b)| ≤ 2 ^ (N - 53) := by
  rw [value?_eq] at hx hy ⊢
  exact model_add_near hx hy hN hN' hle

theorem sub_near (hx : value? x = some a) (hy : value? y = some b) (hN : -1022 ≤ N)
    (hN' : N ≤ 1022) (hle : |a - b| ≤ 2 ^ N) :
    ∃ q, value? (x - y) = some q ∧ |q - (a - b)| ≤ 2 ^ (N - 53) := by
  rw [value?_eq] at hx hy ⊢
  exact model_sub_near hx hy hN hN' hle

theorem mul_near (hx : value? x = some a) (hy : value? y = some b) (hN : -1022 ≤ N)
    (hN' : N ≤ 1022) (hle : |a * b| ≤ 2 ^ N) :
    ∃ q, value? (x * y) = some q ∧ |q - a * b| ≤ 2 ^ (N - 53) := by
  rw [value?_eq] at hx hy ⊢
  exact model_mul_near hx hy hN hN' hle

theorem mul_exact {k : Nat} {t : Int} (hx : value? x = some a) (hy : value? y = some b) (hk : k < 2 ^ 53)
    (ht : -1074 ≤ t) (ht' : t ≤ 970) (hv : |a * b| = k * 2 ^ t) : value? (x * y) = some (a * b) := by
  rw [value?_eq] at hx hy ⊢
  exact model_mul_exact hx hy hk ht ht' hv

theorem div_near (hx : value? x = some a) (hy : value? y = some b) (hb : b ≠ 0) (hN : -1022 ≤ N)
    (hN' : N ≤ 1022) (hle : |a / b| ≤ 2 ^ N) :
    ∃ q, value? (x / y) = some q ∧ |q - a / b| ≤ 2 ^ (N - 53) := by
  rw [value?_eq] at hx hy ⊢
  exact model_div_near hx hy hb hN hN' hle

end floats

end SpeedTrial.Numeric
