import SpeedTrial.Proofs.Numeric.Arithmetic

/-!
# Doubles near a real number

A formula in doubles is followed by what each of its parts is near to: every operation adds the errors
of its operands, as the operation magnifies them, and a rounding of its own.

* `Near x r ε` says that the double `x` is finite and within `ε` of the real number `r`.
* `Near.add`, `Near.sub`, `Near.mul` and `Near.div` follow the four operations; `N` bounds the binary
  exponent of the result.
* `Near.sub_exact` and `Near.div_relative` measure the error in the result itself.
* `Within` adds a bound on `r`.
-/

namespace SpeedTrial.Numeric

/-- The double is finite and within `ε` of `r`. -/
def Near (x : Float) (r ε : ℝ) : Prop := ∃ q : ℚ, value? x = some q ∧ |(q : ℝ) - r| ≤ ε

section near

variable {x y : Float} {r t ε δ E A B : ℝ} {a b : ℚ} {N : Int}

theorem Near.of_value (h : value? x = some a) : Near x a 0 :=
  ⟨a, h, by rw [sub_self, abs_zero]⟩

theorem near_ofBits {b : UInt64} {p : Parts} (h : parts? (Float.ofBits b) = some p)
    (hr : |((p.value : ℚ) : ℝ) - r| ≤ ε) : Near (Float.ofBits b) r ε :=
  ⟨p.value, value?_of_parts h, hr⟩

theorem Near.mono (h : Near x r ε) (hle : ε ≤ δ) : Near x r δ := by
  obtain ⟨q, hq, herr⟩ := h
  exact ⟨q, hq, le_trans herr hle⟩

theorem abs_cast_value (p : Parts) : |((p.value : ℚ) : ℝ)| = p.significand * 2 ^ p.exponent := by
  rw [← Rat.cast_abs, abs_value]
  push_cast
  rfl

/-- A double with a small exponent is small. -/
theorem near_zero {p : Parts} {e : Int} (h : parts? x = some p) (he : p.exponent ≤ e) :
    Near x 0 (2 ^ (e + 53)) := by
  refine ⟨p.value, value?_of_parts h, ?_⟩
  have hsig : (p.significand : ℝ) ≤ 2 ^ 53 := by exact_mod_cast (significand_lt h).le
  have hpow : (2 : ℝ) ^ p.exponent ≤ 2 ^ e := zpow_le_zpow_right₀ one_le_two he
  rw [sub_zero, abs_cast_value]
  calc (p.significand : ℝ) * 2 ^ p.exponent ≤ 2 ^ 53 * 2 ^ e :=
        mul_le_mul hsig hpow (by positivity) (by positivity)
    _ = 2 ^ (e + 53) := by
        rw [zpow_add₀ two_ne_zero, mul_comm]
        rfl

/-- What is near to `r` is near to what `r` is near to. -/
theorem Near.trans {d : ℝ} (h : Near x r ε) (hr : |r - t| ≤ d) : Near x t (ε + d) := by
  obtain ⟨q, hq, herr⟩ := h
  exact ⟨q, hq, le_trans (abs_sub_le _ r _) (add_le_add herr hr)⟩

theorem Near.nonneg (h : Near x r ε) : 0 ≤ ε := by
  obtain ⟨q, -, herr⟩ := h
  exact le_trans (abs_nonneg _) herr

/-- A result that is rounded from `b`, where `b` is near to `r`. -/
theorem Near.of_rounded
    (hround : |b| ≤ 2 ^ N → ∃ q, value? x = some q ∧ |q - b| ≤ 2 ^ (N - 53))
    (hb : |(b : ℝ) - r| ≤ ε) (hle : |r| + ε ≤ 2 ^ N) : Near x r (ε + 2 ^ N / 2 ^ 53) := by
  -- The exact operands are off by `ε` at most, so their result still fits the octave.
  have hbN : |b| ≤ 2 ^ N := by
    have h : |(b : ℝ)| ≤ 2 ^ N := by
      have := abs_sub_abs_le_abs_sub (b : ℝ) r
      linarith
    apply (Rat.cast_le (K := ℝ)).mp
    push_cast
    exact h
  obtain ⟨q, hq, herr⟩ := hround hbN
  replace herr := (Rat.cast_le (K := ℝ)).mpr herr
  push_cast at herr
  rw [zpow_sub₀ two_ne_zero, zpow_ofNat] at herr
  refine ⟨q, hq, ?_⟩
  have := abs_sub_le (q : ℝ) b r
  linarith

theorem Near.add (hx : Near x r ε) (hy : Near y t δ) (hN : -1022 ≤ N) (hN' : N ≤ 1022)
    (hle : |r + t| + (ε + δ) ≤ 2 ^ N) (hE : ε + δ + 2 ^ N / 2 ^ 53 ≤ E) : Near (x + y) (r + t) E := by
  obtain ⟨a, ha, hra⟩ := hx
  obtain ⟨b, hb, htb⟩ := hy
  have hsum : |((a + b : ℚ) : ℝ) - (r + t)| ≤ ε + δ := by
    rw [Rat.cast_add, add_sub_add_comm]
    exact le_trans (abs_add_le _ _) (add_le_add hra htb)
  exact (Near.of_rounded (add_near ha hb hN hN') hsum hle).mono hE

theorem Near.sub (hx : Near x r ε) (hy : Near y t δ) (hN : -1022 ≤ N) (hN' : N ≤ 1022)
    (hle : |r - t| + (ε + δ) ≤ 2 ^ N) (hE : ε + δ + 2 ^ N / 2 ^ 53 ≤ E) : Near (x - y) (r - t) E := by
  obtain ⟨a, ha, hra⟩ := hx
  obtain ⟨b, hb, htb⟩ := hy
  have hdiff : |((a - b : ℚ) : ℝ) - (r - t)| ≤ ε + δ := by
    rw [Rat.cast_sub, sub_sub_sub_comm]
    exact le_trans (abs_sub _ _) (add_le_add hra htb)
  exact (Near.of_rounded (sub_near ha hb hN hN') hdiff hle).mono hE

theorem Near.mul (hx : Near x r ε) (hy : Near y t δ) (hN : -1022 ≤ N) (hN' : N ≤ 1022)
    (hA : |r| ≤ A) (hB : |t| ≤ B) (hle : (A + ε) * (B + δ) ≤ 2 ^ N)
    (hE : A * δ + B * ε + ε * δ + 2 ^ N / 2 ^ 53 ≤ E) : Near (x * y) (r * t) E := by
  have hε := hx.nonneg
  have hδ := hy.nonneg
  obtain ⟨a, ha, hra⟩ := hx
  obtain ⟨b, hb, htb⟩ := hy
  have hA0 := le_trans (abs_nonneg r) hA
  have hB0 := le_trans (abs_nonneg t) hB
  -- The two errors act on the other factor each, and once on one another.
  have hprod : |((a * b : ℚ) : ℝ) - r * t| ≤ A * δ + B * ε + ε * δ := by
    have hsplit : ((a * b : ℚ) : ℝ) - r * t =
        r * (b - t) + t * (a - r) + (a - r) * (b - t) := by
      push_cast
      ring
    rw [hsplit]
    refine le_trans (abs_add_three _ _ _) ?_
    rw [abs_mul, abs_mul, abs_mul]
    gcongr
  have hrt : |r * t| + (A * δ + B * ε + ε * δ) ≤ 2 ^ N := by
    have : |r * t| ≤ A * B := by
      rw [abs_mul]
      gcongr
    nlinarith
  exact (Near.of_rounded (mul_near ha hb hN hN') hprod hrt).mono hE

theorem Near.div (hx : Near x r ε) (hy : Near y t δ) (hN : -1022 ≤ N) (hN' : N ≤ 1022)
    (hB : B ≤ |t|) (hδ : δ < B) (hA : |r / t| ≤ A)
    (hle : A + (ε + A * δ) / (B - δ) ≤ 2 ^ N)
    (hE : (ε + A * δ) / (B - δ) + 2 ^ N / 2 ^ 53 ≤ E) : Near (x / y) (r / t) E := by
  have hδ0 := hy.nonneg
  obtain ⟨a, ha, hra⟩ := hx
  obtain ⟨b, hb, htb⟩ := hy
  have ht : t ≠ 0 := abs_pos.mp (lt_of_lt_of_le (lt_of_le_of_lt hδ0 hδ) hB)
  -- The divisor stays away from zero by what is left of it after its own error.
  have hbB : B - δ ≤ |(b : ℝ)| := by
    have := abs_sub_abs_le_abs_sub t b
    rw [abs_sub_comm] at this
    linarith
  have hb0 : (b : ℝ) ≠ 0 := abs_pos.mp (lt_of_lt_of_le (sub_pos.mpr hδ) hbB)
  have hquot : |((a / b : ℚ) : ℝ) - r / t| ≤ (ε + A * δ) / (B - δ) := by
    have hsplit : ((a / b : ℚ) : ℝ) - r / t = ((a - r) - r / t * (b - t)) / b := by
      push_cast
      field_simp
      ring
    rw [hsplit, abs_div]
    have hnum : |(a - r) - r / t * (b - t)| ≤ ε + A * δ := by
      refine le_trans (abs_sub _ _) (add_le_add hra ?_)
      rw [abs_mul]
      exact mul_le_mul hA htb (abs_nonneg _) (le_trans (abs_nonneg _) hA)
    exact div_le_div₀ (le_trans (abs_nonneg _) hnum) hnum (sub_pos.mpr hδ) hbB
  have hround := div_near (N := N) ha hb (by exact_mod_cast hb0) hN hN'
  exact (Near.of_rounded hround hquot (by linarith)).mono hE

end near

/-! ## Errors of the last place

Where a result may be small, its rounding is as small as it is.
-/

section relative

variable {x y : Float} {r t : ℝ}

/-- The power of two next above a number. -/
theorem exists_octave (h : 1 / 2 ^ 200 ≤ r) (h' : r ≤ 2 ^ 200) :
    ∃ N : ℤ, -200 ≤ N ∧ N ≤ 200 ∧ r ≤ 2 ^ N ∧ 2 ^ N ≤ 2 * r := by
  have hr : 0 < r := lt_of_lt_of_le (by positivity) h
  obtain ⟨n, hlow, hhigh⟩ := exists_mem_Ioc_zpow hr one_lt_two
  have hn : (2 : ℝ) ^ (n + 1) ≤ 2 * r := by
    rw [zpow_add_one₀ two_ne_zero]
    linarith
  refine ⟨n + 1, ?_, ?_, hhigh, hn⟩
  · rw [one_div, ← zpow_natCast, ← zpow_neg] at h
    exact (zpow_le_zpow_iff_right₀ one_lt_two).mp (le_trans h hhigh)
  · rw [← zpow_natCast] at h'
    exact (zpow_lt_zpow_iff_right₀ one_lt_two).mp (lt_of_lt_of_le hlow h')

/-- The difference of two exact operands is rounded in its last place. -/
theorem Near.sub_exact (hx : Near x r 0) (hy : Near y t 0) (h : 1 / 2 ^ 200 ≤ |r - t|)
    (h' : |r - t| ≤ 2 ^ 200) : Near (x - y) (r - t) (|r - t| / 2 ^ 52) := by
  obtain ⟨N, hN, hN', hle, hge⟩ := exists_octave h h'
  exact hx.sub hy (N := N) (by omega) (by omega) (by linarith) (by linarith)

/-- A quotient of two operands that are good to their last place. -/
theorem Near.div_relative (hx : Near x r (|r| / 2 ^ 52)) (hy : Near y t (|t| / 2 ^ 52)) (ht : t ≠ 0)
    (h : 1 / 2 ^ 100 ≤ |r / t|) (h' : |r / t| ≤ 2 ^ 100) :
    Near (x / y) (r / t) (|r / t| / 2 ^ 50) := by
  have ht0 : 0 < |t| := abs_pos.mpr ht
  set A := |r / t| with hA
  have hA0 : 0 < A := lt_of_lt_of_le (by positivity) h
  have hr : |r| = A * |t| := by rw [hA, abs_div, div_mul_cancel₀ _ ht0.ne']
  have hquot : (|r| / 2 ^ 52 + A * (|t| / 2 ^ 52)) / (|t| - |t| / 2 ^ 52) ≤ A / 2 ^ 50 * (3 / 5) := by
    rw [hr, div_le_iff₀ (by linarith)]
    nlinarith [mul_pos hA0 ht0]
  -- A quarter more than the quotient leaves room for both errors in the octave.
  obtain ⟨N, hN, hN', hle, hge⟩ := exists_octave (r := A * (5 / 4)) (by linarith)
    (le_trans (mul_le_mul_of_nonneg_right h' (by norm_num)) (by norm_num))
  refine hx.div hy (N := N) (by omega) (by omega) le_rfl (by linarith) hA.ge ?_ ?_
  · linarith
  · linarith

end relative

/-! ## Bounds on both sides

A long formula is followed with a bound on each part beside its error.  Both are numerals, and what has to
hold between them is left to `norm_num`.
-/

/-- The double is within `ε` of `r`, and `r` is at most `A` in magnitude. -/
structure Within (x : Float) (r A ε : ℝ) : Prop where
  near : Near x r ε
  bound : |r| ≤ A

section within

variable {x y : Float} {r t ε δ E A B C : ℝ} {N : Int}

theorem Within.add (hx : Within x r A ε) (hy : Within y t B δ)
    (hroom : (-1022 ≤ N ∧ N ≤ 1022) ∧ A + B + (ε + δ) ≤ 2 ^ N ∧ A + B ≤ C ∧
      ε + δ + 2 ^ N / 2 ^ 53 ≤ E) : Within (x + y) (r + t) C E := by
  obtain ⟨⟨hN, hN'⟩, hle, hC, hE⟩ := hroom
  have hsum : |r + t| ≤ A + B := le_trans (abs_add_le _ _) (add_le_add hx.bound hy.bound)
  exact ⟨hx.near.add hy.near hN hN' (by linarith) hE, le_trans hsum hC⟩

theorem Within.sub (hx : Within x r A ε) (hy : Within y t B δ)
    (hroom : (-1022 ≤ N ∧ N ≤ 1022) ∧ A + B + (ε + δ) ≤ 2 ^ N ∧ A + B ≤ C ∧
      ε + δ + 2 ^ N / 2 ^ 53 ≤ E) : Within (x - y) (r - t) C E := by
  obtain ⟨⟨hN, hN'⟩, hle, hC, hE⟩ := hroom
  have hdiff : |r - t| ≤ A + B := le_trans (abs_sub _ _) (add_le_add hx.bound hy.bound)
  exact ⟨hx.near.sub hy.near hN hN' (by linarith) hE, le_trans hdiff hC⟩

theorem Within.mul (hx : Within x r A ε) (hy : Within y t B δ)
    (hroom : (-1022 ≤ N ∧ N ≤ 1022) ∧ (A + ε) * (B + δ) ≤ 2 ^ N ∧ A * B ≤ C ∧
      A * δ + B * ε + ε * δ + 2 ^ N / 2 ^ 53 ≤ E) : Within (x * y) (r * t) C E := by
  obtain ⟨⟨hN, hN'⟩, hle, hC, hE⟩ := hroom
  refine ⟨hx.near.mul hy.near hN hN' hx.bound hy.bound hle hE, le_trans ?_ hC⟩
  rw [abs_mul]
  exact mul_le_mul hx.bound hy.bound (abs_nonneg _) (le_trans (abs_nonneg _) hx.bound)

end within

end SpeedTrial.Numeric
