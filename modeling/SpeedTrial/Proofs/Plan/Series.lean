import SpeedTrial.Plan.Series
import SpeedTrial.Proofs.Numeric.Exponential
import SpeedTrial.Proofs.Numeric.Logarithm
import SpeedTrial.Proofs.Numeric.WholeNumbers

/-!
# Where the points of a series are

The values of a series are powers of two, computed on doubles and rounded to whole numbers.  A search for
the next value starts near the index of the last one, and the bounds here say what it may find.

* `abs_value_sub_le` is the error of a value, and `index_le` bounds the index that is guessed.
* `next_spec` gives every next value an index, and a bound by the last value.
-/

namespace SpeedTrial.Plan

open SpeedTrial.Numeric

section value

variable {p i v : Nat} (hp : 0 < p) (hp' : p ≤ 2 ^ 64) (hi : 0 < i) (hi' : i ≤ 400 * p)

include hp hp' hi hi'

/-- The power of two that a value of the series is rounded from. -/
theorem near_exp2_index : Near (exp2 (ofCount i / ofCount p)) (2 ^ (i / p : ℝ))
    (2 ^ (i / p : ℝ) * (1 / 2 ^ 40)) := by
  have hp0 : (0 : ℝ) < p := by exact_mod_cast hp
  have hi0 : (0 : ℝ) < i := by exact_mod_cast hi
  have hiR : (i : ℝ) ≤ 400 * p := by exact_mod_cast hi'
  have hp2 : (p : ℝ) ≤ 2 ^ 64 := by exact_mod_cast hp'
  have hi1 : (1 : ℝ) ≤ i := by exact_mod_cast hi
  have hle : (i / p : ℝ) ≤ 400 := by rwa [div_le_iff₀ hp0]
  have hge : 1 / 2 ^ 64 ≤ (i / p : ℝ) := by
    rw [le_div_iff₀ hp0]
    linarith
  -- Both counts are good to their last place, so the quotient is too, and the power loses little.
  have hdiv : Near (ofCount i / ofCount p) (i / p : ℝ) (|(i / p : ℝ)| / 2 ^ 50) := by
    refine Near.div_relative ?_ ?_ hp0.ne' ?_ ?_
    · rw [abs_of_pos hi0]
      exact near_ofCount_relative hi (by omega)
    · rw [abs_of_pos hp0]
      exact near_ofCount_relative hp (by omega)
    · rw [abs_of_pos (by positivity)]
      linarith
    · rw [abs_of_pos (by positivity)]
      linarith
  rw [abs_of_pos (by positivity)] at hdiv
  have hexp := hdiv.exp2 (by rw [abs_of_pos (by positivity)]; linarith) (by linarith)
  exact hexp.mono (mul_le_mul_of_nonneg_left (by linarith) (Real.rpow_pos_of_pos two_pos _).le)

/-- The value at an index is the whole number nearest to a power of two, up to rounding. -/
theorem value?_eq_of_index : ∃ v : ℕ, Steps.binary64.value? p i = (if v < wordLimit then some v else none) ∧
    |(v : ℝ) - 2 ^ (i / p : ℝ)| ≤ 1 / 2 + 2 ^ (i / p : ℝ) * (1 / 2 ^ 40) := by
  obtain ⟨q, hq, herr⟩ := near_exp2_index hp hp' hi hi'
  obtain ⟨parts, hparts, rfl⟩ := parts?_of_value hq
  have hpos : (0 : ℝ) < 2 ^ (i / p : ℝ) := Real.rpow_pos_of_pos two_pos _
  refine ⟨parts.roundedMagnitude, ?_, ?_⟩
  · unfold Steps.binary64.value?
    rw [hparts]
  · -- The rounding takes the magnitude; the power is positive, and its double cannot be negative.
    have habs : |parts.value| = parts.value := by
      apply abs_of_nonneg
      have h0 : (0 : ℝ) ≤ (parts.value : ℚ) := by
        have := (abs_le.mp herr).1
        linarith
      exact_mod_cast h0
    have hround := abs_roundedMagnitude_sub_le parts
    rw [habs] at hround
    have hround' := (Rat.cast_le (K := ℝ)).mpr hround
    push_cast at hround'
    have := abs_sub_le (parts.roundedMagnitude : ℝ) (parts.value : ℚ) (2 ^ (i / p : ℝ))
    linarith

theorem abs_value_sub_le (h : Steps.binary64.value? p i = some v) :
    |(v : ℝ) - 2 ^ (i / p : ℝ)| ≤ 1 / 2 + 2 ^ (i / p : ℝ) * (1 / 2 ^ 40) := by
  obtain ⟨w, hw, herr⟩ := value?_eq_of_index hp hp' hi hi'
  rw [h] at hw
  split at hw
  · rw [Option.some.inj hw]
    exact herr
  · cases hw

/-- The values of the first octaves are words. -/
theorem exists_value (hi33 : i ≤ 33 * p) : ∃ w : ℕ, Steps.binary64.value? p i = some w ∧
    (2 : ℝ) ^ (i / p : ℝ) * (1 - 1 / 2 ^ 40) - 1 / 2 ≤ w := by
  have hp0 : (0 : ℝ) < p := by exact_mod_cast hp
  obtain ⟨w, hw, herr⟩ := value?_eq_of_index hp hp' hi hi'
  obtain ⟨hlow, hhigh⟩ := abs_le.mp herr
  have hpower : (2 : ℝ) ^ (i / p : ℝ) ≤ 2 ^ 33 := by
    rw [← Real.rpow_natCast]
    apply Real.rpow_le_rpow_of_exponent_le one_le_two
    rw [div_le_iff₀ hp0]
    exact_mod_cast hi33
  -- 33 octaves stay far below a word, with the rounding and all.
  have hword : w < wordLimit := by
    have h : (w : ℝ) < (2 ^ 64 : ℕ) := by
      push_cast
      linarith
    exact_mod_cast h
  rw [if_pos hword] at hw
  exact ⟨w, hw, by linarith⟩

/-- Beyond the octaves of words every value needs more than 64 bits. -/
theorem value?_eq_none (hi65 : 65 * p ≤ i) : Steps.binary64.value? p i = none := by
  have hp0 : (0 : ℝ) < p := by exact_mod_cast hp
  obtain ⟨v, hv, herr⟩ := value?_eq_of_index hp hp' hi hi'
  have hpower : (2 : ℝ) ^ 65 ≤ 2 ^ (i / p : ℝ) := by
    rw [← Real.rpow_natCast]
    apply Real.rpow_le_rpow_of_exponent_le one_le_two
    rw [le_div_iff₀ hp0]
    exact_mod_cast hi65
  have hlimit : wordLimit ≤ v := by
    have h : ((2 ^ 64 : ℕ) : ℝ) ≤ v := by
      have := (abs_le.mp herr).1
      push_cast
      linarith
    exact_mod_cast h
  rw [hv, if_neg hlimit.not_gt]

end value

/-- The index that a search starts from is hardly above that of the number. -/
theorem index_le {p c : Nat} (hp : 0 < p) (hp' : p ≤ 2 ^ 64) (hc : 0 < c) (hc' : c < 2 ^ 64) :
    (Steps.binary64.index p c : ℝ) ≤ p * (Real.logb 2 c + 1 / 2 ^ 40) + 1 / 2 := by
  have hp0 : (0 : ℝ) < p := by exact_mod_cast hp
  have hp1 : (1 : ℝ) ≤ p := by exact_mod_cast hp
  have hp2 : (p : ℝ) ≤ 2 ^ 64 := by exact_mod_cast hp'
  have hc1 : (1 : ℝ) ≤ c := by exact_mod_cast hc
  have hlog0 : 0 ≤ Real.logb 2 c := Real.logb_nonneg one_lt_two hc1
  have hlog64 : Real.logb 2 c ≤ 64 := by
    rw [Real.logb_le_iff_le_rpow one_lt_two (by linarith)]
    have h : (c : ℝ) ≤ 2 ^ 64 := by exact_mod_cast hc'.le
    exact_mod_cast h
  have hlog := near_log2 hc'
  rw [Nat.max_eq_left hc] at hlog
  -- The product of logarithm and points per octave is rounded in the octave of the points.
  obtain ⟨N, hN, hN', hle, hge⟩ := exists_octave (r := 65 * p) (le_trans (by norm_num)
    (le_trans hp1 (by linarith))) (by norm_num; linarith)
  have hx : Near (log2 c * ofCount p) (Real.logb 2 c * p) (p / 2 ^ 40) :=
    hlog.mul (near_ofCount_relative hp (by omega)) (N := N) (by omega) (by omega) (A := 64) (B := p)
      (by rw [abs_of_nonneg hlog0]; exact hlog64) (abs_of_pos hp0).le (by linarith) (by linarith)
  obtain ⟨q, hq, herr⟩ := hx
  obtain ⟨parts, hparts, rfl⟩ := parts?_of_value hq
  have hbound : (parts.roundedMagnitude : ℝ) ≤ p * (Real.logb 2 c + 1 / 2 ^ 40) + 1 / 2 := by
    have hround := (Rat.cast_le (K := ℝ)).mpr (abs_roundedMagnitude_sub_le parts)
    push_cast at hround
    have h1 := (abs_le.mp hround).2
    have h2 := abs_sub_abs_le_abs_sub ((parts.value : ℚ) : ℝ) (Real.logb 2 c * p)
    rw [abs_of_nonneg (mul_nonneg hlog0 hp0.le)] at h2
    linarith
  have hindex : Steps.binary64.index p c ≤ parts.roundedMagnitude := by
    show roundToWord (log2 c * ofCount p) ≤ _
    unfold roundToWord toWord
    rw [hparts]
    dsimp only
    split
    · exact Nat.zero_le _
    · exact Nat.min_le_left _ _
  exact le_trans (by exact_mod_cast hindex) hbound

/-- The power at that index is hardly more than half a step above the number. -/
theorem power_index_le {p c : Nat} (hp : 0 < p) (hp' : p ≤ 2 ^ 64) (hc : 0 < c) (hc' : c < 2 ^ 64) :
    (2 : ℝ) ^ (Steps.binary64.index p c / p : ℝ) ≤ c * 2 ^ (1 / 2 / p : ℝ) * (1 + 1 / 2 ^ 40) := by
  have hp0 : (0 : ℝ) < p := by exact_mod_cast hp
  have hc0 : (0 : ℝ) < c := by exact_mod_cast hc
  have hindex := index_le hp hp' hc hc'
  obtain ⟨ε, hε⟩ : ∃ ε : ℝ, ε = 1 / 2 ^ 40 := ⟨_, rfl⟩
  rw [← hε] at hindex ⊢
  have hlittle : (2 : ℝ) ^ ε ≤ 1 + ε :=
    two_rpow_le_add_one (by rw [hε]; positivity) (by rw [hε]; norm_num)
  have hquot : (Steps.binary64.index p c / p : ℝ) ≤ Real.logb 2 c + 1 / 2 / p + ε := by
    rw [div_le_iff₀ hp0]
    have : (1 / 2 / p : ℝ) * p = 1 / 2 := by field_simp
    linarith
  calc (2 : ℝ) ^ (Steps.binary64.index p c / p : ℝ) ≤ 2 ^ (Real.logb 2 c + 1 / 2 / p + ε : ℝ) :=
        Real.rpow_le_rpow_of_exponent_le one_le_two hquot
    _ = c * 2 ^ (1 / 2 / p : ℝ) * 2 ^ ε := by
        rw [Real.rpow_add two_pos, Real.rpow_add two_pos, Real.rpow_logb two_pos (by norm_num) hc0]
    _ ≤ c * 2 ^ (1 / 2 / p : ℝ) * (1 + ε) := mul_le_mul_of_nonneg_left hlittle (by positivity)

/-! ## Searching -/

/-- A round of the search comes at which it ends. -/
def Tries.Ends (t : Tries) (c : Nat) : Prop := ∃ k, ∀ v, t.value? k = some v → c < v

section search

variable {t : Tries} {c round : Nat} {result : Option Nat}

/-- A search passes over the values that are not above the number. -/
theorem search_add {k : Nat} (h : ∀ i, round ≤ i → i < round + k → ∃ v ≤ c, t.value? i = some v) :
    t.search c round = t.search c (round + k) := by
  induction k with
  | zero => rfl
  | succ k ih =>
    obtain ⟨v, hle, hv⟩ := h (round + k) (by omega) (by omega)
    rw [ih fun i hi hi' => h i hi (by omega), Tries.search, hv]
    simp only [if_neg hle.not_gt, Nat.add_assoc]

/-- Where a search ends: at the first value that is above the number, or needs more than 64 bits. -/
theorem search_eq_some_iff : t.search c round = some result ↔
    ∃ k, round ≤ k ∧ (∀ i, round ≤ i → i < k → ∃ v ≤ c, t.value? i = some v) ∧
      t.value? k = result ∧ ∀ v, result = some v → c < v := by
  constructor
  · -- The search may run forever, so this is shown along every run of it that gives a result.
    intro h
    refine Tries.search.partial_correctness t c (motive := fun round result => ∃ k, round ≤ k ∧
        (∀ i, round ≤ i → i < k → ∃ v ≤ c, t.value? i = some v) ∧
          t.value? k = result ∧ ∀ v, result = some v → c < v)
      (fun search ih round result h => ?_) round result h
    split at h
    · next hnone =>
      cases h
      exact ⟨round, Nat.le_refl _, fun i hi hi' => absurd hi' hi.not_gt, hnone, by simp⟩
    · next v hv =>
      split at h
      · next hlt =>
        cases h
        refine ⟨round, Nat.le_refl _, fun i hi hi' => absurd hi' hi.not_gt, hv, fun w hw => ?_⟩
        cases hw
        exact hlt
      · next hle =>
        obtain ⟨k, hk, hbefore, hresult⟩ := ih _ _ h
        refine ⟨k, by omega, fun i hi hi' => ?_, hresult⟩
        rcases Nat.eq_or_lt_of_le hi with rfl | hlt
        · exact ⟨v, by omega, hv⟩
        · exact hbefore i hlt hi'
  · -- the rounds before `k` are passed over, and at `k` the search ends
    rintro ⟨k, hk, hbefore, rfl, habove⟩
    obtain ⟨n, rfl⟩ := Nat.exists_eq_add_of_le hk
    rw [search_add hbefore, Tries.search]
    split
    · next hnone => rw [hnone]
    · next v hv => rw [if_pos (habove v hv), hv]

/-- A search gives a result if a round comes at which it ends. -/
theorem Tries.Ends.exists_search (h : t.Ends c) : ∃ result, t.search c 0 = some result := by
  classical
  refine ⟨t.value? (Nat.find h), search_eq_some_iff.mpr
    ⟨_, Nat.zero_le _, fun i _ hi => ?_, rfl, Nat.find_spec h⟩⟩
  have hpassed := Nat.find_min h hi
  push Not at hpassed
  obtain ⟨v, hv, hle⟩ := hpassed
  exact ⟨v, hle, hv⟩

end search

/-! ## The next value -/

/-- One and a half steps are less than a factor of three. -/
theorem steps_le_three {p : Nat} (hp : 0 < p) : (2 : ℝ) ^ (3 / 2 / p : ℝ) ≤ 3 := by
  have hp1 : (1 : ℝ) ≤ p := by exact_mod_cast hp
  have hone : ((2 : ℝ) ^ (3 / 2 : ℝ)) ^ 2 ≤ 3 ^ 2 := by
    rw [← Real.rpow_natCast, ← Real.rpow_mul two_pos.le,
      show (3 / 2 : ℝ) * (2 : ℕ) = (3 : ℕ) by norm_num, Real.rpow_natCast]
    norm_num
  exact le_trans (Real.rpow_le_rpow_of_exponent_le one_le_two (div_le_self (by norm_num) hp1))
    ((pow_le_pow_iff_left₀ (by positivity) (by norm_num) (by norm_num)).mp hone)

section range

variable {p c : Nat} (hp : 0 < p) (hp' : p ≤ 2 ^ 64) (hc : 0 < c) (hc' : c < 2 ^ 64)

include hp hp' hc hc'

/-- The guess is at most an octave above the powers that bound the number. -/
theorem index_le_of_le {n : Nat} (hcn : c ≤ 2 ^ n) :
    Steps.binary64.index p c ≤ (n + 1) * p := by
  have hp1 : (1 : ℝ) ≤ p := by exact_mod_cast hp
  have hc0 : (0 : ℝ) < c := by exact_mod_cast hc
  have hindex := index_le hp hp' hc hc'
  have hlog : Real.logb 2 c ≤ n := by
    rw [Real.logb_le_iff_le_rpow one_lt_two hc0, Real.rpow_natCast]
    exact_mod_cast hcn
  have hproduct : p * Real.logb 2 c ≤ p * n := mul_le_mul_of_nonneg_left hlog (by linarith)
  have h : (Steps.binary64.index p c : ℝ) < ((n + 1) * p + 1 : ℕ) := by
    push_cast
    linarith
  exact Nat.lt_succ_iff.mp (by exact_mod_cast h)

theorem index_le_range : Steps.binary64.index p c ≤ 65 * p :=
  index_le_of_le hp hp' hc hc' (n := 64) hc'.le

/-- Every search on doubles ends. -/
theorem ends_binary64 : (Steps.binary64.tries p c).Ends c := by
  have hindex := index_le_range hp hp' hc hc'
  refine ⟨65 * p - Steps.binary64.index p c, fun v hv => ?_⟩
  have hnone := value?_eq_none (i := Steps.binary64.index p c + 1 + (65 * p - Steps.binary64.index p c))
    hp hp' (by omega) (by omega) (by omega)
  cases hnone.symm.trans hv

/-- The next value is the first one that is above the number, among those above the index that is
guessed. -/
theorem next_first : ∃ j, Steps.binary64.index p c < j ∧ j ≤ 66 * p ∧
    (∀ i, Steps.binary64.index p c < i → i < j → ∃ v ≤ c, Steps.binary64.value? p i = some v) ∧
      Steps.binary64.value? p j = Steps.binary64.next? p c := by
  have hindex := index_le_range hp hp' hc hc'
  obtain ⟨result, hresult⟩ := (ends_binary64 hp hp' hc hc').exists_search
  have hnext : Steps.binary64.next? p c = result := by
    unfold Steps.next?
    dsimp only
    rw [Nat.max_eq_left hp, Nat.max_eq_left hc, hresult]
    rfl
  obtain ⟨k, -, hbefore, hk, -⟩ := search_eq_some_iff.mp hresult
  have hpassed : ∀ i, Steps.binary64.index p c < i → i < Steps.binary64.index p c + 1 + k →
      ∃ v ≤ c, Steps.binary64.value? p i = some v := fun i hi hi' => by
    obtain ⟨n, rfl⟩ := Nat.exists_eq_add_of_le (Nat.succ_le_of_lt hi)
    exact hbefore n (Nat.zero_le _) (by omega)
  refine ⟨Steps.binary64.index p c + 1 + k, by omega, ?_, hpassed, hk.trans hnext.symm⟩
  -- no search goes on beyond the first index without a value
  by_contra hbeyond
  obtain ⟨v, -, hv⟩ := hpassed (65 * p + 1) (by omega) (by omega)
  rw [value?_eq_none hp hp' (by omega) (by omega) (by omega)] at hv
  cases hv

/-- The power at the index of that value is hardly more than one and a half steps above the number. -/
theorem power_first_le {j : Nat} (hj : Steps.binary64.index p c < j) (hj' : j ≤ 66 * p)
    (hbefore : ∀ i, Steps.binary64.index p c < i → i < j → ∃ v ≤ c, Steps.binary64.value? p i = some v) :
    (2 : ℝ) ^ (j / p : ℝ) ≤ (c + 1 / 2) * 2 ^ (3 / 2 / p : ℝ) * (1 + 1 / 2 ^ 39) := by
  have hp0 : (0 : ℝ) < p := by exact_mod_cast hp
  have hS : (0 : ℝ) < 2 ^ (3 / 2 / p : ℝ) := Real.rpow_pos_of_pos two_pos _
  rcases Nat.eq_or_lt_of_le (Nat.succ_le_of_lt hj) with rfl | hlt
  · -- the first index that is tried is the rounded one and one more
    have hguess := power_index_le hp hp' hc hc'
    have hnext : ((Steps.binary64.index p c + 1 : ℕ) / p : ℝ) = Steps.binary64.index p c / p + 1 / p := by
      push_cast
      ring
    have hsteps : (3 / 2 / p : ℝ) = 1 / 2 / p + 1 / p := by ring
    have hone : (0 : ℝ) ≤ 2 ^ (1 / p : ℝ) := (Real.rpow_pos_of_pos two_pos _).le
    calc (2 : ℝ) ^ ((Steps.binary64.index p c + 1 : ℕ) / p : ℝ)
        = 2 ^ (Steps.binary64.index p c / p : ℝ) * 2 ^ (1 / p : ℝ) := by
          rw [hnext, Real.rpow_add two_pos]
      _ ≤ c * 2 ^ (1 / 2 / p : ℝ) * (1 + 1 / 2 ^ 40) * 2 ^ (1 / p : ℝ) :=
          mul_le_mul_of_nonneg_right hguess hone
      _ = c * 2 ^ (3 / 2 / p : ℝ) * (1 + 1 / 2 ^ 40) := by
          rw [hsteps, Real.rpow_add two_pos]
          ring
      _ ≤ (c + 1 / 2) * 2 ^ (3 / 2 / p : ℝ) * (1 + 1 / 2 ^ 39) :=
          mul_le_mul (mul_le_mul_of_nonneg_right (by linarith) hS.le) (by norm_num) (by norm_num)
            (by positivity)
  · -- the index before has a value that is not above the last one
    obtain ⟨w, hle, hw⟩ := hbefore (j - 1) (by omega) (by omega)
    have hvalue' := (abs_le.mp (abs_value_sub_le hp hp' (by omega) (by omega) hw)).1
    have hw' : (w : ℝ) ≤ c := by exact_mod_cast hle
    have hquot : (j / p : ℝ) ≤ (j - 1 : ℕ) / p + 3 / 2 / p := by
      rw [Nat.cast_sub (by omega), ← add_div, Nat.cast_one]
      exact div_le_div_of_nonneg_right (by linarith) hp0.le
    calc (2 : ℝ) ^ (j / p : ℝ) ≤ 2 ^ ((j - 1 : ℕ) / p + 3 / 2 / p : ℝ) :=
          Real.rpow_le_rpow_of_exponent_le one_le_two hquot
      _ = 2 ^ ((j - 1 : ℕ) / p : ℝ) * 2 ^ (3 / 2 / p : ℝ) := Real.rpow_add two_pos _ _
      _ ≤ (c + 1 / 2) * (1 + 1 / 2 ^ 39) * 2 ^ (3 / 2 / p : ℝ) :=
          mul_le_mul_of_nonneg_right (by linarith) hS.le
      _ = (c + 1 / 2) * 2 ^ (3 / 2 / p : ℝ) * (1 + 1 / 2 ^ 39) := by ring

end range

section next

variable {p c v : Nat} (hp : 0 < p) (hp' : p ≤ 2 ^ 64) (hc : 0 < c) (hc' : c < 2 ^ 31)

include hp hp' hc hc'

/-- The next value has an index of its own, and is at most one and a half steps above the last one. -/
theorem next_spec (h : Steps.binary64.next? p c = some v) :
    ∃ j, 0 < j ∧ j ≤ 400 * p ∧ Steps.binary64.value? p j = some v ∧
      (v : ℝ) ≤ (c + 1 / 2) * 2 ^ (3 / 2 / p : ℝ) * (1 + 1 / 2 ^ 38) + 1 / 2 := by
  obtain ⟨j, hj, hj', hbefore, hv⟩ := next_first hp hp' hc (by omega)
  rw [h] at hv
  refine ⟨j, by omega, by omega, hv, ?_⟩
  have hvalue := (abs_le.mp (abs_value_sub_le hp hp' (by omega) (by omega) hv)).2
  have hpower := power_first_le hp hp' hc (by omega) hj hj' hbefore
  have hbase : 0 < (c + 1 / 2) * (2 : ℝ) ^ (3 / 2 / p : ℝ) := by positivity
  have := mul_le_mul_of_nonneg_right hpower (by norm_num : (0 : ℝ) ≤ 1 + 1 / 2 ^ 40)
  generalize (c + 1 / 2) * (2 : ℝ) ^ (3 / 2 / p : ℝ) = X at *
  nlinarith

/-- There is a next value after every number of 31 bits. -/
theorem exists_next : ∃ v, Steps.binary64.next? p c = some v := by
  have hindex := index_le_of_le hp hp' hc (by omega) (n := 31) hc'.le
  have hp0 : (p : ℝ) ≠ 0 := by exact_mod_cast hp.ne'
  obtain ⟨w, hw, hle⟩ := exists_value (i := 33 * p) hp hp' (by omega) (by omega) (Nat.le_refl _)
  -- the value at 33 octaves is above every number of 31 bits
  have hcw : c < w := by
    have hquot : ((33 * p : ℕ) / p : ℝ) = (33 : ℕ) := by
      push_cast
      field_simp
    rw [hquot, Real.rpow_natCast] at hle
    have hc2 : (c : ℝ) < 2 ^ 31 := by exact_mod_cast hc'
    have h : (c : ℝ) < w := by linarith
    exact_mod_cast h
  obtain ⟨j, hj, -, hbefore, hv⟩ := next_first hp hp' hc (by omega)
  -- a search that went beyond would have passed over a value above the number
  have hj33 : j ≤ 33 * p := by
    by_contra hbeyond
    obtain ⟨v, hle, hv⟩ := hbefore (33 * p) (by omega) (by omega)
    rw [hw] at hv
    cases hv
    omega
  obtain ⟨v, hv', -⟩ := exists_value (i := j) hp hp' (by omega) (by omega) hj33
  exact ⟨v, hv.symm.trans hv'⟩

end next

end SpeedTrial.Plan
