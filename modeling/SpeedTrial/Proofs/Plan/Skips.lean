import SpeedTrial.Proofs.Plan.Series

/-!
# What a step of a series may skip

The values of a series are the whole numbers nearest to the powers `2 ^ (i / p)`.  A step from a number starts
its search above the index that is nearest to the logarithm of the number, and so overtakes a power between
the number and half a step above it.  It skips nothing else, as far as the powers that are computed with
doubles are rounded like the true ones.

* `SeriesValue` and `IsNext` are a series and its next value in whole numbers, and `roundsTo_iff` says what
  they have to do with the powers.
* `Doubtful` powers are too near to the middle of two whole numbers, and `Overtaken` powers are those below the
  index from which a step searches.
* `not_doubtful_of_lt`, `not_overtaken_of_le` and `not_overtaken_of_seriesValue`: most powers are neither.
* `next_skips_only_overtaken` is what a step does.
-/

namespace SpeedTrial.Plan

open SpeedTrial.Numeric

/-! ## The series -/

/-- The whole number is nearest to `2 ^ (i / p)`. -/
def RoundsTo (p i m : ℕ) : Prop := (2 * m - 1) ^ p ≤ 2 ^ (i + p) ∧ 2 ^ (i + p) < (2 * m + 1) ^ p

/-- The number is a value of the series with `p` points per octave. -/
def SeriesValue (p m : ℕ) : Prop := 0 < m ∧ ∃ i, RoundsTo p i m

/-- The result is the next value of the series after the number, or nothing if that needs more than
64 bits. -/
def IsNext (p c : ℕ) : Option ℕ → Prop
  | some n => c < n ∧ SeriesValue p n ∧ ∀ m, SeriesValue p m → c < m → n ≤ m
  | none => ∀ m, SeriesValue p m → c < m → 2 ^ 64 ≤ m

/-- The power of two at an index. -/
noncomputable def power (p i : ℕ) : ℝ := (2 : ℕ) ^ (i / p : ℝ)

/-- The factor between a power and the middle of the step above it. -/
noncomputable def halfStep (p : ℕ) : ℝ := (2 : ℕ) ^ (1 / (2 : ℕ) / p : ℝ)

/-- The power is so near to the middle of two whole numbers that doubles may round it to either. -/
def Doubtful (p i : ℕ) : Prop := ∃ k : ℕ, |power p i - (k + 1 / (2 : ℕ))| ≤ power p i / (2 ^ 40 : ℕ)

/-- The power is rounded to a number above the given one, from which it is only half a step away. -/
def Overtaken (p c i : ℕ) : Prop :=
  c + 1 / (2 : ℕ) ≤ power p i ∧ power p i ≤ c * halfStep p * (1 + 1 / (2 ^ 40 : ℕ))

section power

variable {p c i j m v : ℕ} (hp : 0 < p)

theorem power_eq (p i : ℕ) : power p i = 2 ^ (i / p : ℝ) := by rw [power, Nat.cast_ofNat]

theorem halfStep_eq (p : ℕ) : halfStep p = 2 ^ (1 / 2 / p : ℝ) := by rw [halfStep, Nat.cast_ofNat]

theorem doubtful_iff :
    Doubtful p i ↔ ∃ k : ℕ, |power p i - (k + 1 / 2)| ≤ power p i * (1 / 2 ^ 40) := by
  simp only [Doubtful, Nat.cast_ofNat, Nat.cast_pow, mul_one_div]

theorem overtaken_iff : Overtaken p c i ↔
    c + 1 / 2 ≤ power p i ∧ power p i ≤ c * halfStep p * (1 + 1 / 2 ^ 40) := by
  simp only [Overtaken, Nat.cast_ofNat, Nat.cast_pow]

theorem power_pos : 0 < power p i := by
  rw [power_eq]
  exact Real.rpow_pos_of_pos two_pos _

theorem one_le_power : 1 ≤ power p i := by
  rw [power_eq]
  exact Real.one_le_rpow one_le_two (by positivity)

theorem power_mono (h : i ≤ j) : power p i ≤ power p j := by
  rw [power_eq, power_eq]
  refine Real.rpow_le_rpow_of_exponent_le one_le_two (div_le_div_of_nonneg_right ?_ (Nat.cast_nonneg p))
  exact_mod_cast h

include hp

/-- A step is a step and a half step twice. -/
theorem power_mul_le (h : i < j) : power p i * (halfStep p * halfStep p) ≤ power p j := by
  have hp0 : (0 : ℝ) < p := by exact_mod_cast hp
  have hnext : ((i + 1 : ℕ) : ℝ) / p = i / p + (1 / 2 / p + 1 / 2 / p) := by
    push_cast
    ring
  calc power p i * (halfStep p * halfStep p) = power p (i + 1) := by
        rw [power_eq, power_eq, halfStep_eq, hnext, Real.rpow_add two_pos, Real.rpow_add two_pos]
    _ ≤ power p j := power_mono h

omit hp in
theorem lt_of_power_lt (h : power p i < power p j) : i < j :=
  not_le.mp fun hle => absurd (power_mono hle) h.not_ge

theorem power_pow (i : ℕ) : power p i ^ p = 2 ^ i := by
  have hp0 : (p : ℝ) ≠ 0 := by exact_mod_cast hp.ne'
  rw [power_eq, ← Real.rpow_natCast, ← Real.rpow_mul two_pos.le, div_mul_cancel₀ _ hp0, Real.rpow_natCast]

/-- Rounding to a number, in whole numbers and in powers. -/
theorem roundsTo_iff : RoundsTo p i m ↔ (m : ℝ) - 1 / 2 ≤ power p i ∧ power p i < m + 1 / 2 := by
  have hdouble : (2 * power p i) ^ p = 2 ^ (i + p) := by
    rw [mul_pow, power_pow hp, pow_add, mul_comm]
  have hpos : 0 ≤ 2 * power p i := by linarith [power_pos (p := p) (i := i)]
  have hupper : 2 ^ (i + p) < (2 * m + 1) ^ p ↔ power p i < m + 1 / 2 := by
    rw [← Nat.cast_lt (α := ℝ)]
    push_cast
    rw [← hdouble, pow_lt_pow_iff_left₀ hpos (by positivity) hp.ne']
    constructor <;> intro h <;> linarith
  rcases Nat.eq_zero_or_pos m with rfl | hm
  · -- nothing is rounded to zero
    have hone := one_le_power (p := p) (i := i)
    rw [RoundsTo, hupper]
    push_cast
    constructor <;> rintro ⟨-, h⟩ <;> linarith
  · have hlower : (2 * m - 1) ^ p ≤ 2 ^ (i + p) ↔ (m : ℝ) - 1 / 2 ≤ power p i := by
      have hm1 : (1 : ℝ) ≤ m := by exact_mod_cast hm
      rw [← Nat.cast_le (α := ℝ), Nat.cast_pow, Nat.cast_sub (by omega)]
      push_cast
      rw [← hdouble, pow_le_pow_iff_left₀ (by linarith) hpos hp.ne']
      constructor <;> intro h <;> linarith
    rw [RoundsTo, hlower, hupper]

theorem RoundsTo.unique (h : RoundsTo p i m) (h' : RoundsTo p i v) : m = v := by
  obtain ⟨hlo, hhi⟩ := (roundsTo_iff hp).mp h
  obtain ⟨hlo', hhi'⟩ := (roundsTo_iff hp).mp h'
  have h1 : (m : ℝ) < (v + 1 : ℕ) := by
    push_cast
    linarith
  have h2 : (v : ℝ) < (m + 1 : ℕ) := by
    push_cast
    linarith
  have h1' : m < v + 1 := by exact_mod_cast h1
  have h2' : v < m + 1 := by exact_mod_cast h2
  omega

/-- Only a doubtful power is rounded elsewhere than the true one. -/
theorem roundsTo_of_near (h : |(v : ℝ) - power p i| ≤ 1 / 2 + power p i * (1 / 2 ^ 40))
    (hsure : ¬ Doubtful p i) : RoundsTo p i v := by
  obtain ⟨hlo, hhi⟩ := abs_le.mp h
  have hone := one_le_power (p := p) (i := i)
  rw [roundsTo_iff hp]
  -- Rounded elsewhere, the value would put the power next to the middle that separates the two.
  constructor
  · by_contra hlt
    have hv : 0 < v := by
      have : (0 : ℝ) < v := by linarith
      exact_mod_cast this
    refine hsure (doubtful_iff.mpr ⟨v - 1, ?_⟩)
    rw [Nat.cast_sub hv, Nat.cast_one, abs_le]
    constructor <;> linarith
  · by_contra hge
    refine hsure (doubtful_iff.mpr ⟨v, ?_⟩)
    rw [abs_le]
    constructor <;> linarith

/-- A value that comes later, and yet is above the one that a power is rounded to, shows that this power is
doubtful. -/
theorem doubtful_of_lt (hij : j ≤ i) (h : |(v : ℝ) - power p j| ≤ 1 / 2 + power p j * (1 / 2 ^ 40))
    (hm : RoundsTo p i m) (hlt : m < v) : Doubtful p i := by
  obtain ⟨hlo, hhi⟩ := (roundsTo_iff hp).mp hm
  have hmono := power_mono (p := p) hij
  have hv : (m : ℝ) + 1 ≤ v := by exact_mod_cast hlt
  have hnear := (abs_le.mp h).2
  refine doubtful_iff.mpr ⟨v - 1, ?_⟩
  rw [Nat.cast_sub (by omega), Nat.cast_one, abs_le]
  constructor <;> linarith

omit hp in
/-- A factor near to one, to the power `p`. -/
theorem pow_mul_one_sub_le {a b ε : ℝ} (ha : 0 ≤ a) (hε : ε ≤ 1) (h : a * (1 - ε) ≤ b) :
    a ^ p * (1 - p * ε) ≤ b ^ p := by
  have hbernoulli : 1 - p * ε ≤ (1 - ε) ^ p := by
    have := one_add_mul_le_pow (a := -ε) (by linarith) p
    rwa [← sub_eq_add_neg, mul_neg, ← sub_eq_add_neg] at this
  calc a ^ p * (1 - p * ε) ≤ a ^ p * (1 - ε) ^ p :=
        mul_le_mul_of_nonneg_left hbernoulli (pow_nonneg ha p)
    _ = (a * (1 - ε)) ^ p := (mul_pow _ _ _).symm
    _ ≤ b ^ p := pow_le_pow_left₀ (mul_nonneg ha (by linarith)) h p

omit hp in
/-- Whole numbers that are nearer to each other than one are equal. -/
theorem eq_of_mul_one_sub_le {a b : ℕ} {δ : ℝ} (hδ : 0 ≤ δ) (hone : 1 ≤ b) (hsmall : 2 * δ * b < 1)
    (hab : a * (1 - δ) ≤ b) (hba : b * (1 - δ) ≤ a) : a = b := by
  have hb : (1 : ℝ) ≤ b := by exact_mod_cast hone
  have hhalf : δ ≤ δ * b := le_mul_of_one_le_right hδ hb
  -- Two whole numbers that differ do so by one at least, and that is more than the two factors allow.
  rcases Nat.lt_trichotomy a b with hlt | heq | hgt
  · have : (a : ℝ) + 1 ≤ b := by exact_mod_cast hlt
    linarith
  · exact heq
  · have hgt' : (b : ℝ) + 1 ≤ a := by exact_mod_cast hgt
    have := mul_le_mul_of_nonneg_right hgt' (by linarith : 0 ≤ 1 - δ)
    linarith

/-- At a small index no power is doubtful: twice the middle of two whole numbers is odd, and so is its `p`-th
power, while that of twice the power is even. -/
theorem not_doubtful_of_lt (h : 2 * p * 2 ^ (i + p) < 2 ^ 40) : ¬ Doubtful p i := by
  intro hdoubtful
  obtain ⟨k, hk⟩ := doubtful_iff.mp hdoubtful
  obtain ⟨hlow, hhigh⟩ := abs_le.mp hk
  have hpos := power_pos (p := p) (i := i)
  have hk0 : (0 : ℝ) ≤ k := Nat.cast_nonneg k
  have heven : (2 * power p i) ^ p = (2 ^ (i + p) : ℕ) := by
    rw [mul_pow, power_pow hp, pow_add, mul_comm]
    push_cast
    rfl
  have hodd : (2 * k + 1 : ℝ) ^ p = ((2 * k + 1) ^ p : ℕ) := by push_cast; rfl
  -- Near to each other as they are, the two powers are whole numbers and so equal ...
  have hbelow := pow_mul_one_sub_le (p := p) (a := 2 * k + 1) (b := 2 * power p i) (ε := 1 / 2 ^ 40)
    (by linarith) (by norm_num) (by linarith)
  have habove := pow_mul_one_sub_le (p := p) (a := 2 * power p i) (b := 2 * k + 1) (ε := 1 / 2 ^ 40)
    (by linarith) (by norm_num) (by linarith)
  rw [heven, hodd] at hbelow habove
  have hsmall : 2 * (p * (1 / 2 ^ 40)) * (2 ^ (i + p) : ℕ) < (1 : ℝ) := by
    have h' : (2 : ℝ) * p * (2 ^ (i + p) : ℕ) < 2 ^ 40 := by exact_mod_cast h
    linarith
  have heq : (2 * k + 1) ^ p = 2 ^ (i + p) :=
    eq_of_mul_one_sub_le (by positivity) Nat.one_le_two_pow hsmall hbelow habove
  -- ... which one of them being odd and the other even does not allow.
  have hdvd : 2 ∣ (2 * k + 1) ^ p := heq ▸ dvd_pow_self 2 (by omega)
  have := Nat.prime_two.dvd_of_dvd_pow hdvd
  omega

end power

/-! ## Half steps -/

section half

variable {p c i j : ℕ} (hp : 0 < p)

include hp

theorem one_div_bounds : (0 : ℝ) < 1 / p ∧ (1 : ℝ) / p ≤ 1 := by
  have hp1 : (1 : ℝ) ≤ p := by exact_mod_cast hp
  exact ⟨by positivity, (div_le_one (by linarith)).mpr hp1⟩

theorem halfStep_le : halfStep p ≤ 1 + 21 / 50 * (1 / p) := by
  obtain ⟨hu, hu1⟩ := one_div_bounds hp
  have hroot : (2 : ℝ) ^ (1 / 2 : ℝ) ≤ 1 + 21 / 50 := by
    rw [← Real.sqrt_eq_rpow, Real.sqrt_le_left (by norm_num)]
    norm_num
  calc halfStep p = (2 ^ (1 / 2 : ℝ)) ^ (1 / p : ℝ) := by
        rw [halfStep_eq, ← Real.rpow_mul two_pos.le, mul_one_div]
    _ ≤ (1 + 21 / 50) ^ (1 / p : ℝ) :=
        Real.rpow_le_rpow (by positivity) hroot hu.le
    _ ≤ 1 + 1 / p * (21 / 50) :=
        rpow_one_add_le_one_add_mul_self (by norm_num) hu.le hu1
    _ = 1 + 21 / 50 * (1 / p) := by ring

theorem le_halfStep : 1 + 69 / 200 * (1 / p) ≤ halfStep p := by
  -- Half a step is half an octave over `p`, and the exponential is above its tangent.
  have hu := (one_div_bounds hp).1
  have hlog : 69 / 200 * (1 / p) ≤ Real.log 2 * (1 / 2 / p) := by
    have hhalf : (1 / 2 / p : ℝ) = 1 / 2 * (1 / p) := by ring
    rw [hhalf]
    generalize (1 : ℝ) / p = u at *
    nlinarith [log_two_bounds.1]
  rw [halfStep_eq, Real.rpow_def_of_pos two_pos]
  linarith [Real.add_one_le_exp (Real.log 2 * (1 / 2 / p))]

variable (hp' : p < 2 ^ 32)

include hp'

/-- The error of doubles is far less than a step. -/
theorem error_le : (1 : ℝ) / 2 ^ 40 ≤ 1 / 256 * (1 / p) := by
  have hp0 : (0 : ℝ) < p := by exact_mod_cast hp
  have hp2 : (p : ℝ) ≤ 2 ^ 32 := by exact_mod_cast hp'.le
  rw [mul_one_div, le_div_iff₀ hp0]
  linarith

/-- No more than one power is overtaken. -/
theorem Overtaken.unique (h : Overtaken p c i) (h' : Overtaken p c j) : i = j := by
  have hhalf := le_halfStep hp
  have herr := error_le hp hp'
  have hu := (one_div_bounds hp).1
  have hc0 : (0 : ℝ) ≤ c := Nat.cast_nonneg c
  -- Two powers are a whole step apart, and from `c + 1 / 2` to half a step above `c` it is less.
  have hno : ∀ i j, Overtaken p c i → Overtaken p c j → ¬ i < j := fun i j hi hj hij => by
    have hlow := (overtaken_iff.mp hi).1
    have hhigh := (overtaken_iff.mp hj).2
    have hstep := power_mul_le hp hij
    have h1 : (c + 1 / 2) * (halfStep p * halfStep p) ≤ power p i * (halfStep p * halfStep p) :=
      mul_le_mul_of_nonneg_right hlow (mul_self_nonneg _)
    generalize halfStep p = h at *
    have h2 : (c + 1 / 2) * h ≤ c * (1 + 1 / 2 ^ 40) := by
      refine le_of_mul_le_mul_right ?_ (by linarith : 0 < h)
      linarith
    have h3 : (c : ℝ) * (1 + 1 / 2 ^ 40) ≤ c * h := mul_le_mul_of_nonneg_left (by linarith) hc0
    linarith
  exact Nat.le_antisymm (not_lt.mp (hno j i h' h)) (not_lt.mp (hno i j h h'))

/-- Near the start of a series no number has a power half a step above it. -/
theorem not_overtaken_of_le (hc : c ≤ p) : ¬ Overtaken p c i := by
  intro hovertaken
  obtain ⟨hlow, hhigh⟩ := overtaken_iff.mp hovertaken
  have hp0 : (0 : ℝ) < p := by exact_mod_cast hp
  have hcp : (c : ℝ) * (1 / p) ≤ 1 := by
    rw [mul_one_div, div_le_one hp0]
    exact_mod_cast hc
  obtain ⟨hu, hu1⟩ := one_div_bounds hp
  -- Half a step above `c` is less than one half above it, as long as `c` is at most `p`.
  have hprod : halfStep p * (1 + 1 / 2 ^ 40) ≤ 1 + 9 / 20 * (1 / p) := by
    have hhalf := halfStep_le hp
    have herr := error_le hp hp'
    calc halfStep p * (1 + 1 / 2 ^ 40) ≤ (1 + 21 / 50 * (1 / p)) * (1 + 1 / 256 * (1 / p)) :=
          mul_le_mul hhalf (by linarith) (by norm_num) (by positivity)
      _ ≤ 1 + 9 / 20 * (1 / p) := by nlinarith
  have := mul_le_mul_of_nonneg_left hprod (Nat.cast_nonneg (α := ℝ) c)
  linarith

/-- Further on no value of a series has a power half a step above it: the next one is a whole step above the
power that the value is rounded from. -/
theorem not_overtaken_of_seriesValue (hc : 2 * p ≤ c) (hvalue : SeriesValue p c) :
    ¬ Overtaken p c i := by
  intro hovertaken
  obtain ⟨hlow, hhigh⟩ := overtaken_iff.mp hovertaken
  obtain ⟨hpos, j, hj⟩ := hvalue
  obtain ⟨hj1, hj2⟩ := (roundsTo_iff hp).mp hj
  -- The value is rounded from `power p j`, and the overtaken power is at least a step above that.
  have hstep := power_mul_le hp (lt_of_power_lt (lt_of_lt_of_le hj2 hlow))
  have hp0 : (0 : ℝ) < p := by exact_mod_cast hp
  have hcp : 2 ≤ (c : ℝ) * (1 / p) := by
    rw [mul_one_div, le_div_iff₀ hp0]
    exact_mod_cast hc
  obtain ⟨hu, hu1⟩ := one_div_bounds hp
  have hc1 : (1 : ℝ) ≤ c := by exact_mod_cast hpos
  have hhalf := le_halfStep hp
  have h1 : (c - 1 / 2) * (halfStep p * halfStep p) ≤ power p j * (halfStep p * halfStep p) :=
    mul_le_mul_of_nonneg_right hj1 (mul_self_nonneg _)
  have h2 : (c - 1 / 2) * halfStep p ≤ c * (1 + 1 / 2 ^ 40) := by
    refine le_of_mul_le_mul_right ?_ (by linarith : 0 < halfStep p)
    linarith
  have h3 : ((c : ℝ) - 1 / 2) * (1 + 69 / 200 * (1 / p)) ≤ (c - 1 / 2) * halfStep p :=
    mul_le_mul_of_nonneg_left hhalf (by linarith)
  have h4 : (c : ℝ) * (1 / 2 ^ 40) ≤ c * (1 / 256 * (1 / p)) :=
    mul_le_mul_of_nonneg_left (error_le hp hp') (by linarith)
  linarith

end half

/-! ## A step -/

section step

variable {p c i m : ℕ} (hp : 0 < p) (hp' : p < 2 ^ 32) (hc : 0 < c) (hc' : c < 2 ^ 64)

include hp hp' hc hc'

/-- A power that is rounded to a number above the current one is overtaken if the search starts above it. -/
theorem overtaken_of_le_index (hi : i ≤ Steps.binary64.index p c) (hm : RoundsTo p i m) (hcm : c < m) :
    Overtaken p c i := by
  have hlow := ((roundsTo_iff hp).mp hm).1
  have hcm' : (c : ℝ) + 1 ≤ m := by exact_mod_cast hcm
  have hguess := power_index_le hp (by omega) hc hc'
  rw [← power_eq, ← halfStep_eq] at hguess
  exact overtaken_iff.mpr ⟨by linarith, (power_mono hi).trans hguess⟩

/-- The value at which a step ends, and what it leaves out. -/
theorem step_skips : ∃ j v, Steps.binary64.next? p c = (if v < wordLimit then some v else none) ∧
    c < v ∧ |(v : ℝ) - power p j| ≤ 1 / 2 + power p j * (1 / 2 ^ 40) ∧ power p j * (1 + 1 / 2 ^ 40) ≤ 5 * c ∧
      ∀ i m, RoundsTo p i m → c < m → m < v → Overtaken p c i ∨ Doubtful p i := by
  have hp64 : p ≤ 2 ^ 64 := by omega
  obtain ⟨j, hj, hj', hbefore, hnext⟩ := next_first hp hp64 hc hc'
  obtain ⟨v, hv, hnear⟩ := value?_eq_of_index hp hp64 (by omega : 0 < j) (by omega)
  rw [hv] at hnext
  rw [← power_eq] at hnear
  have habove : c < v := by
    by_cases hword : v < wordLimit
    · rw [if_pos hword] at hnext
      exact Steps.lt_of_next? hnext.symm
    · exact Nat.lt_of_lt_of_le hc' (not_lt.mp hword)
  refine ⟨j, v, hnext.symm, habove, hnear, ?_, fun i m hm hcm hmv => ?_⟩
  · have hfirst := power_first_le hp hp64 hc hc' hj hj' hbefore
    rw [← power_eq] at hfirst
    have hc1 : (1 : ℝ) ≤ c := by exact_mod_cast hc
    have hthree : ((c : ℝ) + 1 / 2) * 2 ^ (3 / 2 / p : ℝ) ≤ (c + 1 / 2) * 3 :=
      mul_le_mul_of_nonneg_left (steps_le_three hp) (by linarith)
    linarith
  · -- below the search, within it, or not below its end
    rcases Nat.lt_or_ge (Steps.binary64.index p c) i with hi | hi
    · rcases Nat.lt_or_ge i j with hij | hij
      · right
        by_contra hsure
        obtain ⟨w, hw, hwv⟩ := hbefore i hi hij
        have hnear' := abs_value_sub_le hp hp64 (by omega) (by omega) hwv
        rw [← power_eq] at hnear'
        have hround := roundsTo_of_near hp hnear' hsure
        have hsame := RoundsTo.unique hp hm hround
        omega
      · exact .inr (doubtful_of_lt hp hij hnear hm hmv)
    · exact .inl (overtaken_of_le_index hp hp' hc hc' hi hm hcm)

/-- With no doubtful or overtaken power near, a step leads to the next value. -/
theorem isNext_of_clear
    (hclear : ∀ i, c ≤ 2 * power p i → power p i ≤ 5 * c → ¬ Doubtful p i ∧ ¬ Overtaken p c i) :
    IsNext p c (Steps.binary64.next? p c) := by
  -- The step leaves out values of overtaken or doubtful powers only, and there are none near.
  obtain ⟨j, v, hnext, habove, hnear, hpower, hskips⟩ := step_skips hp hp' hc hc'
  obtain ⟨hlow, hhigh⟩ := abs_le.mp hnear
  have habove' : (c : ℝ) + 1 ≤ v := by exact_mod_cast habove
  have hpos := power_pos (p := p) (i := j)
  have hnone : ∀ m, SeriesValue p m → c < m → v ≤ m := fun m ⟨_, i, hm⟩ hcm => by
    by_contra hlt
    have hmv : (m : ℝ) + 1 ≤ v := by exact_mod_cast not_le.mp hlt
    have hcm' : (c : ℝ) + 1 ≤ m := by exact_mod_cast hcm
    obtain ⟨h1, h2⟩ := (roundsTo_iff hp).mp hm
    obtain ⟨hsure, hbehind⟩ := hclear i (by linarith) (by linarith)
    exact (hskips i m hm hcm (not_le.mp hlt)).elim hbehind hsure
  rw [hnext]
  split
  · have hsure := (hclear j (by linarith) (by linarith)).1
    exact ⟨habove, ⟨by omega, j, roundsTo_of_near hp hnear hsure⟩, hnone⟩
  · next hword => exact fun m hm hcm => Nat.le_trans (not_lt.mp hword) (hnone m hm hcm)

end step

/-- From a number a step leads to a value of the series above it, up to the rounding of doubtful powers.  It
skips values only of such powers and of a power between the number and half a step above it.  There is never
more than one of those, and there is none if the number is at most that of the points per octave, or a value
of the series and at least twice as large; and powers at small indices are not doubtful.  If no such power is
near, the step leads to the next value. -/
theorem next_skips_only_overtaken {perOctave current : ℕ} (hp : perOctave < 2 ^ 32)
    (hc : current < 2 ^ 64) :
    let p := max perOctave 1
    let c := max current 1
    (∀ n, next? perOctave current = some n → c < n ∧ n < 2 ^ 64 ∧
        ∃ j, |(n : ℝ) - power p j| ≤ 1 / 2 + power p j * (1 / 2 ^ 40) ∧ (¬ Doubtful p j → RoundsTo p j n)) ∧
      (∀ i m, RoundsTo p i m → c < m → m < (next? perOctave current).getD (2 ^ 64) →
        Overtaken p c i ∨ Doubtful p i) ∧
      (∀ i j, Overtaken p c i → Overtaken p c j → i = j) ∧
      (c ≤ p ∨ 2 * p ≤ c ∧ SeriesValue p c → ∀ i, ¬ Overtaken p c i) ∧
      (∀ i, 2 * p * 2 ^ (i + p) < 2 ^ 40 → ¬ Doubtful p i) ∧
      ((∀ i, c ≤ 2 * power p i → power p i ≤ 5 * c → ¬ Doubtful p i ∧ ¬ Overtaken p c i) →
        IsNext p c (next? perOctave current)) := by
  intro p c
  have hp0 : 0 < p := Nat.lt_of_lt_of_le Nat.one_pos (Nat.le_max_right _ _)
  have hc0 : 0 < c := Nat.lt_of_lt_of_le Nat.one_pos (Nat.le_max_right _ _)
  have hp' : p < 2 ^ 32 := by omega
  have hc' : c < 2 ^ 64 := by omega
  have hsame : next? perOctave current = Steps.binary64.next? p c := by
    show Steps.next? _ _ _ = _
    unfold Steps.next?
    dsimp only
    rw [Nat.max_eq_left hp0, Nat.max_eq_left hc0]
  obtain ⟨j, v, hnext, habove, hnear, -, hskips⟩ := step_skips hp0 hp' hc0 hc'
  have hlimit : wordLimit = 2 ^ 64 := rfl
  rw [hlimit] at hnext
  rw [hsame]
  refine ⟨fun n hn => ?_, fun i m hm hcm hmn => hskips i m hm hcm ?_,
    fun i j hi hj => hi.unique hp0 hp' hj, fun hplace i => ?_,
    fun i => not_doubtful_of_lt hp0, isNext_of_clear hp0 hp' hc0 hc'⟩
  · rw [hnext] at hn
    split at hn
    · next hword =>
      cases hn
      exact ⟨habove, hword, j, hnear, roundsTo_of_near hp0 hnear⟩
    · cases hn
  · rw [hnext] at hmn
    split at hmn
    · exact hmn
    · next hword => exact Nat.lt_of_lt_of_le hmn (not_lt.mp hword)
  · rcases hplace with hle | ⟨hge, hvalue⟩
    · exact not_overtaken_of_le hp0 hp' hle
    · exact not_overtaken_of_seriesValue hp0 hp' hge hvalue

theorem next_skips_only_overtaken_six : (∀ i, ¬ Overtaken 2 6 i) ∧ IsNext 2 6 (next? 2 6) := by
  obtain ⟨-, -, -, hplace, hsmall, hclear⟩ := @next_skips_only_overtaken 2 6 (by decide) (by decide)
  have hvalue : SeriesValue 2 6 := ⟨by decide, 5, by decide, by decide⟩
  have hno : ∀ i, ¬ Overtaken 2 6 i := hplace (.inr ⟨by decide, hvalue⟩)
  refine ⟨hno, hclear fun i _ hi => ⟨hsmall i ?_, hno i⟩⟩
  have hi30 : power 2 i ≤ 30 := by
    calc power 2 i ≤ 5 * (6 : ℕ) := hi
      _ = 30 := by norm_num
  have hi10 : i < 10 := by
    by_contra hge
    have hsquare := pow_le_pow_left₀ power_pos.le ((power_mono (not_lt.mp hge)).trans hi30) 2
    rw [power_pow two_pos] at hsquare
    norm_num at hsquare
  calc 2 * 2 * 2 ^ (i + 2) ≤ 2 * 2 * 2 ^ (10 + 2) :=
        Nat.mul_le_mul_left _ (Nat.pow_le_pow_right two_pos (by omega))
    _ < 2 ^ 40 := by decide

/-- With two points per octave the power between 4 and 8 is overtaken from 5. -/
theorem next_skips_a_value :
    SeriesValue 2 6 ∧ next? 2 5 = some 8 ∧ ¬ IsNext 2 5 (next? 2 5) := by
  have hvalue : SeriesValue 2 6 := ⟨by decide, 5, by decide, by decide⟩
  have hnext : next? 2 5 = some 8 := Steps.next?_of_first (by decide +kernel) (by decide)
  refine ⟨hvalue, hnext, fun h => ?_⟩
  rw [hnext] at h
  exact absurd (h.2.2 6 hvalue (by decide)) (by decide)

end SpeedTrial.Plan
