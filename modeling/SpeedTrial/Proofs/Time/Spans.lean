import SpeedTrial.Time.Span
import SpeedTrial.Proofs.Numeric.Monotone
import SpeedTrial.Proofs.Numeric.WholeNumbers

/-!
# Spans for people

A span is written in the largest unit that it reaches, and the number in front of the unit is rounded three
times: the nanoseconds to a double, their quotient to a double, and that to two places.  Each time the order of
two spans is kept, so what is written about a whole range of spans can be read off at its two ends.

* `Span.digits` is the number that is written, without its point, and `Span.printed` its value.
* `digits_le_of_scale_eq` says that in one unit a longer span has no smaller number.
* `human_is_near_and_ordered` says how near the number is, that it is ordered as the spans are, and that it
  reaches a thousand where rounding carries.
-/

namespace SpeedTrial.Time

open SpeedTrial.Numeric SpeedTrial.Decimal

/-! ## Two places -/

/-- What is written with some places is off by at most half a unit of the last. -/
theorem abs_scaledMagnitude_sub_le (p : Parts) (places : ℕ) :
    |(scaledMagnitude p places : ℚ) - abs p.value * 10 ^ places| ≤ 1 / 2 := by
  have hten : ((tenPow places : ℕ) : ℚ) = 10 ^ places := by exact_mod_cast rfl
  unfold scaledMagnitude
  rcases abs_value_cases p with ⟨h, habs⟩ | ⟨h, habs⟩
  · rw [if_pos h, habs, Nat.cast_mul, hten, twoPow_eq, sub_self, abs_zero]
    norm_num
  · have hround := abs_roundDiv_sub_le (p.significand * tenPow places) .toEven
      (Nat.two_pow_pos (-p.exponent).toNat)
    rw [if_neg (by omega), habs, div_mul_eq_mul_div, ← hten, ← Nat.cast_mul]
    exact hround

/-- A number with two places: what is before the point, the point and two digits. -/
theorem withPlaces_two (n : ℕ) : withPlaces n 2 =
    toString (n / 100) ++ "." ++ String.ofList [Nat.digitChar (n / 10 % 10), Nat.digitChar (n % 10)] := by
  have hpad : ∀ m < 100, padZeros 2 (toString m) =
      String.ofList [Nat.digitChar (m / 10), Nat.digitChar (m % 10)] := by decide +kernel
  have hplaces : padZeros 2 (toString (n % 100)) =
      String.ofList [Nat.digitChar (n / 10 % 10), Nat.digitChar (n % 10)] := by
    rw [hpad _ (Nat.mod_lt n (by decide)), show n % 100 / 10 = n / 10 % 10 by omega,
      show n % 100 % 10 = n % 10 by omega]
  rw [← hplaces]
  rfl

/-- A double in hundredths, as it is written with two places. -/
def hundredths (x : Float) : ℕ := ((parts? x).map fun p => scaledMagnitude p 2).getD 0

section hundredths

variable {x x' : Float} {q q' : ℚ}

theorem hundredths_spec (hx : value? x = some q) (hpos : 0 < q) :
    fixed 2 x = withPlaces (hundredths x) 2 ∧ |(hundredths x : ℚ) - q * 100| ≤ 1 / 2 := by
  obtain ⟨p, hparts, rfl⟩ := parts?_of_value hx
  have hhundredths : hundredths x = scaledMagnitude p 2 := by rw [hundredths, hparts]; rfl
  have hsign : p.negative = false :=
    Bool.eq_false_of_not_eq_true fun hneg => absurd hpos (not_lt.mpr (value_nonpos hneg))
  constructor
  · rw [hhundredths, fixed, hparts]
    show sign p.negative ++ _ = _
    rw [hsign]
    exact String.empty_append
  · have hnear := abs_scaledMagnitude_sub_le p 2
    rw [abs_of_pos hpos] at hnear
    rw [hhundredths]
    norm_num at hnear ⊢
    exact hnear

theorem hundredths_le_of_lt (hx : value? x = some q) (hx' : value? x' = some q') (hpos : 0 < q) (hlt : q < q') :
    hundredths x ≤ hundredths x' := by
  have hnear := (abs_le.mp (hundredths_spec hx hpos).2).2
  have hnear' := (abs_le.mp (hundredths_spec hx' (hpos.trans hlt)).2).1
  -- each is off by at most one half, so the first is less than one above the second
  have hstep : (hundredths x : ℚ) < hundredths x' + 1 := by linarith
  exact Nat.le_of_lt_succ (by exact_mod_cast hstep)

end hundredths

namespace Span

/-! ## The number that is written -/

/-- The places behind the point. -/
def Scale.places : Scale → ℕ
  | .nanoseconds => 0
  | _ => 2

/-- The number that is written, without its point. -/
def digits (d : Span) : ℕ := if d.scale = .nanoseconds then d.nanos else hundredths d.amount

/-- The value of the number that is written. -/
def printed (d : Span) : ℚ := d.digits / 10 ^ d.scale.places

/-- The spans whose whole seconds fit a word. -/
def Fits (d : Span) : Prop := d.nanos < wordLimit * 1000000000

instance (d : Span) : Decidable d.Fits := inferInstanceAs (Decidable (_ < _))

section amount

variable {d : Span}

theorem Scale.value_nanos (s : Scale) : value? (ofCount s.nanos) = some (s.nanos : ℚ) :=
  value?_ofCount (by cases s <;> decide)

theorem Scale.nanos_pos (s : Scale) : 0 < s.nanos := by cases s <;> decide

theorem scale_nanos_le (h : d.scale ≠ .nanoseconds) : d.scale.nanos ≤ d.nanos := by
  unfold scale at *
  split_ifs at * <;> first | exact absurd rfl h | (simp only [Scale.nanos]; omega)

theorem lt_scale_nanos (h : d.scale ≠ .seconds) : d.nanos < 1000 * d.scale.nanos := by
  unfold scale at *
  split_ifs at * <;> first | exact absurd rfl h | (simp only [Scale.nanos]; omega)

/-- The number in front of the unit: a double for the nanoseconds, and one for their quotient. -/
structure Amount (d : Span) (count amount : ℚ) : Prop where
  count_value : value? (ofCount d.nanos) = some count
  amount_value : value? d.amount = some amount
  count_rounds : Rounds d.nanos (ofCount d.nanos)
  amount_rounds : Rounds (count / d.scale.nanos) d.amount
  count_pos : 0 < count
  amount_pos : 0 < amount
  count_near : |count - d.nanos| ≤ d.nanos / 2 ^ 53
  amount_near : |amount - count / d.scale.nanos| ≤ count / d.scale.nanos / 2 ^ 53

/-- No span that fits is too long or too short for the doubles that it is rounded to. -/
theorem exists_amount (hns : d.scale ≠ .nanoseconds) (hfits : d.Fits) :
    ∃ count amount, Amount d count amount := by
  -- with room to spare, no double on the way is subnormal and none is infinite
  have hnormal : ∀ {z : ℚ}, 1 / 2 ^ 40 ≤ z → 2 ^ (-1022 : ℤ) ≤ z := fun h =>
    ((zpow_le_zpow_right₀ one_le_two (by norm_num) : (2 : ℚ) ^ (-1022 : ℤ) ≤ 2 ^ (-40 : ℤ)).trans
      (by norm_num)).trans h
  have hpos : 0 < d.nanos := Nat.lt_of_lt_of_le d.scale.nanos_pos (scale_nanos_le hns)
  have hlarge : d.nanos ≤ 2 ^ 94 := hfits.le.trans (by decide : wordLimit * 1000000000 ≤ 2 ^ 94)
  have hlarge' : (d.nanos : ℚ) ≤ 2 ^ 94 := by exact_mod_cast hlarge
  have hsmall : (1 : ℚ) ≤ d.nanos := by exact_mod_cast hpos
  have hunit : (1 : ℚ) ≤ d.scale.nanos := by exact_mod_cast d.scale.nanos_pos
  have hunit' : (d.scale.nanos : ℚ) ≤ 2 ^ 30 := by
    exact_mod_cast (by cases d.scale <;> decide : d.scale.nanos ≤ 2 ^ 30)
  have hcount := rounds_ofCount hpos (hlarge.trans (Nat.pow_le_pow_right two_pos (by norm_num)))
  obtain ⟨count, hcount_pos, hcount_value⟩ := hcount.exists_value (hnormal (by linarith))
  have hcount_near := hcount.relative (hnormal (by linarith)) hcount_value
  obtain ⟨hlower, hupper⟩ := abs_le.mp hcount_near
  have hquotient : 1 / 2 ^ 40 ≤ count / d.scale.nanos := by
    rw [div_le_div_iff₀ (by norm_num) (by linarith)]
    linarith
  have hquotient' : count / d.scale.nanos ≤ 2 ^ (1000 : ℤ) := by
    calc count / d.scale.nanos ≤ count := div_le_self hcount_pos.le hunit
      _ ≤ 2 ^ (95 : ℤ) := by norm_num; linarith
      _ ≤ 2 ^ (1000 : ℤ) := zpow_le_zpow_right₀ one_le_two (by norm_num)
  have hamount : Rounds (count / d.scale.nanos) d.amount :=
    rounds_div hcount_value d.scale.value_nanos hcount_pos (by linarith) hquotient'
  obtain ⟨amount, hamount_pos, hamount_value⟩ := hamount.exists_value (hnormal hquotient)
  exact ⟨count, amount, hcount_value, hamount_value, hcount, hamount, hcount_pos, hamount_pos, hcount_near,
    hamount.relative (hnormal hquotient) hamount_value⟩

end amount

/-! ## The order of spans -/

section order

variable {d d' : Span}

/-- In one unit, a longer span has no smaller number. -/
theorem digits_le_of_scale_eq (hscale : d.scale = d'.scale) (hle : d.nanos ≤ d'.nanos) (hfits : d'.Fits) :
    d.digits ≤ d'.digits := by
  have hunit : (0 : ℚ) < d'.scale.nanos := by exact_mod_cast d'.scale.nanos_pos
  by_cases hns : d.scale = .nanoseconds
  · rw [digits, digits, if_pos hns, if_pos (hscale ▸ hns)]
    exact hle
  have hns' : d'.scale ≠ .nanoseconds := hscale ▸ hns
  rw [digits, digits, if_neg hns, if_neg hns']
  rcases Nat.lt_or_eq_of_le hle with hlt | heq
  · obtain ⟨count, q, h⟩ := exists_amount hns (Nat.lt_of_le_of_lt hle hfits)
    obtain ⟨count', q', h'⟩ := exists_amount hns' hfits
    have hrounds := h.amount_rounds
    rw [hscale] at hrounds
    -- each rounding gives the same double for both, or two that are in order
    have hcount : count ≤ count' := h.count_rounds.le_of_lt h'.count_rounds (Nat.cast_nonneg _)
      (by exact_mod_cast hlt) h.count_value h'.count_value
    rcases hcount.lt_or_eq with hcount | rfl
    · have hamount : q ≤ q' := hrounds.le_of_lt h'.amount_rounds (div_pos h.count_pos hunit).le
        (div_lt_div_of_pos_right hcount hunit) h.amount_value h'.amount_value
      rcases hamount.lt_or_eq with hamount | rfl
      · exact hundredths_le_of_lt h.amount_value h'.amount_value h.amount_pos hamount
      · rw [eq_of_value?_eq h.amount_value h'.amount_value h.amount_pos]
    · have hsame : d.amount = d'.amount := by
        rw [amount, amount, eq_of_value?_eq h.count_value h'.count_value h.count_pos, hscale]
      rw [hsame]
  · have hsame : d = d' := by
      cases d
      cases d'
      exact congrArg Span.mk heq
    rw [hsame]

/-- The number is not below one: a unit is written as `1.00`. -/
theorem hundred_le_digits (hns : d.scale ≠ .nanoseconds) (hfits : d.Fits) : 100 ≤ d.digits := by
  have hunit : (Span.mk d.scale.nanos).scale = d.scale ∧ (Span.mk d.scale.nanos).digits = 100 := by
    cases hscale : d.scale with
    | nanoseconds => exact absurd hscale hns
    | _ => decide +kernel
  rw [← hunit.2]
  exact digits_le_of_scale_eq hunit.1 (scale_nanos_le hns) hfits

/-- The number is a whole number of nanoseconds, or it has two places. -/
theorem printed_eq (d : Span) :
    d.printed = if d.scale = .nanoseconds then (d.nanos : ℚ) else hundredths d.amount / 100 := by
  unfold printed digits Scale.places
  split_ifs with hns
  · rw [hns]
    norm_num
  · cases hscale : d.scale with
    | nanoseconds => exact absurd hscale hns
    | _ => norm_num

theorem printed_eq_digits (hns : d.scale ≠ .nanoseconds) : d.printed = d.digits / 100 := by
  rw [printed_eq, digits, if_neg hns, if_neg hns]

theorem one_le_printed (hns : d.scale ≠ .nanoseconds) (hfits : d.Fits) : 1 ≤ d.printed := by
  have hdigits : (100 : ℚ) ≤ d.digits := by exact_mod_cast hundred_le_digits hns hfits
  rw [printed_eq_digits hns]
  linarith

/-! ## The next unit -/

/-- The span comes as near to the next unit as half of its last place. -/
def Carries (d : Span) : Prop := 1000 * d.scale.nanos ≤ d.nanos + d.scale.nanos / 200

instance (d : Span) : Decidable d.Carries := inferInstanceAs (Decidable (_ ≤ _))

/-- Below the next unit, rounding carries from half of the last place on. -/
theorem digits_at_edge {s : Scale} (hns : s ≠ .nanoseconds) (hs : s ≠ .seconds) :
    let edge := 1000 * s.nanos - s.nanos / 200
    (∀ n ∈ [edge - 1, edge, 1000 * s.nanos - 1], (Span.mk n).scale = s ∧ (Span.mk n).Fits) ∧
      (Span.mk (edge - 1)).digits = 99999 ∧ (Span.mk edge).digits = 100000 ∧
      (Span.mk (1000 * s.nanos - 1)).digits = 100000 := by
  -- for each of the two units these are three closed spans
  cases s with
  | nanoseconds => exact absurd rfl hns
  | seconds => exact absurd rfl hs
  | _ => decide +kernel

theorem printed_of_carries (hs : d.scale ≠ .seconds) (h : d.Carries) : d.printed = 1000 := by
  have hlt := lt_scale_nanos hs
  unfold Carries at h
  have hns : d.scale ≠ .nanoseconds := fun hns => by
    rw [hns] at h hlt
    exact absurd hlt (Nat.not_lt.mpr h)
  obtain ⟨hedge, -, hfirst, hlast⟩ := digits_at_edge hns hs
  simp only [List.forall_mem_cons] at hedge
  obtain ⟨-, ⟨hscale, -⟩, ⟨hscale', hfits⟩, -⟩ := hedge
  -- the number is the same at the edge and at the last nanosecond, so it is that in between
  have hupper := digits_le_of_scale_eq hscale'.symm (show d.nanos ≤ 1000 * d.scale.nanos - 1 by omega) hfits
  have hlower := digits_le_of_scale_eq hscale
    (show 1000 * d.scale.nanos - d.scale.nanos / 200 ≤ d.nanos by omega)
    (Nat.lt_of_le_of_lt (show d.nanos ≤ 1000 * d.scale.nanos - 1 by omega) hfits)
  have hdigits : d.digits = 100000 := by omega
  rw [printed_eq_digits hns, hdigits]
  norm_num

theorem printed_lt_of_not_carries (hs : d.scale ≠ .seconds) (h : ¬ d.Carries) : d.printed < 1000 := by
  have hlt := lt_scale_nanos hs
  by_cases hns : d.scale = .nanoseconds
  · rw [hns] at hlt
    rw [printed_eq, if_pos hns]
    exact_mod_cast hlt
  · obtain ⟨hedge, hbefore, -⟩ := digits_at_edge hns hs
    obtain ⟨hscale, hfits⟩ := hedge _ List.mem_cons_self
    unfold Carries at h
    have hupper := digits_le_of_scale_eq hscale.symm
      (show d.nanos ≤ 1000 * d.scale.nanos - d.scale.nanos / 200 - 1 by omega) hfits
    have hdigits : (d.digits : ℚ) ≤ 99999 := by exact_mod_cast hbefore ▸ hupper
    rw [printed_eq_digits hns]
    linarith

example : (Span.mk 999994).human = "999.99us" := by decide +kernel

theorem scale_eq_or_le (hle : d.nanos ≤ d'.nanos) : d.scale = d'.scale ∨
    d.scale ≠ .seconds ∧ d'.scale ≠ .nanoseconds ∧ 1000 * d.scale.nanos ≤ d'.scale.nanos := by
  unfold scale
  split_ifs <;> first | omega | simp [Scale.nanos]

/-- A longer span is not written as a shorter time. -/
theorem printed_le (hle : d.nanos ≤ d'.nanos) (hfits : d'.Fits) :
    d.printed * d.scale.nanos ≤ d'.printed * d'.scale.nanos := by
  rcases scale_eq_or_le hle with hscale | ⟨hs, hns, hunits⟩
  · have hdigits : (d.digits : ℚ) ≤ d'.digits := by exact_mod_cast digits_le_of_scale_eq hscale hle hfits
    rw [printed, printed, hscale]
    gcongr
  · -- a thousand of the smaller unit is at most one of the larger
    have hone := one_le_printed hns hfits
    have hthousand : d.printed ≤ 1000 := by
      by_cases h : d.Carries
      · exact (printed_of_carries hs h).le
      · exact (printed_lt_of_not_carries hs h).le
    calc d.printed * d.scale.nanos ≤ 1000 * d.scale.nanos := by gcongr
      _ ≤ d'.scale.nanos := by exact_mod_cast hunits
      _ ≤ d'.printed * d'.scale.nanos := le_mul_of_one_le_left (Nat.cast_nonneg _) hone

end order

/-! ## The text -/

section text

variable {d : Span}

theorem human_of_nanoseconds (hns : d.scale = .nanoseconds) : d.human = toString d.nanos ++ "ns" := by
  rw [human, amountText, hns]
  rfl

theorem human_eq (hns : d.scale ≠ .nanoseconds) (hfits : d.Fits) : d.human =
    toString (d.digits / 100) ++ "." ++
      String.ofList [Nat.digitChar (d.digits / 10 % 10), Nat.digitChar (d.digits % 10)] ++ d.scale.name := by
  obtain ⟨count, amount, h⟩ := exists_amount hns hfits
  have htext := (hundredths_spec h.amount_value h.amount_pos).1
  rw [digits, if_neg hns, ← withPlaces_two, ← htext, human, amountText]
  cases hscale : d.scale with
  | nanoseconds => exact absurd hscale hns
  | _ => rfl

theorem printed_near (hns : d.scale ≠ .nanoseconds) (hfits : d.Fits) :
    ∃ amount, value? d.amount = some amount ∧ |d.printed - amount| ≤ 1 / 200 ∧
      |amount - d.nanos / d.scale.nanos| ≤ ((1 + 1 / 2 ^ 53) ^ 2 - 1) * (d.nanos / d.scale.nanos) := by
  obtain ⟨count, amount, h⟩ := exists_amount hns hfits
  have hunit : (0 : ℚ) < d.scale.nanos := by exact_mod_cast d.scale.nanos_pos
  refine ⟨amount, h.amount_value, ?_, ?_⟩
  · obtain ⟨hlower, hupper⟩ := abs_le.mp (hundredths_spec h.amount_value h.amount_pos).2
    rw [printed_eq, if_neg hns, abs_le]
    constructor <;> linarith
  · -- the error of the count goes into the quotient, and the quotient is rounded once more
    have hcount : |count / d.scale.nanos - d.nanos / d.scale.nanos| ≤ d.nanos / d.scale.nanos / 2 ^ 53 := by
      rw [← sub_div, abs_div, abs_of_pos hunit, div_right_comm]
      gcongr
      exact h.count_near
    have hquotient := h.amount_near
    have htriangle := abs_sub_le amount (count / d.scale.nanos) (d.nanos / d.scale.nanos)
    have hupper := (abs_le.mp hcount).2
    generalize (d.nanos : ℚ) / d.scale.nanos = exact at *
    generalize count / (d.scale.nanos : ℚ) = rounded at *
    linarith

end text

/-- A span is written as a number and its unit.  Nanoseconds are whole and exact.  Another number has two places
and is at least one; it is off by at most half of the last place from a double that is off only by the two
roundings of a quotient of doubles.  Below seconds the number is less than a thousand, but where rounding
carries to a thousand.  Of two spans the longer is not written as the shorter time. -/
theorem human_is_near_and_ordered {d : Span} (hfits : d.Fits) :
    (d.scale = .nanoseconds → d.printed = d.nanos ∧ d.human = toString d.nanos ++ "ns") ∧
      (d.scale ≠ .nanoseconds → d.printed = d.digits / 100 ∧
        d.human = toString (d.digits / 100) ++ "." ++
          String.ofList [Nat.digitChar (d.digits / 10 % 10), Nat.digitChar (d.digits % 10)] ++ d.scale.name ∧
        1 ≤ d.printed ∧ ∃ amount, value? d.amount = some amount ∧ |d.printed - amount| ≤ 1 / 200 ∧
          |amount - d.nanos / d.scale.nanos| ≤ ((1 + 1 / 2 ^ 53) ^ 2 - 1) * (d.nanos / d.scale.nanos)) ∧
      (d.scale ≠ .seconds → (d.printed < 1000 ↔ ¬ d.Carries) ∧ (d.Carries → d.printed = 1000)) ∧
      ∀ d' : Span, d.nanos ≤ d'.nanos → d'.Fits →
        d.printed * d.scale.nanos ≤ d'.printed * d'.scale.nanos := by
  refine ⟨fun hns => ⟨?_, human_of_nanoseconds hns⟩, fun hns => ?_, fun hs => ?_,
    fun d' hle hfits' => printed_le hle hfits'⟩
  · rw [printed_eq, if_pos hns]
  · exact ⟨printed_eq_digits hns, human_eq hns hfits, one_le_printed hns hfits, printed_near hns hfits⟩
  · refine ⟨⟨fun hlt h => ?_, printed_lt_of_not_carries hs⟩, printed_of_carries hs⟩
    exact absurd (printed_of_carries hs h) hlt.ne

/-- Half a microsecond less than three milliseconds. -/
theorem human_is_near_and_ordered_milliseconds : (Span.mk 2999500).Fits ∧
    (Span.mk 2999500).human = "3.00ms" ∧ (Span.mk 2999500).printed = 300 / 100 ∧
    (Span.mk 2999500).printed < 1000 := by
  have hfits : (Span.mk 2999500).Fits := by decide
  obtain ⟨-, hplaces, hunit, -⟩ := human_is_near_and_ordered hfits
  obtain ⟨hprinted, htext, -⟩ := hplaces (by decide)
  have hdigits : (Span.mk 2999500).digits = 300 := by decide +kernel
  rw [hdigits] at hprinted htext
  exact ⟨hfits, htext, by exact_mod_cast hprinted, (hunit (by decide)).1.mpr (by decide)⟩

/-- A nanosecond before a millisecond, rounding carries to a thousand microseconds. -/
theorem microseconds_reach_a_thousand : (Span.mk 999999).scale = .microseconds ∧
    (Span.mk 999999).human = "1000.00us" ∧ ¬ (Span.mk 999999).printed < 1000 := by
  have hprinted : (Span.mk 999999).printed = 1000 := printed_of_carries (by decide) (by decide)
  exact ⟨by decide, by decide +kernel, by rw [hprinted]; exact lt_irrefl _⟩

end Span

end SpeedTrial.Time
