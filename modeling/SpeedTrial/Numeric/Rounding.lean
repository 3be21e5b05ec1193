/-!
# Rounding a quotient to a whole number

Every number this library prints or bins is first an exact quotient of two naturals, and is
then moved to a nearby whole number.  The only choice in that step is where a quotient goes
that lies exactly half way, so the choice is a parameter and the rest is written once.

* `roundDiv num den tie` is a nearest whole number to `num / den`.
* `two_mul_roundDiv_le` and `le_two_mul_roundDiv` say it is off by at most one half.
-/

namespace SpeedTrial.Numeric

/-- Where a quotient exactly half way between two whole numbers goes. -/
inductive Tie where
  /-- To the even one of the two. -/
  | toEven
  /-- To the larger of the two. -/
  | up
  deriving DecidableEq, Repr

/-- The whole number nearest to `num / den`; a quotient half way goes as `tie` says. -/
def roundDiv (num den : Nat) (tie : Tie) : Nat :=
  let q := num / den
  let twice := 2 * (num % den)
  if twice < den then q
  else if den < twice then q + 1
  else match tie with
    | .up => q + 1
    | .toEven => q + q % 2

/-- The rounded quotient exceeds the quotient by at most one half. -/
theorem two_mul_roundDiv_le (num den : Nat) (tie : Tie) (h : 0 < den) :
    2 * (den * roundDiv num den tie) ≤ 2 * num + den := by
  have hd := Nat.div_add_mod num den
  have hm := Nat.mod_lt num h
  unfold roundDiv
  generalize num / den = q at *
  generalize num % den = r at *
  have hq : q % 2 ≤ 1 := by omega
  dsimp only
  split
  · omega
  · have hup : 2 * (den * (q + 1)) ≤ 2 * num + den := by rw [Nat.mul_succ]; omega
    split
    · exact hup
    · cases tie with
      | up => exact hup
      | toEven =>
        exact Nat.le_trans
          (Nat.mul_le_mul_left 2 (Nat.mul_le_mul_left den (Nat.add_le_add_left hq q))) hup

/-- The rounded quotient falls short of the quotient by at most one half. -/
theorem le_two_mul_roundDiv (num den : Nat) (tie : Tie) (h : 0 < den) :
    2 * num ≤ 2 * (den * roundDiv num den tie) + den := by
  have hd := Nat.div_add_mod num den
  have hm := Nat.mod_lt num h
  unfold roundDiv
  generalize num / den = q at *
  generalize num % den = r at *
  dsimp only
  split
  · omega
  · have hup : 2 * num ≤ 2 * (den * (q + 1)) + den := by rw [Nat.mul_succ]; omega
    split
    · exact hup
    · cases tie with
      | up => exact hup
      | toEven =>
        have hlo : den * q ≤ den * (q + q % 2) :=
          Nat.mul_le_mul_left den (Nat.le_add_right _ _)
        show 2 * num ≤ 2 * (den * (q + q % 2)) + den
        omega

end SpeedTrial.Numeric
