import SpeedTrial.Numeric.Binary64

/-!
# Checked words

Sums and products of words of 64 bits that have to be words themselves.  One that is not ends
the program at once.

* `checkedAdd` and `checkedMul` compute them.
-/

namespace SpeedTrial.Numeric

/-- What needed more than 64 bits. -/
inductive Overflow where
  | add
  | multiply
  deriving DecidableEq, Repr

/-- What is told of it. -/
def Overflow.message : Overflow → String
  | .add => "attempt to add with overflow"
  | .multiply => "attempt to multiply with overflow"

/-- The sum of two words. -/
def checkedAdd (a b : Nat) : Except Overflow Nat :=
  if a + b < wordLimit then .ok (a + b) else .error .add

/-- The product of two words. -/
def checkedMul (a b : Nat) : Except Overflow Nat :=
  if a * b < wordLimit then .ok (a * b) else .error .multiply

theorem checkedAdd_eq_ok_iff {a b c : Nat} :
    checkedAdd a b = .ok c ↔ c = a + b ∧ a + b < wordLimit := by
  unfold checkedAdd
  split <;> simp_all [eq_comm]

theorem checkedMul_eq_ok_iff {a b c : Nat} :
    checkedMul a b = .ok c ↔ c = a * b ∧ a * b < wordLimit := by
  unfold checkedMul
  split <;> simp_all [eq_comm]

/-- A computation comes to an end if its first part and then the rest of it does. -/
theorem bind_eq_ok_iff {ε α β : Type} {x : Except ε α} {f : α → Except ε β} {b : β} :
    x >>= f = .ok b ↔ ∃ a, x = .ok a ∧ f a = .ok b := by
  cases x <;> simp [bind, Except.bind]

end SpeedTrial.Numeric
