/-!
# Powers of two and of ten

The two bases that numbers are scaled by: two in a double and in a word, ten in a decimal.
-/

namespace SpeedTrial.Numeric

/-- Two to the power of `n`. -/
abbrev twoPow (n : Nat) : Nat := Nat.pow 2 n

/-- Ten to the power of `n`. -/
abbrev tenPow (n : Nat) : Nat := Nat.pow 10 n

end SpeedTrial.Numeric
