import SpeedTrial.Numeric.FixedPoint

/-!
# Powers of two of doubles

The exponent is split into the nearest multiple of 1/128 and a remainder of at most 1/256.
The whole octaves of the multiple scale the answer, its steps within an octave choose a root
of two from a table, and the power of the remainder is a polynomial.  All arithmetic is on
doubles, in the order it is written in: the answer is off by at most 0.511 units of the last
place, so it is nearly always the nearest double, and the few times it is its neighbour the
next digits of a series show it.

* `Root.ofStep` is a root of two with the error of its double.
* `exp2` is two to the power of a double.
-/

namespace SpeedTrial.Numeric

/-! ## Roots of two -/

/-- A root of two. -/
structure Root where
  /-- The nearest double. -/
  value : Float
  /-- What the root is above that double, in units of that double. -/
  excess : Float
  deriving Inhabited

/-- The number of steps in an octave is two to this power. -/
def stepBits : Nat := 7

/-- The number of steps in an octave. -/
def stepsPerOctave : Nat := twoPow stepBits

/-- The root `2 ^ (k / stepsPerOctave)`, for a step within the octave. -/
def Root.ofStep (k : Nat) : Root :=
  let exact := exp2Fixed (k * twoPow (fractionBits - stepBits))
  let value := nearest false exact fixedOne
  let rounded := (fractionField value + twoPow 52) * twoPow (fractionBits - 52)
  let excess := if exact < rounded then nearest true (rounded - exact) rounded
    else nearest false (exact - rounded) rounded
  ⟨value, excess⟩

/-- The roots of all steps of an octave. -/
def roots : Array Root := Array.ofFn fun k : Fin stepsPerOctave => Root.ofStep k

/-- The root of a step, from the table. -/
def rootAt (k : Nat) : Root := roots[k]?.getD (Root.ofStep k)

/-- The table holds what it should. -/
theorem rootAt_eq (k : Nat) : rootAt k = Root.ofStep k := by
  unfold rootAt roots
  rw [Array.getElem?_ofFn]
  split <;> rfl

/-! ## Powers -/

/-- The number of steps nearest to a double, a half going to the even one. -/
def Parts.steps (p : Parts) : Int :=
  let shift := p.exponent + stepBits
  let magnitude : Nat :=
    if shift ≥ 0 then p.significand * twoPow shift.toNat
    else roundDiv p.significand (twoPow (-shift).toNat) .toEven
  if p.negative then -magnitude else magnitude

/-- The double `2 ^ r - 1` for a remainder of at most half a step, added to `start`. -/
def addPower (start r : Float) : Float :=
  let c1 := Float.ofBits 0x3FE62E42FEFA39EF
  let c2 := Float.ofBits 0x3FCEBFBDFF82C424
  let c3 := Float.ofBits 0x3FAC6B08D70CF4B5
  let c4 := Float.ofBits 0x3F83B2ABD24650CC
  let c5 := Float.ofBits 0x3F55D7E09B4E3A84
  let r2 := r * r
  start + r * c1 + r2 * (c2 + r * c3) + r2 * r2 * (c4 + r * c5)

/-- Two to the power of a double.  What is 512 or more has an infinite power, and what is
below -512 has none; counts need 64 at most. -/
def exp2 (x : Float) : Float :=
  if x ≥ 512.0 then ofMagnitudeBits false infinityBits
  else if x ≤ -512.0 then ofMagnitudeBits false 0
  else match parts? x with
    | none => x
    | some p =>
      let k := p.steps
      let root := rootAt (k % stepsPerOctave).toNat
      let r := x - nearestScaled (k < 0) k.natAbs (-stepBits)
      let scale := root.value * nearestScaled false 1 (k / stepsPerOctave)
      scale + scale * addPower root.excess r

end SpeedTrial.Numeric
