import SpeedTrial.Estimator.Code
import SpeedTrial.Numeric.Logarithm

/-!
# The register table

Beyond a hundred or so words an estimator keeps, for each register, the largest rank seen.
Next to the registers the table keeps what its estimate needs: how many registers are still
zero, and the sum of `2 ^ -rank` over all registers.  That sum is kept in single precision
and updated step by step, so it depends on the order of insertion where it needs more than
24 bits.

* `Table.add` enters a code; a register only ever grows.
* `Table.join` takes the larger rank register by register.
* `Table.estimate` is the bias-corrected estimate.
-/

namespace SpeedTrial.Estimator

open SpeedTrial.Numeric

/-- The registers and their running totals. -/
structure Table where
  ranks : Vector Nat registerCount
  zeros : Nat
  sum : Float32

namespace Table

/-- The power `2 ^ -rank` in single precision. -/
def weight (rank : Nat) : Float32 := Float32.ofBits (UInt32.ofNat ((127 - rank) * twoPow 23))

/-- The table without any word in it. -/
def empty : Table :=
  ⟨Vector.replicate registerCount 0, registerCount, Float32.ofBits 0x45800000⟩

/-- Raises a register to a rank; a register that is as high already stays. -/
def raise (t : Table) (i : Nat) (h : i < registerCount) (rank : Nat) : Table :=
  let old := t.ranks[i]
  if old < rank then
    { ranks := t.ranks.set i rank
      zeros := if old = 0 then t.zeros - 1 else t.zeros
      sum := t.sum - weight old + weight rank }
  else t

/-- Enters a code. -/
def add (t : Table) (code : Nat) : Table :=
  t.raise (register code) (register_lt code) (rank code)

/-- Raises the registers of `t` to those of `s`, in the order of the registers. -/
def join (t s : Table) : Table :=
  (List.range registerCount).foldl (fun t i =>
    if h : i < registerCount then t.raise i h s.ranks[i] else t) t

/-! ## The estimate -/

/-- A positive single precision number as a double; nothing is lost. -/
def widen (x : Float32) : Float :=
  let bits := x.toBits.toNat
  let field : Nat := bits / twoPow 23 % 256
  let fraction : Nat := bits % twoPow 23
  if field = 0 then nearestScaled false fraction (-149)
  else nearestScaled false (fraction + twoPow 23) ((field : Int) - 150)

/-- The factor of the estimate for this number of registers. -/
def alpha : Float := 0.7213 / (1.0 + 1.079 / 4096.0)

/-- The coefficients of the bias correction, the one of the number of zeros first. -/
def coefficients : List Float :=
  [-3.84979202588598e-01, 1.83162233114364e-01, 1.30396688841854e-01, 7.04838927629266e-02,
   -8.95893971464453e-03, 1.13010036741605e-02, -1.94285569591290e-03, 2.25435774024964e-04]

/-- The bias correction for a number of zero registers: a polynomial in the logarithm of one
more than that number, with the number itself in place of the constant. -/
def bias (zeros : Nat) : Float :=
  let l := ln (zeros + 1)
  match coefficients with
  | [] => 0.0
  | first :: rest => rest.foldr (fun b acc => acc * l + b) 0.0 * l + first * ofCount zeros

/-- The estimated number of distinct words. -/
def estimate (t : Table) : Nat :=
  let product := ofCount (registerCount * (registerCount - t.zeros))
  truncToWord (alpha * product / (widen t.sum + bias t.zeros) + 0.5)

end Table

end SpeedTrial.Estimator
