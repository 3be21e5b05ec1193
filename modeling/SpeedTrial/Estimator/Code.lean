import SpeedTrial.Numeric.Power

/-!
# Codes of inserted words

An estimator never stores a word itself, only a code computed from its hash: 25 bits of the
hash, of which twelve choose a register, and above them a rank, one more than the number of
ones that the hash has in a row from its thirteenth bit on.  A rank `r` is reached by one
hash in `2 ^ r`.

* `hash` is wyhash of the eight bytes of a word, with seed zero.
* `code` is the code of a word, and `register` and `rank` take it apart.
-/

namespace SpeedTrial.Estimator

/-- The number of registers. -/
def registerCount : Nat := 4096

/-- The lower 32 bits of a word. -/
def lowHalf (v : UInt64) : UInt64 := v &&& 0xffffffff

/-- The upper 32 bits of a word. -/
def highHalf (v : UInt64) : UInt64 := v >>> 32

/-- The upper word of the product of two words.  The four products of halves are words, and
so are the sums of three half words that are carried on. -/
def productHigh (a b : UInt64) : UInt64 :=
  let low := lowHalf a * lowHalf b
  let cross := highHalf a * lowHalf b
  let cross' := lowHalf a * highHalf b
  let middle := highHalf low + lowHalf cross + lowHalf cross'
  highHalf a * highHalf b + highHalf cross + highHalf cross' + highHalf middle

/-- The 128-bit product of two words, its halves combined bit by bit. -/
def foldedProduct (a b : UInt64) : UInt64 := productHigh a b ^^^ (a * b)

/-- The two halves of a word exchanged. -/
def swappedHalves (v : UInt64) : UInt64 := (v <<< 32) ||| (v >>> 32)

/-- The hash of a word. -/
def hash (v : UInt64) : UInt64 :=
  let h := foldedProduct 0xa0761d6478bd642f (swappedHalves v ^^^ 0xe7037ed1a0b428db)
  foldedProduct h (8 ^^^ 0xeb44accab455d165)

/-- The number of ones in a row at the low end of a number, at most `fuel`. -/
def trailingOnes : (fuel n : Nat) → Nat
  | 0, _ => 0
  | fuel + 1, n => if n % 2 = 1 then trailingOnes fuel (n / 2) + 1 else 0

/-- The rank of a hash.  A hash that has nothing but ones from its thirteenth bit on counts
as one with 64 of them. -/
def hashRank (h : UInt64) : Nat :=
  let ones := trailingOnes 52 (h.toNat >>> 12)
  (if ones = 52 then 64 else ones) + 1

/-- The code of a hash. -/
def codeOfHash (h : UInt64) : Nat := ((h.toNat % Numeric.twoPow 25) <<< 6) ||| hashRank h

/-- The code of a word. -/
def code (v : UInt64) : Nat := codeOfHash (hash v)

/-- The register that a code belongs to. -/
def register (code : Nat) : Nat := (code >>> 6) % registerCount

/-- The rank in a code. -/
def rank (code : Nat) : Nat := code % 64

/-- Every code belongs to a register. -/
theorem register_lt (code : Nat) : register code < registerCount :=
  Nat.mod_lt _ (by decide)

end SpeedTrial.Estimator
