/-!
# Uniform random words

The generator is xoshiro256++: four words of state, one word of output per step.  A seed of
one word is spread over the state by four steps of SplitMix64.  A jump advances the generator
by `2 ^ 128` steps, so writers that share a seed and differ in their number of jumps draw
from parts of the sequence that do not overlap.
-/

namespace SpeedTrial.Stream

/-! ## Words -/

/-- Rotates a word to the left. -/
def rotateLeft (x : UInt64) (by' : UInt64) : UInt64 :=
  (x <<< by') ||| (x >>> (64 - by'))

/-- One step of SplitMix64: the output and the counter after it. -/
def splitMix (counter : UInt64) : UInt64 × UInt64 :=
  let c := counter + 0x9e3779b97f4a7c15
  let z := (c ^^^ (c >>> 30)) * 0xbf58476d1ce4e5b9
  let z := (z ^^^ (z >>> 27)) * 0x94d049bb133111eb
  (z ^^^ (z >>> 31), c)

/-! ## The generator -/

/-- The state of the generator. -/
structure Generator where
  s0 : UInt64
  s1 : UInt64
  s2 : UInt64
  s3 : UInt64
  deriving DecidableEq, Repr

namespace Generator

/-- The state for a seed. -/
def seeded (seed : UInt64) : Generator :=
  let (a, c) := splitMix seed
  let (b, c) := splitMix c
  let (d, c) := splitMix c
  let (e, _) := splitMix c
  ⟨a, b, d, e⟩

/-- The state after one step. -/
def advance (g : Generator) : Generator :=
  let t := g.s1 <<< 17
  let s2 := g.s2 ^^^ g.s0
  let s3 := g.s3 ^^^ g.s1
  let s1 := g.s1 ^^^ s2
  let s0 := g.s0 ^^^ s3
  ⟨s0, s1, s2 ^^^ t, rotateLeft s3 45⟩

/-- The output of the next step. -/
def output (g : Generator) : UInt64 := rotateLeft (g.s0 + g.s3) 23 + g.s0

/-- The states added to each other bit by bit. -/
def xor (g h : Generator) : Generator :=
  ⟨g.s0 ^^^ h.s0, g.s1 ^^^ h.s1, g.s2 ^^^ h.s2, g.s3 ^^^ h.s3⟩

/-- The coefficients of the jump polynomial, lowest first. -/
def jumpBits : List Bool :=
  [0x180ec6d33cfd0aba, 0xd5a61266f0c9392c, 0xa9582618e03fc9aa, 0x39abdc4529b1661c].flatMap
    fun (word : Nat) => (List.range 64).map word.testBit

/-- The state `2 ^ 128` steps later: the sum of the states at the steps whose coefficient in
the jump polynomial is set. -/
def jump (g : Generator) : Generator :=
  (jumpBits.foldl (fun (acc, g) bit => (if bit then acc.xor g else acc, g.advance))
    ((⟨0, 0, 0, 0⟩ : Generator), g)).1

end Generator

/-! ## Streams -/

/-- A stream of random words that knows how to start again. -/
structure Uniform where
  seed : UInt64
  jumps : Nat
  generator : Generator
  deriving DecidableEq, Repr

namespace Uniform

/-- The generator at the start of a stream. -/
def origin (seed : UInt64) (jumps : Nat) : Generator :=
  Nat.repeat Generator.jump jumps (Generator.seeded seed)

/-- The stream of one of several writers: as many jumps in as its index. -/
def forWriter (seed : UInt64) (index : Nat) : Uniform := ⟨seed, index, origin seed index⟩

/-- The next value, and the stream after it. -/
def next (s : Uniform) : UInt64 × Uniform :=
  (s.generator.output, { s with generator := s.generator.advance })

/-- The stream back at its start. -/
def rewind (s : Uniform) : Uniform := { s with generator := origin s.seed s.jumps }

end Uniform

end SpeedTrial.Stream
