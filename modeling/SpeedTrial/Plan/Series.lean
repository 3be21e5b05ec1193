import SpeedTrial.Numeric.Exponential
import SpeedTrial.Numeric.Logarithm

/-!
# The series of axis values

A sweep measures at update counts that are evenly spaced on a logarithmic axis: the whole
numbers nearest to `2 ^ (i / perOctave)`.  From any number the series is continued by
guessing the index of that number and searching upwards from there.

* `Tries` is what a search looks at, and `Tries.search` is the search.
* `Steps` says what is tried after a number; `Steps.binary64` guesses the index and computes
  the values from there on with doubles.
* `Steps.next?` is the next value; `lt_of_next?` says that it is larger than the last one,
  whatever the steps are.
-/

namespace SpeedTrial.Plan

open SpeedTrial.Numeric

/-- The values that a search looks at, one in each round. -/
structure Tries where
  /-- The value of a round, unless it needs more than 64 bits. -/
  value? : (round : Nat) → Option Nat
  lt_wordLimit : ∀ {round v : Nat}, value? round = some v → v < wordLimit

/-- How a series is computed. -/
structure Steps where
  /-- What is tried after `current`, for a given number of points per octave. -/
  tries : (perOctave current : Nat) → Tries

/-! ## Searching -/

/-- Searches for a value above `current` from the given round on.  Near the start of a series
several rounds share one value.  A search that finds nothing ends when a value needs more than
64 bits, with `some none`; one that never ends is `none`. -/
def Tries.search (t : Tries) (current round : Nat) : Option (Option Nat) :=
  match t.value? round with
  | none => some none
  | some v => if current < v then some (some v) else t |>.search current (round + 1)
partial_fixpoint

/-- The value of the series after `current`; `none` once it needs more than 64 bits, or if the
search never ends.  There is at least one point per octave, and the series starts at 1. -/
def Steps.next? (s : Steps) (perOctave current : Nat) : Option Nat :=
  let p := max perOctave 1
  let c := max current 1
  ((s.tries p c).search c 0).join

/-! ## Doubles -/

namespace Steps.binary64

/-- The index near which a number stands, for a given number of points per octave. -/
def index (perOctave current : Nat) : Nat := roundToWord (log2 current * ofCount perOctave)

/-- The value at an index, rounded to a whole number, unless it needs more than 64 bits. -/
def value? (perOctave index : Nat) : Option Nat :=
  match parts? (exp2 (ofCount index / ofCount perOctave)) with
  | some p => if p.roundedMagnitude < wordLimit then some p.roundedMagnitude else none
  | none => none

/-- The values at the indices above the given one. -/
def triesAbove (perOctave index : Nat) : Tries where
  value? round := value? perOctave (index + 1 + round)
  lt_wordLimit {round v} h := by
    unfold value? at h
    split at h
    · split at h
      · next hlt =>
        cases h
        exact hlt
      · cases h
    · cases h

end Steps.binary64

/-- The steps computed with doubles. -/
def Steps.binary64 : Steps where
  tries perOctave current := binary64.triesAbove perOctave (binary64.index perOctave current)

/-- The value of the series after `current`, computed with doubles. -/
def next? : (perOctave current : Nat) → Option Nat := Steps.binary64.next?

/-! ## Results of a search -/

/-- What a search finds is above the current value. -/
theorem Tries.lt_of_search {t : Tries} {current round v : Nat}
    (h : t.search current round = some (some v)) : current < v := by
  refine Tries.search.partial_correctness t current (motive := fun _ result => ∀ v, result = some v → current < v)
    (fun search ih round result hresult v hv => ?_) round (some v) h v rfl
  subst hv
  split at hresult
  · cases hresult
  · split at hresult
    · next hlt =>
      cases hresult
      exact hlt
    · exact ih _ _ hresult v rfl

theorem Steps.search_of_next? {s : Steps} {perOctave current v : Nat}
    (h : s.next? perOctave current = some v) :
    (s.tries (max perOctave 1) (max current 1)).search (max current 1) 0 = some (some v) :=
  Option.join_eq_some_iff.mp h

/-- What is tried first is the next value if it is above the last one. -/
theorem Steps.next?_of_first {s : Steps} {perOctave current v : Nat}
    (h : (s.tries (max perOctave 1) (max current 1)).value? 0 = some v) (hlt : max current 1 < v) :
    s.next? perOctave current = some v := by
  unfold Steps.next?
  dsimp only
  rw [Tries.search, h]
  simp only [if_pos hlt, Option.join_some]

/-- The series is strictly increasing. -/
theorem Steps.lt_of_next? {s : Steps} {perOctave current v : Nat}
    (h : s.next? perOctave current = some v) : current < v :=
  Nat.lt_of_le_of_lt (Nat.le_max_left current 1) (Tries.lt_of_search (search_of_next? h))

end SpeedTrial.Plan
