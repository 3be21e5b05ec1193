import SpeedTrial.Numeric.Binary64

/-!
# Histograms

A histogram counts values in bins whose width grows with the value, so that a value and any
other of its bin differ by less than one part in a thousand.  Values below 2048 have a bin
each; above, every octave is divided into 1024 bins.  All counts are words of 64 bits, and one
that has reached the largest word stays there.

* `lowest`, `middle` and `highest` are the values that stand for a bin.
* `Histogram.record` counts a double and `Histogram.merge?` all that another one has counted.
* `Histogram.percentile?` is a quantile, answered with the highest value of its bin.
-/

namespace SpeedTrial.Stats

open SpeedTrial.Numeric

/-! ## Bins -/

/-- How many values share the bin of a value. -/
def width (v : Nat) : Nat := twoPow (v.log2 - 10)

/-- The lowest value in the bin of a value. -/
def lowest (v : Nat) : Nat := v / width v * width v

/-- The highest value in the bin of a value. -/
def highest (v : Nat) : Nat := lowest v + width v - 1

/-- The value in the middle of the bin of a value. -/
def middle (v : Nat) : Nat := lowest v + width v / 2

/-! ## Counting -/

/-- A histogram. -/
structure Histogram where
  /-- The lowest value of each bin that is not empty and its count, in ascending order. -/
  bins : List (Nat × Nat) := []
  deriving DecidableEq, Repr, Inhabited

/-- The sum of a list of counts. -/
def total (counts : List Nat) : Nat := counts.foldl (fun sum n => sum + n) 0

namespace Histogram

/-- The greatest value that is counted: one hour in nanoseconds. -/
def maxValue : Nat := 3600000000000

/-- The value that a double is counted as: the nearest whole number from 1 to the greatest
value.  What is not finite counts as the greatest. -/
def valueOf (x : Float) : Nat :=
  if x.isFinite then min (max (roundToWord x) 1) maxValue else maxValue

/-- Adds to the count of a bin, given by its lowest value. -/
def addTo (bin count : Nat) : List (Nat × Nat) → List (Nat × Nat)
  | [] => [(bin, count)]
  | (b, n) :: rest =>
    if bin < b then (bin, count) :: (b, n) :: rest
    else if bin = b then (b, min (n + count) maxWord) :: rest
    else (b, n) :: addTo bin count rest

/-- Counts a value. -/
def recordValue (h : Histogram) (v : Nat) : Histogram := ⟨addTo (lowest v) 1 h.bins⟩

/-- Counts a double. -/
def record (h : Histogram) (x : Float) : Histogram := h.recordValue (valueOf x)

/-- Counts all that another histogram has counted. -/
def merge (h other : Histogram) : Histogram :=
  ⟨other.bins.foldl (fun bins (b, n) => addTo b n bins) h.bins⟩

/-! ## Answers -/

/-- How many values were counted. -/
def size (h : Histogram) : Nat := min (total (h.bins.map Prod.snd)) maxWord

/-- Whether nothing was counted. -/
def isEmpty (h : Histogram) : Bool := h.bins.isEmpty

/-- The lowest value in the bin of the least value counted. -/
def min? (h : Histogram) : Option Nat := h.bins.head?.map Prod.fst

/-- The highest value in the bin of the greatest value counted. -/
def max? (h : Histogram) : Option Nat := h.bins.getLast?.map fun (b, _) => highest b

/-- The mean of the values counted, each taken as the middle of its bin. -/
def mean? (h : Histogram) : Option Float :=
  if h.isEmpty then none
  else
    let size := ofCount h.size
    some (h.bins.foldl (fun total (b, n) => total + ofCount (middle b) * ofCount n / size) 0.0)

/-- The first bin up to which at least `rank` values were counted, if `before` were counted
before the given bins. -/
def binAtRank (rank : Nat) : (before : Nat) → List (Nat × Nat) → Option Nat
  | _, [] => none
  | before, (b, n) :: rest =>
    if rank ≤ before + n then some b else binAtRank rank (before + n) rest

/-- The rank of a quantile among `size` values: the first value has rank 1. -/
def rankOf (quantile : Float) (size : Nat) : Nat := max (ceilToWord (quantile * ofCount size)) 1

/-- The value that the given percentage of the values counted do not exceed; a percentage
above 100 counts as 100.  The answer is the highest value of its bin, and the lowest one if
the percentage is zero.  With more than `2 ^ 53` values the rank, which is computed with
doubles, may exceed their number; then the answer is 0. -/
def percentile? (h : Histogram) (percentage : Float) : Option Nat :=
  if h.isEmpty then none
  else
    let q := percentage / 100.0
    let q := if q > 1.0 then 1.0 else q
    match binAtRank (rankOf q h.size) 0 h.bins with
    | none => some 0
    | some b => some (if q == 0.0 then b else highest b)

/-! ## The range of the bins -/

/-- The greatest value that there is a bin for: the bins end with an octave. -/
def lastValue : Nat := twoPow 42 - 1

/-- Counts all that another histogram has counted; this fails if some of it has no bin here. -/
def merge? (h other : Histogram) : Option Histogram :=
  if other.max?.getD 0 ≤ lastValue then some (h.merge other) else none

end Histogram

end SpeedTrial.Stats
