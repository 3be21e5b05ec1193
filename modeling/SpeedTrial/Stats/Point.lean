import SpeedTrial.Stats.Histogram
import SpeedTrial.Time.Span
import SpeedTrial.Json

/-!
# The statistics of an axis point

All trials at one update count are summed up in one row: exact means, and the median and the
extremes of the nanoseconds per write from a histogram.

* `PointStats.ofSamples` sums up trials.
* `PointStats.row` and `PointStats.json` write a row for the two kinds of report.
-/

namespace SpeedTrial.Stats

open SpeedTrial.Numeric SpeedTrial.Decimal SpeedTrial.Time

/-- What one trial measured. -/
structure Sample where
  /-- From the start of the trial to the last report of a writer. -/
  elapsed : Span
  /-- Units performed by writers. -/
  writes : Nat
  /-- Units performed by readers. -/
  reads : Nat
  deriving DecidableEq, Repr, Inhabited

/-- The nanoseconds per write of a trial; zero if nothing was written. -/
def Sample.nanosPerWrite (s : Sample) : Float := nanosPerOperation s.elapsed s.writes

/-- The statistics of the trials at one axis point. -/
structure PointStats where
  /-- Writer units asked for in each trial. -/
  updates : Nat
  /-- How many trials there were. -/
  trials : Nat
  meanNanosPerWrite : Float
  medianNanos : Nat
  minNanos : Nat
  maxNanos : Nat
  meanWrites : Float
  meanReads : Float
  meanElapsedNanos : Float

namespace PointStats

/-- A sum divided by the number of its terms; zero if there are none. -/
def meanOf (sum : Float) (count : Nat) : Float :=
  if count = 0 then 0.0 else sum / ofCount count

/-- The nanoseconds per write of all trials in a histogram. -/
def histogram (samples : List Sample) : Histogram :=
  samples.foldl (fun h s => h.record s.nanosPerWrite) {}

/-- Sums up the trials at an axis point. -/
def ofSamples (updates : Nat) (samples : List Sample) : PointStats :=
  let h := histogram samples
  let n := samples.length
  { updates := updates
    trials := n
    meanNanosPerWrite := meanOf (samples.foldl (fun sum s => sum + s.nanosPerWrite) 0.0) n
    medianNanos := (h.percentile? 50.0).getD 0
    minNanos := h.min?.getD 0
    maxNanos := h.max?.getD 0
    meanWrites := meanOf (ofCount (total (samples.map Sample.writes))) n
    meanReads := meanOf (ofCount (total (samples.map Sample.reads))) n
    meanElapsedNanos := meanOf (ofCount (total (samples.map fun s => s.elapsed.nanos))) n }

/-- A row of a text report: eight columns between tabs. -/
def row (p : PointStats) : String :=
  "\t".intercalate
    [toString p.updates, toString p.trials, fixed 3 p.meanNanosPerWrite, fixed 0 p.meanWrites,
      fixed 0 p.meanReads, toString p.medianNanos, toString p.minNanos, toString p.maxNanos]

/-- A point of a JSON report. -/
def json (p : PointStats) : Json.Value :=
  .object
    [("updates", .integer p.updates), ("trials", .integer p.trials),
      ("mean_ns_per_write", .double p.meanNanosPerWrite), ("p50_ns", .integer p.medianNanos),
      ("min_ns", .integer p.minNanos), ("max_ns", .integer p.maxNanos),
      ("mean_writes", .double p.meanWrites), ("mean_reads", .double p.meanReads),
      ("mean_elapsed_ns", .double p.meanElapsedNanos)]

end PointStats

end SpeedTrial.Stats
