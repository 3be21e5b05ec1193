import SpeedTrial.Plan.Basic
import SpeedTrial.Stats.Point
import SpeedTrial.Failure

/-!
# The sweep

A sweep walks over the axis of a plan, tries every point as often as the plan says, sums up
the trials of a point and hands the row on as soon as it is complete.  It ends at the first
trial that fails and at the first row that is refused, and cleans up in any case.  A plan whose
totals need more than 64 bits is not even begun.

What a trial does and where rows go is a parameter, in any monad.
-/

namespace SpeedTrial.Profile

open SpeedTrial.Numeric SpeedTrial.Plan SpeedTrial.Stats

/-- Something to be measured. -/
structure Bench (m : Type → Type) (ε : Type) where
  /-- One trial of so many updates. -/
  trial : (updates : Nat) → m (Except ε Sample)
  /-- Lets go of what the trials needed. -/
  cleanup : m Unit

/-- Why a sweep ended early. -/
inductive SweepError (ε δ : Type) where
  /-- A trial failed; trials are counted from 1. -/
  | trial (number total updates : Nat) (cause : ε)
  /-- A row was refused. -/
  | row (cause : δ)
  deriving DecidableEq, Repr

/-- A failed trial is told with its place in the sweep, a refused row as it is. -/
def SweepError.failure : SweepError Failure Failure → Failure
  | .trial number total updates cause =>
    cause.within s!"trial {number} of {total} at {updates} updates"
  | .row cause => cause

variable {m : Type → Type} [Monad m] {ε δ : Type}

/-- Runs the trials of one point that are left; those taken before come newest first. -/
def sweepTrials (trial : Nat → m (Except ε Sample)) (updates total : Nat) :
    (left : Nat) → (taken : List Sample) → m (Except (SweepError ε δ) (List Sample))
  | 0, taken => pure (.ok taken.reverse)
  | left + 1, taken => do
    match ← trial updates with
    | .error e => pure (.error (.trial (total - left) total updates e))
    | .ok sample => sweepTrials trial updates total left (sample :: taken)

/-- Runs one point and hands on its row. -/
def sweepPoint (trial : Nat → m (Except ε Sample)) (sink : PointStats → m (Except δ Unit))
    (updates trials : Nat) : m (Except (SweepError ε δ) PointStats) := do
  match ← sweepTrials trial updates trials trials [] with
  | .error e => pure (.error e)
  | .ok samples =>
    let point := PointStats.ofSamples updates samples
    match ← sink point with
    | .error e => pure (.error (.row e))
    | .ok () => pure (.ok point)

/-- Runs the points that are left; those done before come newest first. -/
def sweepPoints (trial : Nat → m (Except ε Sample)) (sink : PointStats → m (Except δ Unit))
    (trialsAt : Nat → Nat) :
    (axis : List Nat) → (done : List PointStats) → m (Except (SweepError ε δ) (List PointStats))
  | [], done => pure (.ok done.reverse)
  | updates :: rest, done => do
    match ← sweepPoint trial sink updates (trialsAt updates) with
    | .error e => pure (.error e)
    | .ok point => sweepPoints trial sink trialsAt rest (point :: done)

/-- Runs the sweep of a plan; the result is all rows.  The totals are computed first, and without
them nothing is run and nothing cleaned up. -/
def sweep (bench : Bench m ε) (plan : SweepPlan) (sink : PointStats → m (Except δ Unit)) :
    m (Except Overflow (Except (SweepError ε δ) (List PointStats))) := do
  match plan.totals with
  | .error o => pure (.error o)
  | .ok _ =>
    let result ← sweepPoints bench.trial sink plan.trialsAt plan.points []
    bench.cleanup
    pure (.ok result)

end SpeedTrial.Profile
