import SpeedTrial.Plan.Series
import SpeedTrial.Numeric.Checked

/-!
# The plan of a sweep

A plan fixes the axis of update counts and how often each count is tried.  Small counts are
tried often to average out timer noise, large ones seldom; in between the logarithm of the
number of trials falls in a straight line.  All parameters are powers of two.

* `Axis.next` hands out the axis points one by one, and `SweepPlan.points` is all of them.
* `SweepPlan.trialsAt` is the number of trials at an update count.
* `SweepPlan.totals` counts a whole sweep in words of 64 bits, if they are enough.
-/

namespace SpeedTrial.Plan

open SpeedTrial.Numeric

/-- The parameters of a sweep.  Each `lg` is an exponent of two. -/
structure SweepPlan where
  /-- Trials at the largest counts. -/
  lgMinTrials : Nat := 0
  /-- Trials at the smallest counts. -/
  lgMaxTrials : Nat := 4
  /-- The first axis point. -/
  lgMinUpdates : Nat := 0
  /-- The axis continues while its last point is below this. -/
  lgMaxUpdates : Nat := 16
  /-- Axis points per octave. -/
  perOctave : Nat := 4
  /-- Up to this count the number of trials is the largest. -/
  lgSlopeStart : Nat := 4
  /-- From this count on the number of trials is the smallest. -/
  lgSlopeEnd : Nat := 16
  deriving DecidableEq, Repr, Inhabited

/-! ## The axis -/

/-- The axis points still to come.  `last` is the point handed out last: zero before the
first one, and at least `limit` once there are no more. -/
structure Axis where
  perOctave : Nat
  first : Nat
  limit : Nat
  last : Nat
  deriving DecidableEq, Repr

/-- The next point and the axis after it. -/
def Axis.next (s : Steps) (a : Axis) : Option Nat × Axis :=
  if a.limit ≤ a.last then (none, a)
  else if a.last = 0 then (some a.first, { a with last := a.first })
  else match s.next? a.perOctave a.last with
    | some v => (some v, { a with last := v })
    | none => (none, { a with last := a.limit })

/-- At most `n` of the points to come. -/
def Axis.take (s : Steps) : (n : Nat) → Axis → List Nat
  | 0, _ => []
  | n + 1, a =>
    match a.next s with
    | (some v, a') => v :: a'.take s n
    | (none, _) => []

/-- The points after `last`, up to the first one that reaches `limit`. -/
def pointsAfter (s : Steps) (perOctave limit last : Nat) : List Nat :=
  if last < limit then
    match _h : s.next? perOctave last with
    | some v => v :: pointsAfter s perOctave limit v
    | none => []
  else []
termination_by limit - last
decreasing_by
  have := Steps.lt_of_next? _h
  omega

namespace SweepPlan

/-- The axis of a plan, before its first point. -/
def axis (p : SweepPlan) : Axis :=
  ⟨p.perOctave, twoPow p.lgMinUpdates, twoPow p.lgMaxUpdates, 0⟩

/-- The axis points of a plan, with given steps. -/
def pointsBy (s : Steps) (p : SweepPlan) : List Nat :=
  twoPow p.lgMinUpdates ::
    pointsAfter s p.perOctave (twoPow p.lgMaxUpdates) (twoPow p.lgMinUpdates)

/-- The axis points of a plan. -/
def points (p : SweepPlan) : List Nat := p.pointsBy Steps.binary64

/-- At most `n` of the first axis points. -/
def takePoints (p : SweepPlan) (n : Nat) : List Nat := p.axis.take Steps.binary64 n

/-! ## The number of trials -/

/-- How much the logarithm of the number of trials changes per octave of updates on the
sloped part. -/
def slope (p : SweepPlan) : Float :=
  (ofCount p.lgMaxTrials - ofCount p.lgMinTrials) /
    (ofCount p.lgSlopeStart - ofCount p.lgSlopeEnd)

/-- The logarithm of the number of trials at an update count on the sloped part. -/
def lgTrialsAt (p : SweepPlan) (updates : Nat) : Float :=
  p.slope * (log2 updates - ofCount p.lgSlopeStart) + ofCount p.lgMaxTrials

/-- The number of trials at an update count: the largest up to the start of the slope, the
smallest from its end on, and in between the power of two of the line, rounded down. -/
def trialsAt (p : SweepPlan) (updates : Nat) : Nat :=
  if p.lgMinTrials = p.lgMaxTrials ∨ updates ≤ twoPow p.lgSlopeStart then twoPow p.lgMaxTrials
  else if twoPow p.lgSlopeEnd ≤ updates then twoPow p.lgMinTrials
  else truncToWord (exp2 (p.lgTrialsAt updates))

/-! ## Totals -/

/-- The totals with one more point. -/
def addPoint (p : SweepPlan) (totals : Nat × Nat) (updates : Nat) :
    Except Overflow (Nat × Nat) := do
  let trials := p.trialsAt updates
  let allTrials ← checkedAdd totals.1 trials
  let performed ← checkedMul trials updates
  return (allTrials, ← checkedAdd totals.2 performed)

/-- All trials of a sweep and all updates in them, counted in words of 64 bits. -/
def totals (p : SweepPlan) : Except Overflow (Nat × Nat) := p.points.foldlM p.addPoint (0, 0)

end SweepPlan

/-- The units each writer performs of a total; at least one, and all of them when there is
no writer to share with. -/
def quotaPerWriter (total writers : Nat) : Nat := max (total / max writers 1) 1

end SpeedTrial.Plan
