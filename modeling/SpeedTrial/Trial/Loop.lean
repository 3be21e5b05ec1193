import SpeedTrial.Trial.Control

/-!
# The loop of a worker

A worker runs one loop for its whole life.  It performs units while it has quota left, and
reads the quota again after every unit, so that a freeze takes effect at the end of a unit.
With its quota used up and a report due, it claims the report and delivers it.

A `Point` is where a worker stands in its loop, together with the words it has read so far;
between two points there is exactly one access to its control block, or one unit of work.
`Point.next` is the step of a worker that acts on its own block only.
-/

namespace SpeedTrial.Trial

/-- Where a worker stands. -/
inductive Point where
  /-- Its thread has not been started. -/
  | unborn
  /-- About to read whether it is stopped. -/
  | top
  /-- About to read its quota. -/
  | readQuota
  /-- About to read how many units it has performed. -/
  | readCompleted (quota : Nat)
  /-- About to read the quota again: if it has changed, a reset came in between. -/
  | recheck (quota done : Nat)
  /-- About to call its unit of work. -/
  | calling (done : Nat)
  /-- Inside its unit of work. -/
  | inUnit (done : Nat)
  /-- About to store that `done` units are performed. -/
  | publish (done : Nat)
  /-- About to read the quota after a unit. -/
  | reread (done : Nat)
  /-- About to read for which trial a report is due. -/
  | readPending
  /-- About to read the quota, to see whether the report may go out. -/
  | checkQuota (trial : Nat)
  /-- About to read the units performed, to see whether the report may go out. -/
  | checkCompleted (trial quota : Nat)
  /-- About to claim the report. -/
  | claim (trial done : Nat)
  /-- Has claimed the report and is about to deliver it. -/
  | report (trial done : Nat)
  /-- Delivering: holds the lock and is about to perform these accesses, and then to count
  its units and let go of the lock. -/
  | freezing (trial done : Nat) (todo : List (Slot × Access))
  /-- Delivering: the report was refused, and the lock is still held. -/
  | releasing
  /-- Has left its loop. -/
  | ended
  /-- A unit of work has panicked. -/
  | dead
  deriving DecidableEq, Repr

namespace Point

/-- Whether the thread of the worker is over. -/
def isFinished : Point → Bool
  | .ended => true
  | .dead => true
  | _ => false

/-- Whether the worker is inside its unit of work. -/
def isInUnit : Point → Bool
  | .inUnit _ => true
  | _ => false

/-- After the quota is known: on with the next unit, or to the report. -/
def afterQuota (quota done : Nat) : Point :=
  if done < quota then .calling done else .readPending

/-- One step on the own control block.  There is none inside a unit, while delivering a
report, and before and after the loop. -/
def next (c : Control) : Point → Option (Control × Point)
  | .top => some (c, if c.stopped then .ended else .readQuota)
  | .readQuota => some (c, .readCompleted c.quota)
  | .readCompleted quota => some (c, .recheck quota c.completed)
  | .recheck quota done => some (c, if c.quota ≠ quota then .top else afterQuota quota done)
  | .calling done => some (c, .inUnit done)
  | .publish done => some ({ c with completed := done }, .reread done)
  | .reread done => some (c, afterQuota c.quota done)
  | .readPending => some (c, if c.pending = 0 then .top else .checkQuota c.pending)
  | .checkQuota trial => some (c, .checkCompleted trial c.quota)
  | .checkCompleted trial quota =>
    some (c, if quota ≤ c.completed then .claim trial c.completed else .top)
  | .claim trial done =>
    let (claimed, pending) := exchange c.pending trial 0
    some ({ c with pending := pending }, if claimed then .report trial done else .top)
  | _ => none

end Point

/-- Whether a worker that stands here does nothing more by itself: it is inside a unit, its
thread is over or not started, or it goes round its loop with nothing to do. -/
def atRest (c : Control) (p : Point) : Bool :=
  match p with
  | .unborn => true
  | .inUnit _ => true
  | .ended => true
  | .dead => true
  | .top => !c.stopped && decide (c.quota ≤ c.completed) && c.pending == 0
  | _ => false

end SpeedTrial.Trial
