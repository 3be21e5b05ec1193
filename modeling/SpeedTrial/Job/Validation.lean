import SpeedTrial.Job.Config

/-!
# What a job must satisfy

A job is checked before anything is started.  The checks come in a fixed order, and the
first that fails is told.

* `planFault?` checks the sweep and `concurrencyFault?` the workers.
* `Config.fault?` checks a whole job; a job with a single thread needs no workers.
* `oversubscription?` is a warning, not a fault.
-/

namespace SpeedTrial.Job

open SpeedTrial.Plan

/-! ## The sweep -/

/-- The largest exponent of an update count. -/
def maxLgUpdates : Nat := 30

/-- The largest exponent of a number of trials. -/
def maxLgTrials : Nat := 20

/-- The largest exponent of an end of the slope. -/
def maxLgSlope : Nat := 62

/-- What is wrong with a sweep. -/
inductive PlanFault where
  | updatesReversed (least greatest : Nat)
  | updatesTooLarge (greatest : Nat)
  | trialsReversed (least greatest : Nat)
  | trialsTooLarge (greatest : Nat)
  | noPoints
  /-- The number of trials varies, but the slope has no length. -/
  | slopeReversed (start stop : Nat)
  | slopeTooLarge
  deriving DecidableEq, Repr

/-- What the user is told. -/
def PlanFault.message : PlanFault → String
  | .updatesReversed a b => s!"lg_min_u ({a}) must not exceed lg_max_u ({b})"
  | .updatesTooLarge b => s!"lg_max_u must be at most {maxLgUpdates}, got {b}"
  | .trialsReversed a b => s!"lg_min_t ({a}) must not exceed lg_max_t ({b})"
  | .trialsTooLarge b => s!"lg_max_t must be at most {maxLgTrials}, got {b}"
  | .noPoints => "u_ppo must be at least 1"
  | .slopeReversed a b =>
    s!"lg_min_bpu ({a}) must be less than lg_max_bpu ({b}) when lg_min_t != lg_max_t"
  | .slopeTooLarge => s!"lg_min_bpu and lg_max_bpu must be at most {maxLgSlope}"

/-- The first fault of a sweep. -/
def planFault? (p : SweepPlan) : Option PlanFault :=
  if p.lgMaxUpdates < p.lgMinUpdates then some (.updatesReversed p.lgMinUpdates p.lgMaxUpdates)
  else if maxLgUpdates < p.lgMaxUpdates then some (.updatesTooLarge p.lgMaxUpdates)
  else if p.lgMaxTrials < p.lgMinTrials then some (.trialsReversed p.lgMinTrials p.lgMaxTrials)
  else if maxLgTrials < p.lgMaxTrials then some (.trialsTooLarge p.lgMaxTrials)
  else if p.perOctave = 0 then some .noPoints
  else if p.lgMinTrials ≠ p.lgMaxTrials ∧ p.lgSlopeEnd ≤ p.lgSlopeStart then
    some (.slopeReversed p.lgSlopeStart p.lgSlopeEnd)
  else if maxLgSlope < p.lgSlopeEnd ∨ maxLgSlope < p.lgSlopeStart then some .slopeTooLarge
  else none

/-! ## The workers -/

/-- The longest poll interval in microseconds. -/
def maxPollMicros : Nat := 100000

/-- What is wrong with the workers. -/
inductive ConcurrencyFault where
  | noWriters
  | ratioOutOfRange (ratio : String)
  | noFlush
  | pollOutOfRange (micros : Nat)
  | noTimeout
  deriving DecidableEq, Repr

/-- What the user is told. -/
def ConcurrencyFault.message : ConcurrencyFault → String
  | .noWriters => "writers must be at least 1 for the multithreaded profile"
  | .ratioOutOfRange ratio => s!"writes_ratio must be between 0.0 and 1.0, got {ratio}"
  | .noFlush => "flush_every must be at least 1"
  | .pollOutOfRange micros =>
    s!"poll_interval_us must be between 1 and {maxPollMicros}, got {micros}"
  | .noTimeout => "trial_timeout_secs must be greater than 0 if specified"

/-- The first fault of the workers.  Not-a-number is no ratio. -/
def concurrencyFault? (k : Concurrency) : Option ConcurrencyFault :=
  if k.writers = 0 then some .noWriters
  else if !(k.writesRatio ≥ 0.0 && k.writesRatio ≤ 1.0) then
    some (.ratioOutOfRange (Decimal.plain.format k.writesRatio))
  else if k.flushEvery = 0 then some .noFlush
  else if k.pollIntervalMicros = 0 ∨ maxPollMicros < k.pollIntervalMicros then
    some (.pollOutOfRange k.pollIntervalMicros)
  else if k.trialTimeoutSeconds = some 0 then some .noTimeout
  else none

/-- A warning when there are more workers than processors. -/
def oversubscription? (k : Concurrency) (processors : Nat) : Option String :=
  let threads := k.writers + k.readers
  if processors < threads then
    some (s!"{threads} worker threads on {processors} CPUs: " ++
      "idle workers busy-spin, results will include scheduling noise")
  else none

/-! ## The job -/

/-- What is wrong with a job. -/
inductive Fault where
  | plan (f : PlanFault)
  | concurrency (f : ConcurrencyFault)
  deriving DecidableEq, Repr

/-- What the user is told. -/
def Fault.message : Fault → String
  | .plan f => f.message
  | .concurrency f => f.message

/-- The first fault of a job. -/
def Config.fault? (c : Config) : Option Fault :=
  match planFault? c.trials with
  | some f => some (.plan f)
  | none =>
    match c.profile with
    | .multithreaded => (concurrencyFault? c.concurrency).map .concurrency
    | .update => none

end SpeedTrial.Job
