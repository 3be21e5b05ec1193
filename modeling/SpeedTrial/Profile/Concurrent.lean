import SpeedTrial.Profile.Sweep
import SpeedTrial.Profile.Session
import SpeedTrial.Host.Basic

/-!
# The profile with many threads

The trials of a session one after the other, in one thread.  Here the workers take turns: in every
round each of them performs one unit, and after some rounds the waiting thread looks whether the
trial is over.
-/

namespace SpeedTrial.Profile

open SpeedTrial.Host SpeedTrial.Stats SpeedTrial.Trial SpeedTrial.Sketch

/-- The workers of a profile, after the launch. -/
def Workshop.launched (s : Settings) : Except Failure Workshop :=
  match registered s with
  | .error e => .error ⟨e.message, []⟩
  | .ok w =>
    match Machine.launchAll w with
    | .error e => .error ((Failure.mk e.message []).within "Failed to launch workers")
    | .ok w => .ok w

namespace Session

variable {m : Type → Type} [Monad m] [Host m]

/-- The session with the time of its host. -/
def synchronised (s : Session) : m Session := do
  let now ← Host.clock
  return { s with workshop := { s.workshop with clock := max s.workshop.clock now } }

/-- The operation under way goes on, as long as nobody works. -/
def performed (s : Session) : Session :=
  { s with workshop := Machine.runCall s.workshop.callLimit s.workshop }

/-- All workers come to rest. -/
def settled (s : Session) : Session := { s with workshop := Machine.settle s.workshop }

/-- The thread performs an operation that does not wait, and goes on; one without an answer is
given up. -/
def proceed (s : Session) : m Session :=
  match s.stage with
  | .resting => return s
  | _ => do
    let s ← synchronised s.performed.settled
    return s.goOn.getD s.abandon

/-- The number of rounds between two looks. -/
def roundsPerLook : Nat := 64

/-- Looks whether a trial is over, and else lets every worker perform some units; at most
`fuel` times. -/
def rounds : (fuel : Nat) → Session → m Session
  | 0, s => return s.abandon
  | fuel + 1, s => do
    let s ← synchronised s
    let s := s.performed
    match s.goOn with
    | some s => return s.settled
    | none =>
      let w ← Host.evaluate fun _ =>
        Nat.repeat (Machine.round WorkUnit.work) roundsPerLook s.workshop
      rounds fuel { s with workshop := w }

/-- Waits until a trial is over.  With one unit of each worker per round it is after as many
rounds as the quota has units, and one more for the workers that were frozen. -/
def await (s : Session) : m Session :=
  match s.stage with
  | .waiting quota => rounds (quota + 4) s
  | _ => return s

/-- One trial. -/
def trial (updates : Nat) (s : Session) : m Session :=
  match s.ask updates with
  | none => return s.abandon
  | some s => do
    let cleared ← proceed s
    let started ← proceed cleared
    await started

end Session

/-- The profile as something to be measured. -/
def concurrentBench {m : Type → Type} [Monad m] [Host m] (limit : Option Time.Span) :
    Bench (StateT Workshop m) Failure where
  trial updates := fun w => do
    let s ← Session.trial updates { workshop := w, limit := limit }
    match s.outcome with
    | some (.ok sample) => return (.ok sample, s.workshop)
    | some (.error e) => return (.error ⟨e.message, []⟩, s.workshop)
    | none => return (.error ⟨(TrialError.inFlight s.workshop.tally.trial).message, []⟩, s.workshop)
  cleanup := modify fun w => (Machine.call .stop (Workshop.emptied w)).2

end SpeedTrial.Profile
