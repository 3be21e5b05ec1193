import SpeedTrial.Trial.Control
import SpeedTrial.Time.Span

/-!
# What can go wrong in a trial

Every operation of a coordinator that fails names its cause, and no operation that fails has
done anything.
-/

namespace SpeedTrial.Trial

/-- Why an operation of a coordinator failed. -/
inductive TrialError where
  /-- A worker was registered after the launch. -/
  | registrationClosed (role : Role)
  /-- A worker was registered under a role it does not have. -/
  | roleMismatch (expected actual : Role)
  | alreadyLaunched
  | notLaunched
  /-- A trial without a writer would never be over. -/
  | noWriters
  /-- A trial is running. -/
  | inFlight (trial : Nat)
  /-- The last trial is over but was not reset. -/
  | resetRequired (trial : Nat)
  /-- There is no trial to wait for. -/
  | noTrialInFlight
  /-- A worker has units left, so it cannot be reset. -/
  | workerBusy (slot : Slot) (completed quota : Nat)
  /-- All workers have been told to stop. -/
  | stopped (trial : Nat)
  /-- The thread of a worker ended during a trial. -/
  | workerExited (slot : Slot) (trial : Nat)
  /-- A trial took too long. -/
  | timeout (trial : Nat) (limit : Time.Span)
  deriving DecidableEq, Repr

/-- What the user is told. -/
def TrialError.message : TrialError → String
  | .registrationClosed role =>
    s!"cannot register a {role.name} after workers have been launched"
  | .roleMismatch expected actual =>
    s!"expected a {expected.name} worker, got a {actual.name}"
  | .alreadyLaunched => "workers have already been launched"
  | .notLaunched => "workers have not been launched"
  | .noWriters => "no writers registered, a trial would never complete"
  | .inFlight trial => s!"trial {trial} is still in flight"
  | .resetRequired trial => s!"trial {trial} completed but reset_trial was not called"
  | .noTrialInFlight => "no trial has been started since the last reset"
  | .workerBusy slot completed quota =>
    s!"{slot.role.name} {slot.index} is not paused ({completed} of {quota} units done)"
  | .stopped trial => s!"workers have been stopped (trial {trial})"
  | .workerExited slot trial =>
    s!"{slot.role.name} {slot.index} exited during trial {trial}"
  | .timeout trial limit => s!"trial {trial} did not complete within {limit.exact}"

end SpeedTrial.Trial
