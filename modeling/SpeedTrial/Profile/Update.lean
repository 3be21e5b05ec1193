import SpeedTrial.Profile.Sweep
import SpeedTrial.Stream.Basic
import SpeedTrial.Estimator.Basic
import SpeedTrial.Host.Basic

/-!
# The profile with a single thread

A trial inserts words into an estimator of its own.  The stream of words goes on from trial
to trial, so that every word of a sweep is another one.
-/

namespace SpeedTrial.Profile

open SpeedTrial.Host SpeedTrial.Stats

/-- The stream at the start of a sweep. -/
def updateSource (values : Stream.Kind) (seed : UInt64) : Stream.Source :=
  Stream.Source.forWriter values 0 1 seed

/-- Inserts so many words of a stream. -/
def insertNext : (updates : Nat) → Estimator × Stream.Source → Estimator × Stream.Source
  | 0, r => r
  | n + 1, (e, s) =>
    let (v, s) := s.next
    insertNext n (e.insert v, s)

variable {m : Type → Type} [Monad m] [Host m]

/-- One trial: inserts words into a fresh estimator, and measures how long it takes. -/
def updateTrial (updates : Nat) (s : Stream.Source) : m (Sample × Stream.Source) := do
  let start ← Host.clock
  let (_, s) ← Host.evaluate fun _ => insertNext updates (Estimator.empty, s)
  let stop ← Host.clock
  return (⟨⟨stop - start⟩, updates, 0⟩, s)

/-- The profile as something to be measured; its trials never fail. -/
def updateBench : Bench (StateT Stream.Source m) Failure where
  trial updates := fun s => do
    let (sample, s) ← updateTrial updates s
    return (.ok sample, s)
  cleanup := pure ()

end SpeedTrial.Profile
