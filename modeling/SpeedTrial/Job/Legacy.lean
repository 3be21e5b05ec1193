import SpeedTrial.Job.Config
import SpeedTrial.Job.Properties

/-!
# Jobs in property files

A job in a property file has twelve keys.  The profile and the sweep must be given in full;
the workers may be left out.  Other keys do not count.
-/

namespace SpeedTrial.Job

open SpeedTrial.Plan

/-- Reads the sweep of a job. -/
def planOfProperties (p : Properties) : Except PropertyError SweepPlan := do
  let lgMinTrials ← p.require readNarrow "Trials_lgMinT"
  let lgMaxTrials ← p.require readNarrow "Trials_lgMaxT"
  let lgMinUpdates ← p.require readNarrow "Trials_lgMinU"
  let lgMaxUpdates ← p.require readNarrow "Trials_lgMaxU"
  let perOctave ← p.require readNarrow "Trials_UPPO"
  let lgSlopeStart ← p.require readNarrow "Trials_lgMinBpU"
  let lgSlopeEnd ← p.require readNarrow "Trials_lgMaxBpU"
  return ⟨lgMinTrials, lgMaxTrials, lgMinUpdates, lgMaxUpdates, perOctave, lgSlopeStart,
    lgSlopeEnd⟩

/-- Reads the workers of a job; what is missing has its default.  Writers that need not share
a lock gather their words. -/
def concurrencyOfProperties (p : Properties) : Except PropertyError Concurrency := do
  let defaults : Concurrency := {}
  let writers ← p.optional readWide "CONCURRENT_THETA_numWriters"
  let readers ← p.optional readWide "CONCURRENT_THETA_numReaders"
  let ratio ← p.optional readFraction "CONCURRENT_THETA_writersRatio"
  let threadSafe ← p.optional readFlag "CONCURRENT_THETA_ThreadSafe"
  return { defaults with
    writers := writers.getD defaults.writers
    readers := readers.getD defaults.readers
    writesRatio := ratio.getD defaults.writesRatio
    mode := match threadSafe with
      | some true => .buffered
      | some false => .locked
      | none => defaults.mode }

/-- Reads a job from properties; the first key that is missing or wrong is told. -/
def Config.ofProperties (p : Properties) : Except PropertyError Config := do
  let profile ← p.require readProfile "JobProfile"
  let trials ← planOfProperties p
  let concurrency ← concurrencyOfProperties p
  return { profile := profile, trials := trials, concurrency := concurrency }

end SpeedTrial.Job
