import SpeedTrial.Job.Validation

/-!
# The sweeps that pass the check

The check of a sweep names the first fault.  What is left when there is none is a range for each
parameter, and these are all that the sums and the slopes of the plan are computed from.

* `Accepted` lists the ranges, and `planFault?_eq_none_iff` says that they are all that is checked.
-/

namespace SpeedTrial.Job

open SpeedTrial.Plan

/-- What a sweep without a fault satisfies. -/
structure Accepted (p : SweepPlan) : Prop where
  updates_ordered : p.lgMinUpdates ≤ p.lgMaxUpdates
  updates_le : p.lgMaxUpdates ≤ 30
  trials_ordered : p.lgMinTrials ≤ p.lgMaxTrials
  trials_le : p.lgMaxTrials ≤ 20
  perOctave_pos : 0 < p.perOctave
  slope_ordered : p.lgMinTrials ≠ p.lgMaxTrials → p.lgSlopeStart < p.lgSlopeEnd
  slopeStart_le : p.lgSlopeStart ≤ 62
  slopeEnd_le : p.lgSlopeEnd ≤ 62

/-- The check finds no fault exactly in the sweeps whose parameters are in their ranges. -/
theorem planFault?_eq_none_iff {p : SweepPlan} : planFault? p = none ↔ Accepted p := by
  unfold planFault? maxLgUpdates maxLgTrials maxLgSlope
  constructor
  · intro h
    split at h; · cases h
    split at h; · cases h
    split at h; · cases h
    split at h; · cases h
    split at h; · cases h
    split at h; · cases h
    split at h; · cases h
    constructor <;> omega
  · rintro ⟨h1, h2, h3, h4, h5, h6, h7, h8⟩
    rw [if_neg (by omega), if_neg (by omega), if_neg (by omega), if_neg (by omega),
      if_neg (by omega), if_neg (by omega), if_neg (by omega)]

end SpeedTrial.Job
