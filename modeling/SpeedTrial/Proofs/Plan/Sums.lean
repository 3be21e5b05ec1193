import SpeedTrial.Proofs.Job.Ranges
import SpeedTrial.Proofs.Plan.Points
import SpeedTrial.Proofs.Plan.Trials

/-!
# The totals of an accepted plan

An accepted plan has at most `2 ^ 20` trials at a point and its points end at about `2 ^ 30`, but there may be
any number of points in between.  The sums fit in a word while there are not too many.

* `updateCount_le` bounds all updates of a sweep by the points per octave.
* `totals_exact_of_few_points` says when the totals are the sums, and that nothing else can go wrong.
* `totals_overflow` is an accepted sweep whose updates are more than a word can count.
-/

namespace SpeedTrial.Plan

open SpeedTrial.Numeric SpeedTrial.Job

namespace SweepPlan

variable {p : SweepPlan}

/-! ## Totals -/

theorem trialsAt_le_max (hp : Accepted p) (v : Nat) : p.trialsAt v ≤ 2 ^ p.lgMaxTrials := by
  rcases Nat.eq_or_lt_of_le hp.trials_ordered with heq | hlt
  · exact (trialsAt_of_eq heq v).le
  · exact (trialsAt_bounds hp hlt v).1

/-- A sweep performs at most its largest number of trials at each point. -/
theorem updateCount_le (hp : Accepted p) (hfew : p.perOctave ≤ 2 ^ 64) :
    2 * p.updateCount ≤ 2 ^ (p.lgMaxTrials + p.lgMaxUpdates) * (3 * p.perOctave + 11) := by
  have hsum := sum_points_le hp.perOctave_pos hfew hp.updates_le
    (Nat.two_pow_pos p.lgMinUpdates)
  have hfirst : 2 ^ p.lgMinUpdates ≤ 2 ^ p.lgMaxUpdates :=
    Nat.pow_le_pow_right two_pos hp.updates_ordered
  -- The first point is another half of the limit at most, and the sum of the others is known.
  have hpoints : 2 * p.points.sum ≤ 2 ^ p.lgMaxUpdates * (3 * p.perOctave + 11) := by
    have hdef : p.points = 2 ^ p.lgMinUpdates :: pointsAfter Steps.binary64 p.perOctave
      (2 ^ p.lgMaxUpdates) (2 ^ p.lgMinUpdates) := rfl
    rw [hdef, List.sum_cons]
    nlinarith
  have hcount : p.updateCount ≤ 2 ^ p.lgMaxTrials * p.points.sum := by
    calc p.updateCount ≤ (p.points.map fun u => 2 ^ p.lgMaxTrials * u).sum :=
          List.sum_le_sum fun u _ => Nat.mul_le_mul_right u (trialsAt_le_max hp u)
      _ = 2 ^ p.lgMaxTrials * p.points.sum := by rw [List.sum_map_mul_left, List.map_id']
  calc 2 * p.updateCount ≤ 2 ^ p.lgMaxTrials * (2 * p.points.sum) := by
        rw [Nat.mul_left_comm]
        exact Nat.mul_le_mul_left 2 hcount
    _ ≤ 2 ^ p.lgMaxTrials * (2 ^ p.lgMaxUpdates * (3 * p.perOctave + 11)) :=
        Nat.mul_le_mul_left _ hpoints
    _ = 2 ^ (p.lgMaxTrials + p.lgMaxUpdates) * (3 * p.perOctave + 11) := by
        rw [Nat.pow_add, Nat.mul_assoc]

theorem pos_of_mem_points {u : Nat} (h : u ∈ p.points) : 0 < u := by
  rcases List.mem_cons.mp h with rfl | hmem
  · exact Nat.two_pow_pos _
  · exact Nat.lt_of_le_of_lt (Nat.zero_le _) (lt_of_mem_pointsAfter hmem)

theorem trialCount_le_updateCount : p.trialCount ≤ p.updateCount :=
  List.sum_le_sum fun _ hu => Nat.le_mul_of_pos_right _ (pos_of_mem_points hu)

theorem sum_map_le_of_isPrefix {f : Nat → Nat} {points points' : List Nat} (h : points <+: points') :
    (points.map f).sum ≤ (points'.map f).sum := by
  obtain ⟨rest, rfl⟩ := h
  rw [List.map_append, List.sum_append]
  exact Nat.le_add_right _ _

/-- Where the number of trials varies, the slope has a length on doubles too. -/
theorem slope_divisor_neg (hp : Accepted p) (hne : p.lgMinTrials ≠ p.lgMaxTrials) :
    ∃ q : ℚ, value? (ofCount p.lgSlopeStart - ofCount p.lgSlopeEnd) = some q ∧ q < 0 := by
  obtain ⟨hl, hl'⟩ := length_bounds hp (Nat.lt_of_le_of_ne hp.trials_ordered hne)
  obtain ⟨q, hq, herr⟩ := near_slope_divisor hp (Nat.lt_of_le_of_ne hp.trials_ordered hne)
  refine ⟨q, hq, ?_⟩
  have hlength : |(p.lgSlopeStart : ℝ) - p.lgSlopeEnd| = p.lgSlopeEnd - p.lgSlopeStart := by
    rw [abs_of_neg (by linarith), neg_sub]
  rw [hlength] at herr
  have hneg : (q : ℝ) < 0 := by
    have := (abs_le.mp herr).2
    linarith
  exact_mod_cast hneg

/-- No point of an accepted plan performs more updates than a word can count. -/
theorem performed_lt (hp : Accepted p) (hfew : p.perOctave ≤ 2 ^ 64) {u : Nat} (hu : u ∈ p.points) :
    p.trialsAt u * u < 2 ^ 64 := by
  have hlimit : 2 ^ p.lgMaxUpdates ≤ 2 ^ 30 := Nat.pow_le_pow_right two_pos hp.updates_le
  have htrials : p.trialsAt u ≤ 2 ^ 20 :=
    (trialsAt_le_max hp u).trans (Nat.pow_le_pow_right two_pos hp.trials_le)
  -- the last point may be above the limit, but not far
  have hpoint : u ≤ 3 * 2 ^ 30 := by
    rcases List.mem_cons.mp hu with rfl | hmem
    · have hfirst : 2 ^ p.lgMinUpdates ≤ 2 ^ p.lgMaxUpdates :=
        Nat.pow_le_pow_right two_pos hp.updates_ordered
      show 2 ^ p.lgMinUpdates ≤ _
      omega
    · obtain ⟨c, hc, hc', hnext⟩ := next_of_mem_pointsAfter hmem
      have hpos : 0 < c := Nat.lt_of_lt_of_le (Nat.two_pow_pos p.lgMinUpdates) hc
      exact (next_le_limit hp.perOctave_pos hfew hp.updates_le hpos hc' hnext).trans
        (Nat.mul_le_mul_left 3 hlimit)
  calc p.trialsAt u * u ≤ 2 ^ 20 * (3 * 2 ^ 30) := Nat.mul_le_mul htrials hpoint
    _ < 2 ^ 64 := by decide

/-- If an accepted plan has no totals, it is a sum that is too large. -/
theorem overflow_of_accepted (hp : Accepted p) (hfew : p.perOctave ≤ 2 ^ 64) {o : Overflow}
    (ho : p.totals = .error o) : o = .add := by
  obtain ⟨u, hu, t, hstep⟩ := exists_of_foldlM_error ho
  have hproduct : checkedMul (p.trialsAt u) u = .ok (p.trialsAt u * u) :=
    checkedMul_eq_ok_iff.mpr ⟨rfl, performed_lt hp hfew hu⟩
  -- with the product out of the way there are two sums
  simp only [addPoint, hproduct, checkedAdd, bind, Except.bind, pure, Except.pure] at hstep
  grind

/-- Every shift of an accepted plan stays in a word and every slope has a length.  If there are totals they are
the true sums; there are none exactly if the updates are more than a word can count, and then it is a sum that is
too large.  With not too many points per octave the sums and all that they are made of are words. -/
theorem totals_exact_of_few_points (p : SweepPlan) (h : planFault? p = none) :
    (p.lgMinUpdates < 64 ∧ p.lgMaxUpdates < 64 ∧ p.lgMinTrials < 64 ∧ p.lgMaxTrials < 64 ∧
      p.lgSlopeStart < 64 ∧ p.lgSlopeEnd < 64) ∧
    (p.lgMinTrials ≠ p.lgMaxTrials →
      ∃ q : ℚ, value? (ofCount p.lgSlopeStart - ofCount p.lgSlopeEnd) = some q ∧ q < 0) ∧
    (∀ t, p.totals = .ok t ↔ t = (p.trialCount, p.updateCount) ∧ p.updateCount < 2 ^ 64) ∧
    (p.perOctave < 2 ^ 32 → ∀ o, p.totals = .error o → o = .add) ∧
    (2 ^ (p.lgMaxTrials + p.lgMaxUpdates) * (3 * p.perOctave + 11) < 2 ^ 65 →
      (∀ u ∈ p.points, p.trialsAt u * u < 2 ^ 64) ∧
      (∀ points, points <+: p.points → (points.map p.trialsAt).sum < 2 ^ 64 ∧
        (points.map fun u => p.trialsAt u * u).sum < 2 ^ 64) ∧
      p.totals = .ok (p.trialCount, p.updateCount)) := by
  have hp := planFault?_eq_none_iff.mp h
  have h1 := hp.updates_ordered
  have h2 := hp.updates_le
  have h3 := hp.trials_ordered
  have h4 := hp.trials_le
  have h5 := hp.slopeStart_le
  have h6 := hp.slopeEnd_le
  have hcount : p.trialCount ≤ p.updateCount := trialCount_le_updateCount
  refine ⟨⟨by omega, by omega, by omega, by omega, by omega, by omega⟩, slope_divisor_neg hp,
    fun t => ?_, fun hrange o ho => overflow_of_accepted hp (by omega) ho, fun hfew => ?_⟩
  · rw [totals_eq_ok_iff, and_comm (a := t = _)]
    exact and_congr_left' ⟨And.right, fun hlt => ⟨by omega, hlt⟩⟩
  have hpoints : p.perOctave ≤ 2 ^ 64 := by
    have := Nat.le_mul_of_pos_left (3 * p.perOctave + 11)
      (Nat.two_pow_pos (p.lgMaxTrials + p.lgMaxUpdates))
    omega
  have hupdates : p.updateCount < 2 ^ 64 := by
    have := updateCount_le hp hpoints
    omega
  have htrials : p.trialCount < 2 ^ 64 := Nat.lt_of_le_of_lt hcount hupdates
  refine ⟨fun u hu => performed_lt hp hpoints hu, fun points hprefix => ⟨?_, ?_⟩,
    p.totals_eq_ok_iff.mpr ⟨⟨htrials, hupdates⟩, rfl⟩⟩
  · exact Nat.lt_of_le_of_lt (sum_map_le_of_isPrefix hprefix) htrials
  · exact Nat.lt_of_le_of_lt (sum_map_le_of_isPrefix hprefix) hupdates

theorem totals_exact_of_few_points_default : planFault? {} = none ∧
    ({} : SweepPlan).totals =
      .ok (({} : SweepPlan).trialCount, ({} : SweepPlan).updateCount) := by
  refine ⟨by decide, ?_⟩
  exact ((totals_exact_of_few_points {} (by decide)).2.2.2.2 (by decide)).2.2

/-- A sweep that is accepted and has no totals: its updates are more than a word can count. -/
theorem totals_overflow : planFault? ⟨20, 20, 29, 30, 2 ^ 16, 0, 1⟩ = none ∧
    2 ^ 64 ≤ (⟨20, 20, 29, 30, 2 ^ 16, 0, 1⟩ : SweepPlan).updateCount ∧
    (⟨20, 20, 29, 30, 2 ^ 16, 0, 1⟩ : SweepPlan).totals = .error .add := by
  obtain ⟨p, hp⟩ : ∃ p : SweepPlan, p = ⟨20, 20, 29, 30, 2 ^ 16, 0, 1⟩ := ⟨_, rfl⟩
  rw [← hp]
  have haccepted : planFault? p = none := by
    rw [hp]
    decide
  have htrials : ∀ u, p.trialsAt u = 2 ^ 20 := by
    rw [hp]
    exact trialsAt_of_eq rfl
  have hpoints : p.points = 2 ^ 29 :: pointsAfter Steps.binary64 (2 ^ 16) (2 ^ 30) (2 ^ 29) := by
    rw [hp]
    rfl
  have hcount : p.updateCount = 2 ^ 20 * p.points.sum := by
    unfold updateCount
    simp only [htrials]
    rw [List.sum_map_mul_left, List.map_id']
  have hmore : 2 ^ 64 ≤ p.updateCount := by
    have hsum := length_mul_le_sum_pointsAfter Steps.binary64 (2 ^ 16) (2 ^ 30) (2 ^ 29)
    have hmany := many_points
    rw [hcount, hpoints, List.sum_cons]
    generalize pointsAfter Steps.binary64 (2 ^ 16) (2 ^ 30) (2 ^ 29) = points at *
    have := Nat.mul_le_mul_right (2 ^ 29) hmany
    omega
  refine ⟨haccepted, hmore, ?_⟩
  cases htotals : p.totals with
  | ok t =>
    have := (p.totals_eq_ok_iff.mp htotals).1.2
    omega
  | error o =>
    have hfew : p.perOctave ≤ 2 ^ 64 := by
      rw [hp]
      decide
    rw [overflow_of_accepted (planFault?_eq_none_iff.mp haccepted) hfew htotals]

end SweepPlan

end SpeedTrial.Plan
