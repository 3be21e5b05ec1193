import SpeedTrial.Proofs.Plan.Points

/-!
# An axis point by point

An axis is asked for one point after the other and keeps nothing but the last one, with which it also marks
its end.  Whatever is tried in search of a point, as long as every search ends, the answers are a finite
rising chain, and nothing afterwards.

* `Axis.answer` is the answer to one of many calls, and `answer_axis` finds it in the list of all points.
* `isChain_pointsAfter`, `lt_limit_of_mem_dropLast` and `last_of_pointsAfter` are what the list is like.
* `axis_points_are_finite_chain` puts these together.
-/

namespace SpeedTrial.Plan

open SpeedTrial.Numeric

/-! ## Calls -/

/-- The axis after so many calls. -/
def Axis.after (s : Steps) : (calls : Nat) → Axis → Axis
  | 0, a => a
  | calls + 1, a => Axis.after s calls (a.next s).2

/-- The answer to the call that comes after so many others. -/
def Axis.answer (s : Steps) (a : Axis) (calls : Nat) : Option Nat := ((a.after s calls).next s).1

section calls

variable {s : Steps} {a : Axis} {p : SweepPlan} {v : Nat}

theorem Axis.answer_zero (s : Steps) (a : Axis) : a.answer s 0 = (a.next s).1 := rfl

theorem Axis.answer_succ (s : Steps) (a : Axis) (calls : Nat) :
    a.answer s (calls + 1) = (a.next s).2.answer s calls := rfl

theorem Axis.next_of_le (h : a.limit ≤ a.last) : a.next s = (none, a) := by
  rw [Axis.next, if_pos h]

theorem Axis.next_of_some (h : a.last < a.limit) (h0 : a.last ≠ 0)
    (hnext : s.next? a.perOctave a.last = some v) : a.next s = (some v, { a with last := v }) := by
  rw [Axis.next, if_neg h.not_ge, if_neg h0, hnext]

theorem Axis.next_of_none (h : a.last < a.limit) (h0 : a.last ≠ 0)
    (hnext : s.next? a.perOctave a.last = none) : a.next s = (none, { a with last := a.limit }) := by
  rw [Axis.next, if_neg h.not_ge, if_neg h0, hnext]

/-- An axis that has ended gives no more answers. -/
theorem Axis.answer_of_le (h : a.limit ≤ a.last) (calls : Nat) : a.answer s calls = none := by
  induction calls with
  | zero => rw [Axis.answer_zero, Axis.next_of_le h]
  | succ calls ih => rw [Axis.answer_succ, Axis.next_of_le h, ih]

/-- An axis that has started answers with the points after the last one. -/
theorem Axis.answer_of_started (h0 : a.last ≠ 0) (calls : Nat) :
    a.answer s calls = (pointsAfter s a.perOctave a.limit a.last)[calls]? := by
  obtain ⟨perOctave, first, limit, last⟩ := a
  dsimp only at h0 ⊢
  fun_induction pointsAfter s perOctave limit last generalizing calls with
  | case1 last hlt v hv ih =>
    have hnext := Axis.next_of_some (a := ⟨perOctave, first, limit, last⟩) hlt h0 hv
    have hstep := Steps.lt_of_next? hv
    cases calls with
    | zero => rw [Axis.answer_zero, hnext, List.getElem?_cons_zero]
    | succ calls =>
      rw [Axis.answer_succ, hnext, List.getElem?_cons_succ]
      exact ih calls (by omega)
  | case2 last hlt hnone =>
    have hnext := Axis.next_of_none (a := ⟨perOctave, first, limit, last⟩) hlt h0 hnone
    cases calls with
    | zero => rw [Axis.answer_zero, hnext, List.getElem?_nil]
    | succ calls =>
      rw [Axis.answer_succ, hnext, List.getElem?_nil]
      exact Axis.answer_of_le (Nat.le_refl _) calls
  | case3 last hge =>
    rw [List.getElem?_nil]
    exact Axis.answer_of_le (Nat.not_lt.mp hge) calls

/-- The axis of a plan answers with its points, one after the other, and then with nothing. -/
theorem answer_axis (s : Steps) (p : SweepPlan) (calls : Nat) :
    p.axis.answer s calls = (p.pointsBy s)[calls]? := by
  have hlimit : ¬ p.axis.limit ≤ p.axis.last := (Nat.two_pow_pos p.lgMaxUpdates).not_ge
  have hnext : p.axis.next s =
      (some (twoPow p.lgMinUpdates), { p.axis with last := twoPow p.lgMinUpdates }) := by
    rw [Axis.next, if_neg hlimit]
    rfl
  cases calls with
  | zero =>
    rw [Axis.answer_zero, hnext]
    rfl
  | succ calls =>
    rw [Axis.answer_succ, hnext]
    exact Axis.answer_of_started (Nat.two_pow_pos p.lgMinUpdates).ne' calls

end calls

/-! ## The chain of points -/

/-- A search finds no value above the number before one that needs more than 64 bits. -/
def Tries.RunsOut (t : Tries) (c : Nat) : Prop :=
  ∃ k, (∀ i < k, ∃ v ≤ c, t.value? i = some v) ∧ t.value? k = none

section chain

variable {s : Steps} {perOctave limit last c v : Nat}

theorem next?_lt_wordLimit (h : s.next? perOctave c = some v) : v < wordLimit := by
  obtain ⟨k, -, -, hk, -⟩ := search_eq_some_iff.mp (Steps.search_of_next? h)
  exact (s.tries _ _).lt_wordLimit hk

/-- A series has no next value only because its values need more than 64 bits. -/
theorem runsOut_of_next?_eq_none (hends : (s.tries (max perOctave 1) (max c 1)).Ends (max c 1))
    (h : s.next? perOctave c = none) : (s.tries (max perOctave 1) (max c 1)).RunsOut (max c 1) := by
  obtain ⟨result, hresult⟩ := hends.exists_search
  have hnone : result = none := by
    unfold Steps.next? at h
    dsimp only at h
    rw [hresult] at h
    exact h
  rw [hnone] at hresult
  obtain ⟨k, -, hbefore, hk, -⟩ := search_eq_some_iff.mp hresult
  exact ⟨k, fun i hi => hbefore i (Nat.zero_le _) hi, hk⟩

theorem isChain_pointsAfter :
    (last :: pointsAfter s perOctave limit last).IsChain (fun u v => s.next? perOctave u = some v) := by
  fun_induction pointsAfter s perOctave limit last with
  | case1 last hlt v hv ih => exact List.isChain_cons_cons.mpr ⟨hv, ih⟩
  | case2 => exact List.isChain_singleton _
  | case3 => exact List.isChain_singleton _

theorem lt_limit_of_mem_dropLast (h : v ∈ (last :: pointsAfter s perOctave limit last).dropLast) :
    v < limit := by
  fun_induction pointsAfter s perOctave limit last with
  | case1 last hlt w hw ih =>
    rw [List.dropLast_cons_cons] at h
    rcases List.mem_cons.mp h with rfl | hmem
    · exact hlt
    · exact ih hmem
  | case2 => cases h
  | case3 => cases h

theorem last_of_pointsAfter (h : v ∈ (last :: pointsAfter s perOctave limit last).getLast?) :
    limit ≤ v ∨ s.next? perOctave v = none := by
  fun_induction pointsAfter s perOctave limit last with
  | case1 last hlt w hw ih =>
    rw [List.getLast?_cons_cons] at h
    exact ih h
  | case2 last hlt hnone =>
    cases h
    exact .inr hnone
  | case3 last hge =>
    cases h
    exact .inl (Nat.not_lt.mp hge)

/-- Every point is at least one above the last one. -/
theorem length_pointsAfter_le : (pointsAfter s perOctave limit last).length ≤ limit - last := by
  fun_induction pointsAfter s perOctave limit last with
  | case1 last hlt v hv ih =>
    have hstep := Steps.lt_of_next? hv
    rw [List.length_cons]
    omega
  | case2 => exact Nat.zero_le _
  | case3 => exact Nat.zero_le _

/-- Whatever is tried in search of the points of an axis, as long as every search ends: the points start with
the first one of the plan and rise, each the next one of the series after the one before, and all of them are
words.  Only the last point reaches the limit, and it does so unless the series ends before.  Then no more
points come. -/
theorem axis_points_are_finite_chain (s : Steps) (p : SweepPlan) (hmin : p.lgMinUpdates < 64)
    (hends : ∀ c, 0 < c → c < 2 ^ 64 → (s.tries (max p.perOctave 1) c).Ends c) :
    ∃ points : List Nat, (∀ calls, p.axis.answer s calls = points[calls]?) ∧
      points.head? = some (2 ^ p.lgMinUpdates) ∧ points.Pairwise (· < ·) ∧
      points.IsChain (fun u v => s.next? p.perOctave u = some v) ∧ (∀ v ∈ points, v < 2 ^ 64) ∧
      (∀ v ∈ points.dropLast, v < 2 ^ p.lgMaxUpdates) ∧
      (∀ v ∈ points.getLast?,
        2 ^ p.lgMaxUpdates ≤ v ∨ (s.tries (max p.perOctave 1) v).RunsOut v) ∧
      points.length ≤ 2 ^ p.lgMaxUpdates + 1 := by
  have hchain : (p.pointsBy s).IsChain (fun u v => s.next? p.perOctave u = some v) :=
    isChain_pointsAfter
  have hrising : (p.pointsBy s).Pairwise (· < ·) :=
    List.isChain_iff_pairwise.mp (hchain.imp fun _ _ hnext => Steps.lt_of_next? hnext)
  have hword : ∀ v ∈ p.pointsBy s, v < 2 ^ 64 := fun v hv => by
    rcases List.mem_cons.mp hv with rfl | hmem
    · exact Nat.pow_lt_pow_right (by decide) hmin
    · obtain ⟨c, -, -, hnext⟩ := next_of_mem_pointsAfter hmem
      exact next?_lt_wordLimit hnext
  have hfirst : ∀ v ∈ p.pointsBy s, 0 < v := fun v hv => by
    rcases List.mem_cons.mp hv with rfl | hmem
    · exact Nat.two_pow_pos _
    · exact Nat.lt_of_le_of_lt (Nat.zero_le _) (lt_of_mem_pointsAfter hmem)
  refine ⟨p.pointsBy s, answer_axis s p, rfl, hrising, hchain, hword,
    fun v hv => lt_limit_of_mem_dropLast hv, fun v hv => ?_, ?_⟩
  · refine (last_of_pointsAfter hv).imp id fun hnone => ?_
    have hmem := List.mem_of_getLast? hv
    have hpos := hfirst v hmem
    have hmax : max v 1 = v := Nat.max_eq_left hpos
    have hout := runsOut_of_next?_eq_none (by rw [hmax]; exact hends v hpos (hword v hmem)) hnone
    rwa [hmax] at hout
  · exact Nat.succ_le_succ (Nat.le_trans length_pointsAfter_le (Nat.sub_le _ _))

theorem axis_points_are_finite_chain_octaves :
    ∃ points : List Nat, points.head? = some (2 ^ 62) ∧ points.IsChain (fun u v => next? 1 u = some v) ∧
      ∀ v ∈ points.getLast?, 2 ^ 63 ≤ v ∨ (Steps.binary64.tries 1 v).RunsOut v := by
  obtain ⟨points, -, hhead, -, hchain, -, -, hlast, -⟩ := axis_points_are_finite_chain Steps.binary64
    { lgMinUpdates := 62, lgMaxUpdates := 63, perOctave := 1 } (by decide)
    fun c hc hc' => ends_binary64 (by decide) (by decide) hc hc'
  exact ⟨points, hhead, hchain, hlast⟩

end chain

end SpeedTrial.Plan
