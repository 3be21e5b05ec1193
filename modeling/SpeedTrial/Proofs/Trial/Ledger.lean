import SpeedTrial.Proofs.Trial.Runs
import Mathlib.Algebra.BigOperators.Group.Finset.Piecewise
import Mathlib.Algebra.GroupWithZero.Nat

/-!
# The tally and the history

While a trial is running or over, the tally is what the history says: how the trial began, who has
reported, and how many units were counted for whom.  A `Ledger` collects this, together with whom
the first writer to report has frozen.

Main statement: `Run.ledger`.
-/

namespace SpeedTrial.Trial

variable {U S : Type} {work : U → S → U × S} {freeze : FreezeScope} {shared : S}
  {h : History U S} {m m' : Machine U S} {e : Machine.Event U} {x : Moment U S}

/-! ## The history since a trial began -/

section since

variable {b : Beginning} (h : History U S)

theorem contributions_cons_of_some (hb : x.begins? = some b) (s : Slot) :
    contributions s (x :: h) = [] := by
  rw [contributions, current_cons_of_some h hb, List.filterMap_nil]

theorem contributions_cons_of_none (hb : x.begins? = none) (s : Slot) :
    contributions s (x :: h) = (x.at s).units?.toList ++ contributions s h := by
  rw [contributions, current_cons_of_none h hb, List.filterMap_cons]
  cases (x.at s).units? <;> rfl

theorem acceptances_cons_of_some (hb : x.begins? = some b) (r : Role) :
    acceptances r (x :: h) = [] := by
  rw [acceptances, current_cons_of_some h hb]
  rfl

theorem acceptances_cons_of_none (hb : x.begins? = none) (hx : x.accepted? = none) (r : Role) :
    acceptances r (x :: h) = acceptances r h := by
  rw [acceptances, current_cons_of_none h hb, List.filterMap_cons_none hx, acceptances]

theorem acceptances_cons_of_accepted (hb : x.begins? = none) {s : Slot}
    (hx : x.accepted? = some s) (r : Role) :
    acceptances r (x :: h) = if s.role = r then s :: acceptances r h else acceptances r h := by
  rw [acceptances, current_cons_of_none h hb, List.filterMap_cons_some hx, List.filter_cons,
    acceptances]
  by_cases hr : s.role = r <;> simp [hr]

theorem account_units (s : Slot) : (account s h).units = returned s h := by
  rw [Account.units, account_episode, returned, List.count, List.countP_map]
  rfl

theorem account_counts (s : Slot) : (account s h).counts = contributions s h := by
  rw [Account.counts, account_episode, contributions, List.filterMap_map]
  rfl

end since

/-! ## What one event does to a tally -/

/-- Only the beginning of a trial and the end of a reset take back what was counted. -/
theorem opsOf_eq_or_zero (hc : m.Coherent) (hs : m.step work e = some m')
    (hno : ∀ s trial n, Moment.at ⟨m, e, m'⟩ s ≠ .counted trial n) (r : Role) :
    m'.tally.opsOf r = m.tally.opsOf r ∨
      m'.tally.opsOf r = 0 ∧
        (Moment.begins? ⟨m, e, m'⟩ ≠ none ∨ Moment.Resets ⟨m, e, m'⟩) := by
  -- what counts is excluded, and all else keeps the units or starts from zero
  cases Machine.Move.of_step hs with
  | @count s w trial done hw hp =>
    refine absurd ?_ (hno s trial done)
    rw [Machine.at_worker hw, hp]
    simp [Point.meaning]
  | begin hcall => exact .inr ⟨by simp, .inl (by simp [Moment.begins?, hcall])⟩
  | @endReset t kept hcall =>
    exact .inr ⟨by simp, .inr ⟨t, kept, hcall, .inl rfl, by simp⟩⟩
  | launch _ hl =>
    left
    rw [(hc.unborn hl).1]
    cases r <;> rfl
  | fail => exact .inl rfl
  | _ => exact .inl (by simp)

/-- An event that neither begins a trial nor ends a reset leaves who has reported, unless it
accepts a report. -/
theorem flags_of_not_accepted (hs : m.step work e = some m')
    (hb : Moment.begins? ⟨m, e, m'⟩ = none) (hph : m'.tally.phase ≠ .ready)
    (hno : Moment.accepted? ⟨m, e, m'⟩ = none) (r : Role) :
    m'.tally.flags r = m.tally.flags r := by
  cases Machine.Move.of_step hs with
  | accept hw hp _ ha => simp [Moment.accepted?, hw, hp, ha] at hno
  | begin hcall => simp [Moment.begins?, hcall] at hb
  | endReset => simp at hph
  | launch => simp [Tally.fresh] at hph
  | fail => rfl
  | _ => simp

/-- What is counted is added to what was counted for the role. -/
theorem opsOf_of_counted (hs : m.step work e = some m') {s : Slot} {trial units : Nat}
    (hx : Moment.at ⟨m, e, m'⟩ s = .counted trial units) (r : Role) :
    m'.tally.opsOf r = m.tally.opsOf r + if r = s.role then units else 0 := by
  -- the step behind it is that of a worker which delivers and has nobody left to freeze
  obtain ⟨w, rfl, hw, hp⟩ := Moment.cause_of hx
  simp only [Machine.step, Machine.stepWorker, hw, hp, Option.some.injEq] at hs
  rw [← hs, Machine.moveTo_eq]
  simp

/-- Only one report is counted at a time. -/
theorem units?_of_counted {s s' : Slot} {trial units : Nat} (hx : x.at s = .counted trial units)
    (hs : s' ≠ s) : (x.at s').units? = none := by
  obtain ⟨w, he, hw, hp⟩ := Moment.cause_of hx
  cases hx' : x.at s' with
  | counted trial' units' =>
    obtain ⟨w', he', -⟩ := Moment.cause_of hx'
    rw [he] at he'
    cases he'
    exact absurd rfl hs
  | _ => rfl

theorem units?_of_not_counted (hno : ∀ s trial units, x.at s ≠ .counted trial units) (s : Slot) :
    (x.at s).units? = none := by
  cases hx : x.at s with
  | counted trial units => exact absurd hx (hno s trial units)
  | _ => rfl

/-- What is behind a report that is accepted. -/
theorem Moment.cause_of_accepted {s : Slot} (hx : x.accepted? = some s) :
    ∃ w trial done, x.event = .worker s ∧ x.before.worker? s = some w ∧
      w.point = .report trial done ∧ x.before.tally.accepts s trial = true := by
  unfold Moment.accepted? at hx
  split at hx
  · next t he =>
    split at hx
    · next trial done hp =>
      split at hx
      · next ha =>
        cases hx
        obtain ⟨w, hw, hpt⟩ := Option.map_eq_some_iff.mp hp
        exact ⟨w, trial, done, he, hw, hpt, ha⟩
      · cases hx
    · cases hx
  · cases hx

/-- A report that is accepted is marked. -/
theorem tally_of_accepted (hs : m.step work e = some m') {s : Slot}
    (hx : Moment.accepted? ⟨m, e, m'⟩ = some s) :
    m.tally.hasReported s = false ∧ m'.tally = m.tally.mark s ∧ ∃ w, m.worker? s = some w := by
  obtain ⟨w, trial, done, rfl, hw, hp, ha⟩ := Moment.cause_of_accepted hx
  refine ⟨((Tally.accepts_iff _ _ _).mp ha).2.2, ?_, w, hw⟩
  simp only [Machine.step, Machine.stepWorker, hw, hp, Machine.beginReport] at hs
  split at hs
  · cases hs
  · rw [if_pos ha, Option.some.injEq] at hs
    rw [← hs, Machine.moveTo_eq, Machine.tally_onSlot]

/-- A sum over the slots of a role finds one slot if it is there. -/
theorem sum_slot {r : Role} {s : Slot} {len units : Nat} (hs : s.role = r → s.index < len) :
    ∑ i ∈ Finset.range len, (if (⟨r, i⟩ : Slot) = s then units else 0) =
      if r = s.role then units else 0 := by
  obtain ⟨rs, j⟩ := s
  by_cases hr : r = rs
  · subst hr
    have hj : j < len := hs rfl
    simp [Finset.sum_ite_eq', hj]
  · simp [hr]

/-! ## The ledger -/

/-- The tally of a trial that is running or over is what the history says. -/
structure Ledger (h : History U S) (m : Machine U S) : Prop where
  latest : ∃ b, latest? h = some b ∧ b.trial = m.tally.trial ∧
    b.quota = Plan.quotaPerWriter b.total m.writers.length ∧
    ((∃ todo, (m.caller b.thread).call = .resuming b.quota todo) ∨
      ∃ x ∈ current h, x.Answers b.thread (.ok (.quota b.quota)))
  /-- What is counted for a role is what is counted for its workers. -/
  ops : ∀ r, m.tally.opsOf r =
    ∑ i ∈ Finset.range (m.workers r).length, (contributions ⟨r, i⟩ h).sum
  /-- Who is marked has reported, and nobody twice. -/
  marked : ∀ s w, m.worker? s = some w →
    (m.tally.hasReported s = true ↔ s ∈ acceptances s.role h)
  length_accepted : ∀ r, (acceptances r h).length = (m.tally.flags r).count true
  accepted_worker : ∀ r, ∀ s ∈ acceptances r h, s.role = r ∧ ∃ w, m.worker? s = some w
  /-- Who is frozen is so by the first writer that reported, and a writer only if everyone is to
  be frozen. -/
  frozen : ∀ s, .frozen ∈ (account s h).episode →
    (s.role = .writer → m.freeze = .everyone) ∧
      ∃ f, (acceptances .writer h).getLast? = some f ∧ f ≠ s

/-! ### When a trial begins -/

/-- What an event that begins a trial does. -/
theorem tally_of_begins? (hs : m.step work e = some m') {b : Beginning}
    (hb : Moment.begins? ⟨m, e, m'⟩ = some b) :
    e = .call b.thread ∧ (m.caller b.thread).call = .runAtFlag b.total ∧
      m.tally.phase = .ready ∧
      m' = { m with tally := m.tally.begun m.clock }.setCaller b.thread
        { call := .resuming b.quota (m.resumeScript b.quota (m.tally.trial + 1)) } ∧
      b.trial = m.tally.trial + 1 ∧ b.quota = Plan.quotaPerWriter b.total m.writers.length := by
  cases Machine.Move.of_step hs with
  | @begin t total hcall hst hph =>
    obtain rfl : ⟨t, m.tally.trial + 1, total, Plan.quotaPerWriter total m.writers.length⟩ = b := by
      simpa [Moment.begins?, hcall] using hb
    exact ⟨rfl, hcall, hph, rfl, rfl, rfl⟩
  | @ask t e c he hh =>
    -- a caller that is about to start a trial holds the lock, and this one does not
    rcases he with rfl | ⟨op, rfl⟩
    · cases hcall : (m.caller t).call with
      | runAtFlag total => simp [hcall, Call.holds] at hh
      | _ => simp [Moment.begins?, hcall] at hb
    · cases hb
  | fail he =>
    rcases he with rfl | ⟨expected, actual, unit, rfl⟩ <;> cases hb
  | own | accept | refuse | freeze | count | release | finish | panic | register | launch | tick =>
    cases hb
  | lockRun hcall | runRefused hcall | hand hcall | endRun hcall | resetRefused hcall
  | startReset hcall | clear hcall | skip hcall | busy hcall | endReset hcall | unlock hcall
  | flag hcall | halt hcall => simp [Moment.begins?, hcall] at hb

theorem Ledger.of_begins? (hc : m.Coherent) (hs : m.step work e = some m') {b : Beginning}
    (hb : Moment.begins? ⟨m, e, m'⟩ = some b) : Ledger (⟨m, e, m'⟩ :: h) m' := by
  obtain ⟨rfl, hcall, hph, hm', htrial, hquota⟩ := tally_of_begins? hs hb
  -- nothing has happened in the trial, and nothing is counted or marked
  constructor
  · refine ⟨b, latest?_cons_of_some h hb, ?_, ?_, .inl ⟨m.resumeScript b.quota b.trial, ?_⟩⟩
    · simp [hm', htrial]
    · simp [hm', hquota]
    · simp [hm', htrial]
  · intro r
    simp only [contributions_cons_of_some h hb]
    simp [hm']
  · intro s w hw
    have hl := (hc.asked b.thread b.total (.inr hcall)).1
    have hw' : m.worker? s = some w := by simpa [hm'] using hw
    have hrep := Tally.hasReported_begun m.tally m.clock (hc.index_lt_flags hl hw')
    rw [acceptances_cons_of_some h hb]
    simp [hm', hrep]
  · intro r
    rw [acceptances_cons_of_some h hb]
    simp [hm', List.count_replicate]
  · intro r s hs'
    rw [acceptances_cons_of_some h hb] at hs'
    cases hs'
  · intro s hf
    rw [account_cons_of_some hb] at hf
    cases hf

/-! ### While a trial is running or over -/

/-- An event that neither begins a trial nor ends a reset leaves the number of the trial, the
roster and the scope. -/
theorem frame_of_not_begun (hc : m.Coherent) (hs : m.step work e = some m')
    (hb : Moment.begins? ⟨m, e, m'⟩ = none) (hph : m'.tally.phase ≠ .ready) :
    m'.tally.trial = m.tally.trial ∧ (∀ r, (m'.workers r).length = (m.workers r).length) ∧
      (∀ s, (m'.worker? s).isSome = (m.worker? s).isSome) ∧ m'.freeze = m.freeze := by
  cases Machine.Move.of_step hs with
  | begin hcall => simp [Moment.begins?, hcall] at hb
  | endReset => simp at hph
  | launch => simp [Tally.fresh] at hph
  | register _ hl => simp [(hc.unborn hl).1] at hph
  | fail => exact ⟨rfl, fun _ => rfl, fun _ => rfl, rfl⟩
  | _ => simp

section next

variable (hl : Ledger h m) (hc : m.Coherent) (hs : m.step work e = some m')
  (hb : Moment.begins? ⟨m, e, m'⟩ = none) (hph : m'.tally.phase ≠ .ready)

include hl hc hs hb hph

theorem Ledger.latest_next :
    ∃ b, latest? (⟨m, e, m'⟩ :: h) = some b ∧ b.trial = m'.tally.trial ∧
      b.quota = Plan.quotaPerWriter b.total m'.writers.length ∧
      ((∃ todo, (m'.caller b.thread).call = .resuming b.quota todo) ∨
        ∃ x ∈ current (⟨m, e, m'⟩ :: h), x.Answers b.thread (.ok (.quota b.quota))) := by
  obtain ⟨b, hlatest, htrial, hquota, hans⟩ := hl.latest
  obtain ⟨hframe, hlen, -, -⟩ := frame_of_not_begun hc hs hb hph
  have hwriters : m'.writers.length = m.writers.length := hlen .writer
  refine ⟨b, by rw [latest?_cons_of_none h hb, hlatest], by rw [htrial, hframe],
    by rw [hquota, hwriters], ?_⟩
  rw [current_cons_of_none h hb]
  rcases hans with ⟨todo, hcall⟩ | ⟨x, hx, hans⟩
  · -- the thread that began the trial goes on to hand out quota, or gets its answer
    cases Machine.Move.of_step hs with
    | @hand t quota s a todo' hcall' =>
      by_cases ht : b.thread = t
      · rw [ht, hcall', Call.resuming.injEq] at hcall
        exact .inl ⟨todo', by simp [ht, hcall.1]⟩
      · exact .inl ⟨todo, by simpa [ht] using hcall⟩
    | @endRun t quota hcall' =>
      by_cases ht : b.thread = t
      · rw [ht, hcall', Call.resuming.injEq] at hcall
        refine .inr ⟨_, List.mem_cons_self .., .inl (by rw [ht]), ?_⟩
        simp [ht, hcall.1]
      · exact .inl ⟨todo, by simpa [ht] using hcall⟩
    | @ask t _ c _ hh =>
      have ht : b.thread ≠ t := by
        rintro rfl
        rw [hcall] at hh
        cases hh
      exact .inl ⟨todo, by simpa [ht] using hcall⟩
    | fail => exact .inl ⟨todo, hcall⟩
    | _ =>
      left
      refine ⟨todo, ?_⟩
      simp
      grind
  · exact .inr ⟨x, List.mem_cons_of_mem _ hx, hans⟩

theorem Ledger.ops_next (r : Role) :
    m'.tally.opsOf r =
      ∑ i ∈ Finset.range (m'.workers r).length, (contributions ⟨r, i⟩ (⟨m, e, m'⟩ :: h)).sum := by
  obtain ⟨-, hlen, hroster, -⟩ := frame_of_not_begun hc hs hb hph
  rw [hlen r]
  by_cases hcount : ∃ s trial units, Moment.at ⟨m, e, m'⟩ s = .counted trial units
  · -- both sides grow by what is counted for that slot
    obtain ⟨s, trial, units, hx⟩ := hcount
    have hsum : ∀ i, (contributions ⟨r, i⟩ (⟨m, e, m'⟩ :: h)).sum =
        (if (⟨r, i⟩ : Slot) = s then units else 0) + (contributions ⟨r, i⟩ h).sum := by
      intro i
      rw [contributions_cons_of_none h hb, List.sum_append]
      by_cases hi : (⟨r, i⟩ : Slot) = s
      · rw [hi, hx, if_pos rfl]
        simp [Happening.units?]
      · rw [units?_of_counted hx hi, if_neg hi]
        rfl
    rw [opsOf_of_counted hs hx, hl.ops r, Finset.sum_congr rfl fun i _ => hsum i,
      Finset.sum_add_distrib, Nat.add_comm]
    congr 1
    -- the slot that is counted is on the roster
    obtain ⟨w, -, hw, -⟩ := Moment.cause_of hx
    refine (sum_slot fun hr => ?_).symm
    have hlt := (Machine.mem_slots_iff m s).mp (Machine.mem_slots_of_worker? hw)
    rwa [hr] at hlt
  · push Not at hcount
    have hops : m'.tally.opsOf r = m.tally.opsOf r := by
      rcases opsOf_eq_or_zero hc hs hcount r with hops | ⟨-, hbegins | hresets⟩
      · exact hops
      · exact absurd hb hbegins
      · exact absurd (phase_of_resets hs hresets) hph
    rw [hops, hl.ops r]
    refine Finset.sum_congr rfl fun i _ => ?_
    rw [contributions_cons_of_none h hb, units?_of_not_counted hcount]
    rfl

theorem Ledger.marked_next (s : Slot) (w' : Worker U) (hw' : m'.worker? s = some w') :
    m'.tally.hasReported s = true ↔ s ∈ acceptances s.role (⟨m, e, m'⟩ :: h) := by
  obtain ⟨-, -, hroster, -⟩ := frame_of_not_begun hc hs hb hph
  obtain ⟨w, hw⟩ : ∃ w, m.worker? s = some w := by
    rw [← Option.isSome_iff_exists, ← hroster s, hw']
    rfl
  have hbefore := hl.marked s w hw
  cases hacc : Moment.accepted? ⟨m, e, m'⟩ with
  | none =>
    rw [acceptances_cons_of_none h hb hacc, ← hbefore, Tally.hasReported_eq,
      flags_of_not_accepted hs hb hph hacc, ← Tally.hasReported_eq]
  | some s₀ =>
    -- the slot that is marked is the newest of those that have reported
    obtain ⟨-, htally, -⟩ := tally_of_accepted hs hacc
    rw [htally, Tally.hasReported_mark, acceptances_cons_of_accepted h hb hacc]
    by_cases hs₀ : s = s₀
    · simp [hs₀]
    · by_cases hr : s₀.role = s.role <;> simp [hs₀, hr, hbefore]

omit hc in
theorem Ledger.length_accepted_next (r : Role) :
    (acceptances r (⟨m, e, m'⟩ :: h)).length = (m'.tally.flags r).count true := by
  cases hacc : Moment.accepted? ⟨m, e, m'⟩ with
  | none =>
    rw [acceptances_cons_of_none h hb hacc, flags_of_not_accepted hs hb hph hacc,
      hl.length_accepted]
  | some s₀ =>
    obtain ⟨hrep, htally, -⟩ := tally_of_accepted hs hacc
    rw [htally, Tally.count_flags_mark hrep, acceptances_cons_of_accepted h hb hacc,
      ← hl.length_accepted]
    by_cases hr : s₀.role = r
    · simp [hr]
    · simp [hr, Ne.symm hr]

theorem Ledger.accepted_worker_next (r : Role) :
    ∀ s ∈ acceptances r (⟨m, e, m'⟩ :: h), s.role = r ∧ ∃ w, m'.worker? s = some w := by
  obtain ⟨-, -, hroster, -⟩ := frame_of_not_begun hc hs hb hph
  -- nobody leaves the roster
  have hstays : ∀ s, (∃ w, m.worker? s = some w) → ∃ w, m'.worker? s = some w := by
    intro s hw
    rw [← Option.isSome_iff_exists] at hw ⊢
    rw [hroster s, hw]
  intro s hmem
  cases hacc : Moment.accepted? ⟨m, e, m'⟩ with
  | none =>
    rw [acceptances_cons_of_none h hb hacc] at hmem
    obtain ⟨hr, hw⟩ := hl.accepted_worker r s hmem
    exact ⟨hr, hstays s hw⟩
  | some s₀ =>
    obtain ⟨-, -, hw₀⟩ := tally_of_accepted hs hacc
    rw [acceptances_cons_of_accepted h hb hacc] at hmem
    by_cases hr : s₀.role = r
    · rw [if_pos hr, List.mem_cons] at hmem
      rcases hmem with rfl | hmem
      · exact ⟨hr, hstays s hw₀⟩
      · obtain ⟨hr, hw⟩ := hl.accepted_worker r s hmem
        exact ⟨hr, hstays s hw⟩
    · rw [if_neg hr] at hmem
      obtain ⟨hr, hw⟩ := hl.accepted_worker r s hmem
      exact ⟨hr, hstays s hw⟩

end next

/-- The first writer that reports is the only one so far while it freezes the others. -/
theorem Ledger.acceptances_of_freezing (hl : Ledger h m) (hc : m.Coherent) {s : Slot}
    {w : Worker U} (ho : (m.view s w).Orderly) (hw : m.worker? s = some w) {trial done : Nat}
    {todo : List (Slot × Access)} (hp : w.point = .freezing trial done todo)
    (hr : s.role = .writer) (hd : m.tally.doneWriters = 0) : acceptances .writer h = [s] := by
  have hpt := ho.point
  rw [show (m.view s w).point = .freezing trial done todo from hp] at hpt
  have hmem : s ∈ acceptances .writer h := hr ▸ (hl.marked s w hw).mp hpt.2.2.1
  -- no writer is counted, and one is marked: that which holds the lock
  have hlen : (acceptances .writer h).length = 1 := by
    rw [hl.length_accepted, hc.count_flags,
      Machine.delivering_of_lock (hc.lock_of_freezing hw hp) (Machine.point?_of_worker? hw)]
    simp [Tally.doneOf, hd, hr, hp]
  obtain ⟨f, hf⟩ := List.length_eq_one_iff.mp hlen
  rw [hf, List.mem_singleton] at hmem
  rw [hf, hmem]

theorem Ledger.frozen_next (hl : Ledger h m) (hc : m.Coherent)
    (ho : ∀ s w, m.worker? s = some w → (m.view s w).Orderly) (hs : m.step work e = some m')
    (hb : Moment.begins? ⟨m, e, m'⟩ = none) (hph : m'.tally.phase ≠ .ready) (s : Slot)
    (hf : .frozen ∈ (account s (⟨m, e, m'⟩ :: h)).episode) :
    (s.role = .writer → m'.freeze = .everyone) ∧
      ∃ f, (acceptances .writer (⟨m, e, m'⟩ :: h)).getLast? = some f ∧ f ≠ s := by
  obtain ⟨-, -, -, hfreeze⟩ := frame_of_not_begun hc hs hb hph
  rw [hfreeze]
  rw [account_cons_of_none hb, List.mem_cons] at hf
  rcases hf with hf | hf
  · -- the worker is frozen now, by the only writer that has reported
    obtain ⟨t, w, trial, done, quota, todo, rfl, hw, hp⟩ := Moment.cause_of hf.symm
    obtain ⟨-, -, hall⟩ :=
      hc.freezing _ _ _ _ (by rw [Machine.point?_of_worker? hw]; exact congrArg some hp)
    obtain ⟨hr, hd, hts, -, hscope⟩ := Machine.mem_freezeOthers (hall _ (List.mem_cons_self ..))
    have hacc : Moment.accepted? ⟨m, .worker t, m'⟩ = none := by
      have hw' : m.worker? t = some w := hw
      simp [Moment.accepted?, hw', hp]
    refine ⟨hscope, t, ?_, Ne.symm hts⟩
    rw [acceptances_cons_of_none h hb hacc, hl.acceptances_of_freezing hc (ho t w hw) hw hp hr hd]
    rfl
  · -- the worker was frozen before, and later reports do not change which was the first
    obtain ⟨hscope, f, hlast, hne⟩ := hl.frozen s hf
    refine ⟨hscope, f, ?_, hne⟩
    cases hacc : Moment.accepted? ⟨m, e, m'⟩ with
    | none => rw [acceptances_cons_of_none h hb hacc, hlast]
    | some s₀ =>
      rw [acceptances_cons_of_accepted h hb hacc]
      split
      · rw [List.getLast?_cons, hlast]
        rfl
      · exact hlast

/-! ## The ledger of a run -/

theorem Run.ledger (run : Run work (.empty freeze shared) h m) (hph : m.tally.phase ≠ .ready) :
    Ledger h m := by
  -- a run in which no trial is running or over has no ledger; the beginning of one makes it
  induction run with
  | start => exact absurd rfl hph
  | @next h m m' e run hs ih =>
    have hc := run.coherent
    cases hb : Moment.begins? ⟨m, e, m'⟩ with
    | some b => exact .of_begins? hc hs hb
    | none =>
      have hl := ih fun hready => hph (phase_of_ready hc hs hb hready)
      exact {
        latest := hl.latest_next hc hs hb hph
        ops := hl.ops_next hc hs hb hph
        marked := hl.marked_next hc hs hb hph
        length_accepted := hl.length_accepted_next hs hb hph
        accepted_worker := hl.accepted_worker_next hc hs hb hph
        frozen := hl.frozen_next hc run.orderly hs hb hph }

/-! ## Complete trials -/

/-- Every worker of a complete trial is counted once, for what settles its account. -/
theorem Run.settled (run : Run work (.empty freeze shared) h m) (hph : m.tally.phase = .complete)
    {s : Slot} {w : Worker U} (hw : m.worker? s = some w) :
    ∃ n, contributions s h = [n] ∧ (account s h).Settles n := by
  have hrep := run.coherent.complete hph s
  have hpt := (run.orderly s w hw).point
  have hnf : ∀ trial done todo, (m.view s w).point ≠ .freezing trial done todo := by
    -- a worker that delivers holds the trial up
    intro trial done todo hp
    rw [hp] at hpt
    have hrun : m.tally.phase = .running := hpt.2.1
    rw [hph] at hrun
    cases hrun
  have hne : (m.view s w).phase ≠ .ready := by
    show m.tally.phase ≠ .ready
    rw [hph]
    simp
  obtain ⟨n, hn, hsettles⟩ := (run.accounted s w hw).settled hne hrep hnf
  exact ⟨n, by rw [← account_counts, hn], hsettles⟩

end SpeedTrial.Trial
