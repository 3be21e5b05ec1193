import SpeedTrial.Proofs.Trial.Delivery
import SpeedTrial.Proofs.Trial.Lifecycle
import Mathlib.Algebra.BigOperators.Group.List.Basic

/-!
# Any number of reports in any order

Once a trial has been started, reports may come in any order, and some of them again and again or
for other trials.  Of each worker the first one for the trial counts, and no other changes anything.

* `firstReports` picks out the reports that count, and `receive_firstReports` says that it does.
* `Tally.Open.receive` says what those reports come to.
* `reports_count_once` puts the two together for the state in which a trial has just been started.
-/

namespace SpeedTrial.Trial

/-! ## Reports that count -/

/-- A report with the time at which it comes. -/
structure Delivery extends Report where
  now : Nat
  deriving DecidableEq, Repr

/-- Of each worker its first report for a trial. -/
def firstReports (trial : Nat) : List Delivery → List Delivery
  | [] => []
  | d :: ds =>
    if d.trial = trial then d :: (firstReports trial ds).filter fun d' => d'.slot ≠ d.slot
    else firstReports trial ds

section firstReports

variable {trial : Nat} {ds : List Delivery}

theorem mem_of_mem_firstReports {d : Delivery} (hd : d ∈ firstReports trial ds) :
    d ∈ ds ∧ d.trial = trial := by
  induction ds with
  | nil => cases hd
  | cons d' ds ih =>
    rw [firstReports] at hd
    split at hd
    · next ht =>
      rcases List.mem_cons.mp hd with rfl | hd
      · exact ⟨List.mem_cons_self .., ht⟩
      · obtain ⟨hmem, hd⟩ := ih (List.mem_of_mem_filter hd)
        exact ⟨List.mem_cons_of_mem _ hmem, hd⟩
    · obtain ⟨hmem, hd⟩ := ih hd
      exact ⟨List.mem_cons_of_mem _ hmem, hd⟩

/-- No worker has two first reports. -/
theorem nodup_firstReports : ((firstReports trial ds).map fun d => d.slot).Nodup := by
  induction ds with
  | nil => exact .nil
  | cons d ds ih =>
    rw [firstReports]
    split
    · rw [List.map_cons, List.nodup_cons]
      constructor
      · -- the later reports of the worker are left out
        intro hmem
        obtain ⟨d', hd', hslot⟩ := List.mem_map.mp hmem
        have hne := (List.mem_filter.mp hd').2
        simp [hslot] at hne
      · exact ih.sublist (List.filter_sublist.map _)
    · exact ih

end firstReports

/-! ## Tallies that take reports -/

namespace Tally

variable {t t' : Tally}

/-- What a report does to a tally that waits for it. -/
theorem Open.report_eq (ho : t.Open) {s : Slot} (hs : t.hasReported s = false) (now units : Nat) :
    t.report now s t.trial units = (t.mark s).count now s units ∧
      (t.report now s t.trial units).Open := by
  have hph := ho.running hs
  have heq : t.report now s t.trial units = (t.mark s).count now s units := by
    rw [report, if_pos ((accepts_iff _ _ _).mpr ⟨hph, rfl, hs⟩)]
  refine ⟨heq, ?_⟩
  rw [heq]
  have hcount := count_flags_mark hs
  -- the worker is marked first, and is the one that is then counted
  have hlt : (t.mark s).doneOf s.role < ((t.mark s).flags s.role).length := by
    have hle : ((t.mark s).flags s.role).count true ≤ ((t.mark s).flags s.role).length :=
      List.count_le_length
    rw [hcount, if_pos rfl, ← ho.counted] at hle
    rw [doneOf_mark]
    omega
  constructor
  · exact (ho.balanced.mark s).count (by simpa using hph) hlt now units
  · rcases (t.mark s).phase_count_or now s units with h | h <;> simp [h, hph]
  · intro r
    rw [doneOf_count, doneOf_mark, flags_count, hcount, ho.counted]

/-- Takes reports one after the other. -/
def receive (t : Tally) (ds : List Delivery) : Tally :=
  ds.foldl (fun t d => t.report d.now d.slot d.trial d.units) t

theorem receive_cons (t : Tally) (d : Delivery) (ds : List Delivery) :
    t.receive (d :: ds) = (t.report d.now d.slot d.trial d.units).receive ds := rfl

/-- What reports come to that are the first ones of different workers. -/
structure Received (t : Tally) (ds : List Delivery) (t' : Tally) : Prop where
  opened : t'.Open
  length_flags : ∀ r, (t'.flags r).length = (t.flags r).length
  ops : ∀ r, t'.opsOf r =
    t.opsOf r + ((ds.filter fun d => d.slot.role = r).map fun d => d.units).sum
  done : ∀ r, t'.doneOf r = t.doneOf r + (ds.filter fun d => d.slot.role = r).length
  reported : ∀ s, t'.hasReported s = true ↔ t.hasReported s = true ∨ ∃ d ∈ ds, d.slot = s

theorem Open.receive (ho : t.Open) {ds : List Delivery} (hnd : (ds.map fun d => d.slot).Nodup)
    (hds : ∀ d ∈ ds, d.trial = t.trial ∧ t.hasReported d.slot = false) :
    Received t ds (t.receive ds) := by
  -- by induction on the reports: each is for a worker that is still waited for
  induction ds generalizing t with
  | nil =>
    exact ⟨ho, fun _ => rfl, fun _ => rfl, fun _ => rfl, fun s => by simp [Tally.receive]⟩
  | cons d ds ih =>
    obtain ⟨htrial, hfresh⟩ := hds d (List.mem_cons_self ..)
    rw [List.map_cons, List.nodup_cons] at hnd
    obtain ⟨heq, ho'⟩ := ho.report_eq hfresh d.now d.units
    rw [receive_cons, htrial]
    have hrest := ih ho' hnd.2 fun d' hd' => by
      obtain ⟨htrial', hfresh'⟩ := hds d' (List.mem_cons_of_mem _ hd')
      have hne : d'.slot ≠ d.slot := fun h => hnd.1 (h ▸ List.mem_map_of_mem hd')
      simp [heq, htrial', hfresh', hne]
    refine ⟨hrest.opened, fun r => ?_, fun r => ?_, fun r => ?_, fun s => ?_⟩
    · rw [hrest.length_flags, heq, flags_count, length_flags_mark]
    · rw [hrest.ops, heq, opsOf_count, opsOf_mark, List.filter_cons]
      by_cases hr : d.slot.role = r
      · simp [hr, Nat.add_assoc]
      · simp [hr, Ne.symm hr]
    · rw [hrest.done, heq, doneOf_count, doneOf_mark, List.filter_cons]
      by_cases hr : d.slot.role = r
      · simp [hr, Nat.add_assoc, Nat.add_comm 1]
      · simp [hr, Ne.symm hr]
    · rw [hrest.reported, heq, hasReported_count, hasReported_mark]
      simp only [Bool.or_eq_true, decide_eq_true_eq, List.exists_mem_cons_iff, eq_comm (a := s)]
      rw [or_comm (a := d.slot = s), or_assoc]

/-- Reports that count for the same come to the same in any order. -/
theorem Received.eq_of_perm {ds ds' : List Delivery} {t₁ t₂ : Tally} (h₁ : Received t ds t₁)
    (h₂ : Received t ds' t₂)
    (hperm : (ds'.map Delivery.toReport).Perm (ds.map Delivery.toReport)) :
    t₂.phase = t₁.phase ∧ ∀ r, t₂.opsOf r = t₁.opsOf r ∧ t₂.doneOf r = t₁.doneOf r ∧
      t₂.flags r = t₁.flags r := by
  -- By role: a tally keeps sums, and in sums the order does not matter.
  have hrole : ∀ r, ((ds'.filter fun d => d.slot.role = r).map Delivery.toReport).Perm
      ((ds.filter fun d => d.slot.role = r).map Delivery.toReport) := by
    intro r
    simpa [List.filter_map, Function.comp_def] using
      hperm.filter fun report : Report => report.slot.role = r
  have hunits : ∀ l : List Delivery,
      l.map (fun d => d.units) = (l.map Delivery.toReport).map Report.units := by simp
  have hslots : ∀ (l : List Delivery) (s : Slot),
      (∃ d ∈ l, d.slot = s) ↔ s ∈ (l.map Delivery.toReport).map Report.slot := by simp
  -- A slot has reported if its report is among them, in whatever order.
  have hrep : ∀ s, t₂.hasReported s = t₁.hasReported s := by
    intro s
    rw [Bool.eq_iff_iff, h₁.reported, h₂.reported, hslots, hslots,
      (hperm.map Report.slot).mem_iff]
  refine ⟨h₁.opened.phase_eq h₂.opened hrep, fun r => ⟨?_, ?_, ?_⟩⟩
  · rw [h₁.ops, h₂.ops, hunits, hunits, ((hrole r).map Report.units).sum_eq]
  · have hlen := (hrole r).length_eq
    simp only [List.length_map] at hlen
    rw [h₁.done, h₂.done, hlen]
  · exact flags_eq ((h₂.length_flags r).trans (h₁.length_flags r).symm) hrep

end Tally

/-! ## Machines that take reports -/

variable {U S : Type} {work : U → S → U × S} {freeze : FreezeScope} {shared : S}
  {h : History U S} {m m' : Machine U S} {e : Machine.Event U} {x : Moment U S}

namespace Machine

/-- Takes reports one after the other, with nothing else in between. -/
def receive (m : Machine U S) (ds : List Delivery) : Machine U S :=
  ds.foldl (fun m d => m.deliver d.now d.toReport) m

theorem receive_cons (m : Machine U S) (d : Delivery) (ds : List Delivery) :
    m.receive (d :: ds) = (m.deliver d.now d.toReport).receive ds := rfl

theorem tally_receive (m : Machine U S) (ds : List Delivery) :
    (m.receive ds).tally = m.tally.receive ds := by
  induction ds generalizing m with
  | nil => rfl
  | cons d ds ih => rw [receive_cons, ih, tally_deliver, Tally.receive_cons]

theorem deliver_of_refused {r : Report} (hr : m.tally.accepts r.slot r.trial = false) (now : Nat) :
    m.deliver now r = m := by
  rw [deliver, if_neg (by simp [hr])]

/-- Only a trial that is running takes reports. -/
theorem receive_of_not_running (hph : m.tally.phase ≠ .running) (ds : List Delivery) :
    m.receive ds = m := by
  induction ds with
  | nil => rfl
  | cons d ds ih =>
    have hr : m.tally.accepts d.slot d.trial = false := by
      rw [← Bool.not_eq_true, Tally.accepts_iff]
      exact fun ha => hph ha.1
    rw [receive_cons, deliver_of_refused hr, ih]

/-- Reports come to the same as the first ones of those workers that have not reported yet. -/
theorem receive_firstReports (m : Machine U S) (ds : List Delivery) :
    m.receive ds = m.receive
      ((firstReports m.tally.trial ds).filter fun d => !m.tally.hasReported d.slot) := by
  -- by induction on the reports, the first of which is accepted or not
  induction ds generalizing m with
  | nil => rfl
  | cons d ds ih =>
    by_cases hph : m.tally.phase = .running
    · by_cases htrial : d.trial = m.tally.trial
      · rw [firstReports, if_pos htrial, List.filter_cons, List.filter_filter, receive_cons]
        cases hrep : m.tally.hasReported d.slot with
        | true =>
          -- the worker has reported, and all its reports are left out
          have hr : m.tally.accepts d.slot d.trial = false := by simp [Tally.accepts, hrep]
          rw [deliver_of_refused hr, ih]
          refine congrArg m.receive (List.filter_congr fun d' _ => ?_)
          by_cases hslot : d'.slot = d.slot <;> simp [hslot, hrep]
        | false =>
          -- the report counts, and later ones of the worker do not
          have ha : m.tally.accepts d.slot d.trial = true := by
            rw [Tally.accepts_iff]
            exact ⟨hph, htrial, hrep⟩
          have htally : (m.deliver d.now d.toReport).tally =
              (m.tally.mark d.slot).count d.now d.slot d.units := by
            rw [tally_deliver, Tally.report, if_pos ha]
          rw [Bool.not_false, if_pos rfl, receive_cons, ih, htally]
          refine congrArg (m.deliver d.now d.toReport).receive ?_
          rw [Tally.trial_count, Tally.trial_mark]
          refine List.filter_congr fun d' _ => ?_
          by_cases hslot : d'.slot = d.slot <;> simp [hslot]
      · -- the report is of another trial
        have hr : m.tally.accepts d.slot d.trial = false := by
          simp [Tally.accepts, Ne.symm htrial]
        rw [firstReports, if_neg htrial, receive_cons, deliver_of_refused hr, ih]
    · rw [receive_of_not_running hph, receive_of_not_running hph]

end Machine

/-! ## When a trial has just been started -/

/-- While a trial is being started nothing is counted. -/
theorem Run.begun_of_starting (run : Run work (.empty freeze shared) h m)
    (hst : m.starting = 1) : ∃ (t : Tally) (now : Nat), m.tally = t.begun now := by
  induction run with
  | start => cases hst
  | @next h m m' e run hs ih =>
    have hc := run.coherent
    cases run.course hs with
    | begins _ _ _ _ htrial =>
      exact ⟨m.tally, m.clock, ((Machine.Move.of_step hs).of_trial_succ htrial).2⟩
    | runs _ _ _ hst' | resets _ _ _ hst' => simp [hst'] at hst
    | keeps hran hreset hst' htrial =>
      obtain ⟨t, now, htally⟩ := ih (hst'.symm.trans hst)
      -- a thread is starting the trial with the lock, so nobody else can change the tally
      obtain ⟨t', ht'⟩ := Machine.exists_holds_of_starting (m := m) (by rw [← hst', hst]; simp)
      have hlock := (hc.lock_caller t').mpr ht'
      refine ⟨t, now, ?_⟩
      rw [← htally]
      cases Machine.Move.of_step hs with
      | accept _ _ hl => simp [hl] at hlock
      | count hw hp => exact absurd (hc.lock_of_freezing hw hp) (hc.not_worker_of_call ht' _)
      | begin => simp at htrial
      | endReset hcall => exact absurd ⟨_, _, hcall, .inl rfl, by simp⟩ hreset
      | launch hq hl =>
        rw [hc.lock_of_not_launched hl] at hlock
        cases hlock
      | fail => rfl
      | _ => simp

/-- The tally of a trial that has just been started takes reports, and nothing is counted in it. -/
theorem Run.opened_of_ranTrial (run : Run work (.empty freeze shared) (x :: h) m)
    (hx : x.ranTrial = true) :
    m.lock = none ∧ m.tally.Open ∧ (∀ r, m.tally.opsOf r = 0 ∧ m.tally.doneOf r = 0) ∧
      ∀ s, m.tally.hasReported s = false ↔ s ∈ m.slots := by
  obtain ⟨run₀, hs, rfl⟩ := run.next_inv
  have hc := run.coherent
  obtain ⟨t, quota, he, hcall⟩ := (run₀.ranTrial_iff hs).mp hx
  -- What was begun is still as it was, since nothing is counted before the lock is free.
  cases run₀.course hs with
  | runs _ _ hst _ htally hph =>
    obtain ⟨t', now, hbegun⟩ := run₀.begun_of_starting hst
    rw [hbegun] at htally
    have hne : x.after.tally.phase ≠ .ready := by simp [htally]
    have hlen := hc.length_flags (hc.staffed hne).1
    have hfree : x.after.lock = none := by
      rw [he] at hs
      simp only [Machine.step, Machine.stepCall, hcall, Option.some.injEq] at hs
      simp [← hs, Machine.unlock, Machine.reply]
    refine ⟨hfree, run.opened hfree hne, fun r => by simp [htally], fun s => ?_⟩
    rw [Machine.mem_slots_iff, ← hlen, htally]
    constructor
    · exact fun hrep => Tally.lt_of_unreported hrep
    · intro hlt
      exact t'.hasReported_begun now (by simpa using hlt)
  | keeps hran | begins hran | resets hran => cases hx.symm.trans hran

/-- What reports of workers on the roster come to once a trial has just been started. -/
theorem Run.received (run : Run work (.empty freeze shared) (x :: h) m)
    (hx : x.ranTrial = true) {ds : List Delivery} (hds : ∀ d ∈ ds, d.slot ∈ m.slots) :
    m.receive ds = m.receive (firstReports m.tally.trial ds) ∧
      m.tally.Received (firstReports m.tally.trial ds) (m.receive ds).tally := by
  obtain ⟨-, ho, -, hnone⟩ := run.opened_of_ranTrial hx
  have hkept : ∀ d ∈ firstReports m.tally.trial ds,
      d.trial = m.tally.trial ∧ m.tally.hasReported d.slot = false := by
    intro d hd
    obtain ⟨hmem, htrial⟩ := mem_of_mem_firstReports hd
    exact ⟨htrial, (hnone d.slot).mpr (hds d hmem)⟩
  have heq : m.receive ds = m.receive (firstReports m.tally.trial ds) := by
    rw [m.receive_firstReports ds, List.filter_eq_self.mpr]
    intro d hd
    simp [(hkept d hd).2]
  refine ⟨heq, ?_⟩
  rw [heq, Machine.tally_receive]
  exact ho.receive nodup_firstReports hkept

/-- From the moment on at which a trial has just been started, let any number of reports of workers
on the roster come in any order.  They come to the same as the first report of each worker for the
trial; the order of these does not matter to what is counted; and once the trial is complete no
report changes anything. -/
theorem reports_count_once (run : Run work (.empty freeze shared) (x :: h) m)
    (hx : x.ranTrial = true) (ds : List Delivery) (hds : ∀ d ∈ ds, d.slot ∈ m.slots) :
    let kept := firstReports m.tally.trial ds
    m.receive ds = m.receive kept ∧
      (∀ r, (m.receive ds).tally.opsOf r =
          ((kept.filter fun d => d.slot.role = r).map fun d => d.units).sum ∧
        (m.receive ds).tally.doneOf r = (kept.filter fun d => d.slot.role = r).length) ∧
      (∀ s ∈ m.slots,
        ((m.receive ds).tally.hasReported s = true ↔ ∃ d ∈ kept, d.slot = s)) ∧
      ((m.receive ds).tally.phase = .complete ↔ ∀ s ∈ m.slots, ∃ d ∈ kept, d.slot = s) ∧
      (∀ ds', (∀ d ∈ ds', d.slot ∈ m.slots) →
        ((firstReports m.tally.trial ds').map Delivery.toReport).Perm
          (kept.map Delivery.toReport) →
        (m.receive ds').tally.phase = (m.receive ds).tally.phase ∧
        ∀ r, (m.receive ds').tally.opsOf r = (m.receive ds).tally.opsOf r ∧
          (m.receive ds').tally.doneOf r = (m.receive ds).tally.doneOf r ∧
          (m.receive ds').tally.flags r = (m.receive ds).tally.flags r) ∧
      ((m.receive ds).tally.phase = .complete →
        ∀ ds', (m.receive ds).receive ds' = m.receive ds) := by
  intro kept
  obtain ⟨-, -, hzero, hnone⟩ := run.opened_of_ranTrial hx
  obtain ⟨heq, hrec⟩ := run.received hx hds
  have hreported : ∀ s ∈ m.slots,
      ((m.receive ds).tally.hasReported s = true ↔ ∃ d ∈ kept, d.slot = s) := by
    intro s hs
    rw [hrec.reported, (hnone s).mpr hs]
    simp [kept]
  refine ⟨heq, fun r => ⟨?_, ?_⟩, hreported, ?_, fun ds' hds' hperm => ?_, fun hph ds' => ?_⟩
  · rw [hrec.ops, (hzero r).1, Nat.zero_add]
  · rw [hrec.done, (hzero r).2, Nat.zero_add]
  · rw [hrec.opened.complete_iff]
    constructor
    · exact fun hall s hs => (hreported s hs).mp (hall s)
    · intro hall s
      by_cases hs : s ∈ m.slots
      · exact (hreported s hs).mpr (hall s hs)
      · -- nobody waits for a worker that is not on the roster
        rw [hrec.reported]
        exact .inl (by simpa [hs] using (hnone s).not)
  · exact hrec.eq_of_perm (run.received hx hds').2 hperm
  · exact Machine.receive_of_not_running (by simp [hph]) ds'

/-- Two writers and a reader are given their quotas. -/
def trioStart : List (Machine.Event Unit) := List.flatten [
  [.register .writer .writer (), .register .writer .writer (), .register .reader .reader (),
    .launch, .invoke .controlling (.run 4)],
  .replicate 9 (.call .controlling)]

/-- Reports of all three, with a repeated one and two of other trials between them. -/
def trioReports : List Delivery := [
  { slot := ⟨.reader, 0⟩, trial := 1, units := 7, now := 10 },
  { slot := ⟨.writer, 1⟩, trial := 2, units := 4, now := 11 },
  { slot := ⟨.writer, 0⟩, trial := 1, units := 3, now := 12 },
  { slot := ⟨.writer, 0⟩, trial := 1, units := 9, now := 13 },
  { slot := ⟨.writer, 1⟩, trial := 0, units := 6, now := 14 },
  { slot := ⟨.writer, 1⟩, trial := 1, units := 5, now := 15 }]

theorem reports_count_once_trio :
    let h := (Machine.empty .everyone ()).historyFrom idleWork [] trioStart
    ∃ m x h', Run idleWork (.empty .everyone ()) h m ∧ h = x :: h' ∧ x.ranTrial = true ∧
      (∀ d ∈ trioReports, d.slot ∈ m.slots) ∧
      (m.receive trioReports).tally.opsOf .writer = 8 ∧
      (m.receive trioReports).tally.opsOf .reader = 7 ∧
      (m.receive trioReports).tally.phase = .complete ∧
      ∀ ds, (m.receive trioReports).receive ds = m.receive trioReports := by
  intro h
  have hend : ((Machine.empty .everyone ()).steps idleWork trioStart).map
      (fun m => (m.tally.trial, m.slots)) =
        some (1, [⟨.writer, 0⟩, ⟨.writer, 1⟩, ⟨.reader, 0⟩]) := rfl
  obtain ⟨m, run, heq⟩ := Run.exists_of_map hend
  simp only [Prod.mk.injEq] at heq
  obtain ⟨htrial, hslots⟩ := heq
  have hne : h ≠ [] := by
    intro hnil
    have hlen : h.length = 14 := rfl
    rw [hnil] at hlen
    cases hlen
  have hsplit : h = h.head hne :: h.tail := (List.cons_head_tail hne).symm
  have hran : (h.head hne).ranTrial = true := rfl
  have hroster : ∀ d ∈ trioReports, d.slot ∈ m.slots := by
    rw [hslots]
    decide
  have run' : Run idleWork (.empty .everyone ()) (h.head hne :: h.tail) m := hsplit ▸ run
  obtain ⟨-, hcounts, -, hcomplete, -, hafter⟩ :=
    reports_count_once run' hran trioReports hroster
  rw [htrial] at hcounts hcomplete
  have hph := hcomplete.mpr (by rw [hslots]; decide)
  exact ⟨m, _, _, run, hsplit, hran, hroster, (hcounts .writer).1, (hcounts .reader).1, hph,
    hafter hph⟩

end SpeedTrial.Trial
