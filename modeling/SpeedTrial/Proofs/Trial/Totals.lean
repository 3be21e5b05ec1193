import SpeedTrial.Proofs.Trial.Ledger
import Mathlib.Algebra.Order.BigOperators.Group.Finset

/-!
# What a complete trial has counted

When a trial is complete every worker was counted once, for what settles its account.

* `writer_totals`: without a stop, each writer was counted for its whole quota, or, if everyone is
  frozen, the first writer that reported was, and no writer for more.
* `short_iff_cut`: with stops a writer that nobody froze was counted for less than its quota exactly
  if a stop found it with units left, and whoever waits for the trial is told that all is well.
-/

namespace SpeedTrial.Trial

variable {U S : Type} {work : U → S → U × S} {freeze : FreezeScope} {shared : S}
  {h : History U S} {m m' : Machine U S} {e : Machine.Event U}

/-! ## Complete trials -/

/-- The thread that began a complete trial has been told the quota. -/
theorem Ledger.answered_of_complete (hl : Ledger h m) (hc : m.Coherent)
    (hph : m.tally.phase = .complete) :
    ∃ b, latest? h = some b ∧ b.trial = m.tally.trial ∧
      b.quota = Plan.quotaPerWriter b.total m.writers.length ∧
      ∃ x ∈ current h, x.Answers b.thread (.ok (.quota b.quota)) := by
  obtain ⟨b, hlatest, htrial, hquota, ⟨todo, hcall⟩ | hans⟩ := hl.latest
  · have hrun := hc.resuming _ _ _ hcall
    rw [hph] at hrun
    cases hrun
  · exact ⟨b, hlatest, htrial, hquota, hans⟩

/-- The scope never changes. -/
theorem Run.freeze_eq (run : Run work (.empty freeze shared) h m) : m.freeze = freeze := by
  induction run with
  | start => rfl
  | next run hs ih =>
    rw [← ih]
    cases Machine.Move.of_step hs <;> simp

/-! ## Totals of a role -/

section role

variable {r : Role} {n : Nat}

theorem Ledger.opsOf_eq (hl : Ledger h m)
    (hn : ∀ i < (m.workers r).length, contributions ⟨r, i⟩ h = [n]) :
    m.tally.opsOf r = (m.workers r).length * n := by
  have hsum : ∀ i ∈ Finset.range (m.workers r).length, (contributions ⟨r, i⟩ h).sum = n := by
    intro i hi
    rw [hn i (Finset.mem_range.mp hi)]
    rfl
  rw [hl.ops r, Finset.sum_congr rfl hsum]
  simp

theorem Ledger.opsOf_le (hl : Ledger h m)
    (hn : ∀ i < (m.workers r).length, ∃ k ≤ n, contributions ⟨r, i⟩ h = [k]) :
    m.tally.opsOf r ≤ (m.workers r).length * n := by
  have hterm : ∀ i ∈ Finset.range (m.workers r).length, (contributions ⟨r, i⟩ h).sum ≤ n := by
    intro i hi
    obtain ⟨k, hk, hcontr⟩ := hn i (Finset.mem_range.mp hi)
    simpa [hcontr] using hk
  calc m.tally.opsOf r
      = ∑ i ∈ Finset.range (m.workers r).length, (contributions ⟨r, i⟩ h).sum := hl.ops r
    _ ≤ (Finset.range (m.workers r).length).card • n := Finset.sum_le_card_nsmul _ _ _ hterm
    _ = (m.workers r).length * n := by simp

theorem Ledger.le_opsOf (hl : Ledger h m) {s : Slot} {w : Worker U} (hw : m.worker? s = some w)
    (hn : contributions s h = [n]) : n ≤ m.tally.opsOf s.role := by
  have hi : s.index ∈ Finset.range (m.workers s.role).length :=
    Finset.mem_range.mpr ((Machine.mem_slots_iff m s).mp (Machine.mem_slots_of_worker? hw))
  calc n = (contributions s h).sum := by rw [hn]; rfl
    _ ≤ ∑ i ∈ Finset.range (m.workers s.role).length, (contributions ⟨s.role, i⟩ h).sum :=
      Finset.single_le_sum (f := fun i => (contributions ⟨s.role, i⟩ h).sum)
        (fun _ _ => Nat.zero_le _) hi
    _ = m.tally.opsOf s.role := (hl.ops s.role).symm

end role

/-! ## Without stops -/

/-- Without a stop no caller is about to stop anybody. -/
theorem Run.no_stop (run : Run work (.empty freeze shared) h m)
    (hstop : ∀ x ∈ h, x.stops = false) : ∀ t, (m.caller t).call.isStop = false := by
  -- only the beginning of a stop leads into one
  induction run with
  | start => intro t; cases t <;> rfl
  | @next h m m' e run hs ih =>
    have hnone := ih fun x hx => hstop x (List.mem_cons_of_mem _ hx)
    have hnow := hstop _ (List.mem_cons_self ..)
    intro t'
    have hbefore := hnone t'
    cases Machine.Move.of_step hs with
    | @ask t _ c he _ _ _ hinvoke =>
      by_cases ht : t' = t
      · cases hc : c.call.isStop with
        | false => simpa [ht] using hc
        | true =>
          rw [hinvoke hc] at hnow
          cases hnow
      · simpa [ht] using hbefore
    | @flag t hcall | @halt t s a todo hcall =>
      have hno := hnone t
      rw [hcall] at hno
      cases hno
    | fail => exact hbefore
    | _ =>
      simp
      grind [Call.isStop]

/-- Without a stop nobody's quota is cut. -/
theorem Run.not_cut (run : Run work (.empty freeze shared) h m)
    (hstop : ∀ x ∈ h, x.stops = false) (s : Slot) : .cut ∉ (account s h).episode := by
  induction run with
  | start => simp [account]
  | @next h m m' e run hs ih =>
    have hbefore : ∀ x ∈ h, x.stops = false := fun x hx => hstop x (List.mem_cons_of_mem _ hx)
    cases hb : Moment.begins? ⟨m, e, m'⟩ with
    | some b => simp [account_cons_of_some hb]
    | none =>
      rw [account_cons_of_none hb, List.mem_cons, not_or]
      refine ⟨fun hcut => ?_, ih hbefore⟩
      obtain ⟨t, quota, todo, -, hcall⟩ := Moment.cause_of hcut.symm
      have hno := run.no_stop hbefore t
      rw [show (m.caller t).call = .stopping ((s, .setQuota quota) :: todo) from hcall] at hno
      cases hno

/-! ## Writer totals -/

/-- The first writer that reported was not frozen. -/
theorem Ledger.exists_first (hl : Ledger h m) (hc : m.Coherent) (hph : m.tally.phase = .complete)
    (hW : 0 < m.writers.length) :
    ∃ s w, (acceptances .writer h).getLast? = some s ∧ s.role = .writer ∧
      m.worker? s = some w ∧ .frozen ∉ (account s h).episode := by
  obtain ⟨w₀, hw₀⟩ := Machine.worker?_of_lt (r := .writer) hW
  have hmem : ⟨.writer, 0⟩ ∈ acceptances .writer h :=
    (hl.marked _ w₀ hw₀).mp (hc.complete hph _)
  cases hlast : (acceptances .writer h).getLast? with
  | none =>
    rw [List.getLast?_eq_none_iff.mp hlast] at hmem
    cases hmem
  | some s =>
    obtain ⟨hr, w, hw⟩ := hl.accepted_worker .writer s (List.mem_of_getLast? hlast)
    refine ⟨s, w, rfl, hr, hw, fun hf => ?_⟩
    -- who is frozen is so by the first, and nobody freezes itself
    obtain ⟨-, f, hf, hne⟩ := hl.frozen s hf
    rw [hlast] at hf
    exact hne (Option.some.inj hf).symm

/-- In a complete trial that nobody stopped, each writer is counted once and for no more than its
quota, and one that was not frozen for all of it. -/
theorem Run.contributions_of_complete (run : Run work (.empty freeze shared) h m)
    (hstop : ∀ x ∈ h, x.stops = false) (hph : m.tally.phase = .complete) {b : Beginning}
    (hb : latest? h = some b) {s : Slot} {w : Worker U} (hr : s.role = .writer)
    (hw : m.worker? s = some w) :
    ∃ n ≤ b.quota, contributions s h = [n] ∧ (.frozen ∉ (account s h).episode → n = b.quota) := by
  obtain ⟨n, hn, hsettles⟩ := run.settled hph hw
  have hquota : (account s h).quota = b.quota := by rw [account_quota s hb, hr]; rfl
  rw [← hquota]
  exact ⟨n, hsettles.le_quota, hn, fun hf => (hsettles.eq_quota_iff hf).mpr (run.not_cut hstop s)⟩

/-- Without a stop, a complete trial has counted the whole quota of each writer if only readers are
frozen; if everyone is, it has counted the whole quota of the first writer that reported, and no
more than that of any other. -/
theorem writer_totals (run : Run work (.empty freeze shared) h m)
    (hstop : ∀ x ∈ h, x.stops = false) (hph : m.tally.phase = .complete) :
    ∃ b, latest? h = some b ∧ b.trial = m.tally.trial ∧ 0 < m.writers.length ∧
      b.quota = max (b.total / m.writers.length) 1 ∧
      (∃ x ∈ current h, x.Answers b.thread (.ok (.quota b.quota))) ∧
      (freeze = .readersOnly →
        (∀ i < m.writers.length, contributions ⟨.writer, i⟩ h = [b.quota]) ∧
        m.tally.writerOps = m.writers.length * b.quota) ∧
      (freeze = .everyone →
        (∃ s, (acceptances .writer h).getLast? = some s ∧ contributions s h = [b.quota]) ∧
        (∀ i < m.writers.length, ∃ n ≤ b.quota, contributions ⟨.writer, i⟩ h = [n]) ∧
        b.quota ≤ m.tally.writerOps ∧ m.tally.writerOps ≤ m.writers.length * b.quota ∧
        (m.writers.length = 1 → m.tally.writerOps = b.quota)) := by
  have hc := run.coherent
  have hne : m.tally.phase ≠ .ready := by rw [hph]; simp
  have hl := run.ledger hne
  have hW : 0 < m.writers.length := List.length_pos_of_ne_nil (hc.staffed hne).2
  obtain ⟨b, hb, htrial, hquota, hans⟩ := hl.answered_of_complete hc hph
  have hcontr : ∀ i < m.writers.length, ∃ n ≤ b.quota, contributions ⟨.writer, i⟩ h = [n] ∧
      (.frozen ∉ (account ⟨.writer, i⟩ h).episode → n = b.quota) := by
    intro i hi
    obtain ⟨w, hw⟩ := Machine.worker?_of_lt (r := .writer) hi
    exact run.contributions_of_complete hstop hph hb rfl hw
  refine ⟨b, hb, htrial, hW, ?_, hans, fun hscope => ?_, fun hscope => ?_⟩
  · rw [hquota, Plan.quotaPerWriter, Nat.max_eq_left hW]
  · -- no writer is frozen, so that each performs its whole quota
    have hall : ∀ i < m.writers.length, contributions ⟨.writer, i⟩ h = [b.quota] := by
      intro i hi
      obtain ⟨n, -, hn, hfull⟩ := hcontr i hi
      rw [hn, hfull]
      intro hf
      have hevery := (hl.frozen _ hf).1 rfl
      rw [run.freeze_eq, hscope] at hevery
      cases hevery
    exact ⟨hall, hl.opsOf_eq (r := .writer) hall⟩
  · -- the first writer that reports performs its whole quota, and the others at most theirs
    obtain ⟨s, w, hlast, hr, hw, hf⟩ := hl.exists_first hc hph hW
    have hfirst : contributions s h = [b.quota] := by
      obtain ⟨n, -, hn, hfull⟩ := run.contributions_of_complete hstop hph hb hr hw
      rw [hn, hfull hf]
    have hle : ∀ i < m.writers.length, ∃ n ≤ b.quota, contributions ⟨.writer, i⟩ h = [n] := by
      intro i hi
      obtain ⟨n, hn, hcn, -⟩ := hcontr i hi
      exact ⟨n, hn, hcn⟩
    have hlower : b.quota ≤ m.tally.opsOf .writer := hr ▸ hl.le_opsOf hw hfirst
    have hupper : m.tally.opsOf .writer ≤ m.writers.length * b.quota := hl.opsOf_le hle
    refine ⟨⟨s, hlast, hfirst⟩, hle, hlower, hupper, fun hone => ?_⟩
    rw [hone, Nat.one_mul] at hupper
    exact Nat.le_antisymm hupper hlower

/-- Two writers, of which the first performs its two units and freezes the other before that has
begun. -/
def duetTrial : List (Machine.Event Unit) := List.flatten [
  [.register .writer .writer (), .register .writer .writer (), .launch,
    .invoke .controlling (.run 4)],
  .replicate 7 (.call .controlling),
  .replicate 5 (.worker ⟨.writer, 0⟩),
  [.finish ⟨.writer, 0⟩],
  .replicate 3 (.worker ⟨.writer, 0⟩),
  [.finish ⟨.writer, 0⟩],
  .replicate 10 (.worker ⟨.writer, 0⟩),
  .replicate 10 (.worker ⟨.writer, 1⟩)]

theorem writer_totals_duet :
    let h := (Machine.empty .everyone ()).historyFrom idleWork [] duetTrial
    ∃ m, Run idleWork (.empty .everyone ()) h m ∧ (∀ x ∈ h, x.stops = false) ∧
      m.tally.phase = .complete ∧
      ∃ b, latest? h = some b ∧ b.quota = max (b.total / m.writers.length) 1 ∧
        b.quota ≤ m.tally.writerOps ∧ m.tally.writerOps ≤ m.writers.length * b.quota := by
  intro h
  have hend : ((Machine.empty .everyone ()).steps idleWork duetTrial).map
      (fun m => m.tally.phase) = some .complete := rfl
  obtain ⟨m, run, hph⟩ := Run.exists_of_map hend
  have hstop : ∀ x ∈ h, x.stops = false := by decide
  obtain ⟨b, hb, -, -, hquota, -, -, hall⟩ := writer_totals run hstop hph
  obtain ⟨-, -, hlower, hupper, -⟩ := hall rfl
  exact ⟨m, run, hstop, hph, b, hb, hquota, hlower, hupper⟩

/-! ## With stops -/

/-- A wait that succeeds has found the trial complete. -/
theorem phase_of_waited {x : Moment U S} (hs : x.before.step work x.event = some x.after)
    {t : Thread} {w : Waiting} (hcall : (x.before.caller t).call = .waitAtLock w)
    (ha : x.Answers t (.ok .done)) : x.before.tally.phase = .complete := by
  obtain ⟨he | ⟨op, he⟩, hanswer⟩ := ha
  · rw [he] at hs
    simp only [Machine.step, Machine.stepCall, hcall] at hs
    obtain ⟨-, hafter⟩ := Machine.lookAtPhase_eq_some hs
    rw [hafter] at hanswer
    cases hph : x.before.tally.phase with
    | complete => rfl
    | ready | running => simp [hph, Machine.reply, Machine.goOn] at hanswer
  · -- an operation that is under way does not begin
    rw [he] at hs
    simp [Machine.step, Machine.invoke, hcall] at hs

/-- A writer of a complete trial that nobody froze was counted for less than its quota exactly if a
stop found it with units left.  A wait succeeds only once the trial is complete, and then it does so
whether there was a stop or not. -/
theorem short_iff_cut (run : Run work (.empty freeze shared) h m)
    (hph : m.tally.phase = .complete) :
    ∃ b, latest? h = some b ∧ b.trial = m.tally.trial ∧
      b.quota = max (b.total / m.writers.length) 1 ∧
      (∃ x ∈ current h, x.Answers b.thread (.ok (.quota b.quota))) ∧
      (∀ i < m.writers.length, (∀ x ∈ current h, x.at ⟨.writer, i⟩ ≠ .frozen) →
        ∃ n ≤ b.quota, contributions ⟨.writer, i⟩ h = [n] ∧
          (n < b.quota ↔ ∃ x ∈ current h, x.at ⟨.writer, i⟩ = .cut)) ∧
      (∀ x ∈ h, ∀ t w, (x.before.caller t).call = .waitAtLock w → x.Answers t (.ok .done) →
        x.before.tally.phase = .complete) ∧
      ∀ t w, (m.caller t).call = .waitAtLock w → m.lock = none →
        ∃ m', m.step work (.call t) = some m' ∧ m'.caller t = ⟨.idle, some (.ok .done)⟩ := by
  have hc := run.coherent
  have hne : m.tally.phase ≠ .ready := by rw [hph]; simp
  have hl := run.ledger hne
  have hW : 0 < m.writers.length := List.length_pos_of_ne_nil (hc.staffed hne).2
  obtain ⟨b, hb, htrial, hquota, hans⟩ := hl.answered_of_complete hc hph
  refine ⟨b, hb, htrial, ?_, hans, fun i hi hnf => ?_, fun x hx t w hcall ha => ?_,
    fun t w hcall hlock => ?_⟩
  · rw [hquota, Plan.quotaPerWriter, Nat.max_eq_left hW]
  · obtain ⟨w, hw⟩ := Machine.worker?_of_lt (r := .writer) hi
    obtain ⟨n, hn, hsettles⟩ := run.settled hph hw
    have hq : (account ⟨.writer, i⟩ h).quota = b.quota := account_quota _ hb
    have hle := hsettles.le_quota
    have hiff := hsettles.eq_quota_iff (by simpa [account_episode] using hnf)
    rw [hq] at hle hiff
    refine ⟨n, hle, hn, ?_⟩
    rw [lt_iff_le_and_ne, ne_eq, hiff, account_episode, not_not, List.mem_map]
    exact ⟨fun h => h.2, fun h => ⟨hle, h⟩⟩
  · obtain ⟨h', run', hs⟩ := run.of_mem hx
    exact phase_of_waited hs hcall ha
  · -- the phase is looked at before the stop flag
    refine ⟨m.reply t (.ok .done), ?_, by simp [Machine.reply]⟩
    simp [Machine.step, Machine.stepCall, hcall, Machine.lookAtPhase, hlock, hph]

/-- A writer that is to perform ten units is stopped in the first, reports that one, and ends; after
that the caller waits for the trial. -/
def cutTrial : List (Machine.Event Unit) := List.flatten [
  [.register .writer .writer (), .launch, .invoke .controlling (.run 10)],
  .replicate 5 (.call .controlling),
  .replicate 5 (.worker ⟨.writer, 0⟩),
  [.invoke .controlling .stop],
  .replicate 4 (.call .controlling),
  [.finish ⟨.writer, 0⟩],
  .replicate 9 (.worker ⟨.writer, 0⟩),
  [.invoke .controlling (.wait none), .call .controlling]]

/-- Where `cutTrial` ends. -/
theorem exists_run_cutTrial :
    ∃ m, Run idleWork (.empty .readersOnly ())
        ((Machine.empty .readersOnly ()).historyFrom idleWork [] cutTrial) m ∧
      m.tally.phase = .complete ∧ m.writers.length = 1 ∧
      m.caller .controlling = ⟨.idle, some (.ok .done)⟩ := by
  have hend : ((Machine.empty .readersOnly ()).steps idleWork cutTrial).map
      (fun m => (m.tally.phase, m.writers.length, m.controlling)) =
        some (.complete, 1, ⟨.idle, some (.ok .done)⟩) := rfl
  obtain ⟨m, run, heq⟩ := Run.exists_of_map hend
  simp only [Prod.mk.injEq] at heq
  exact ⟨m, run, heq⟩

theorem short_iff_cut_of_cutTrial :
    let h := (Machine.empty .readersOnly ()).historyFrom idleWork [] cutTrial
    ∃ m, Run idleWork (.empty .readersOnly ()) h m ∧ m.tally.phase = .complete ∧
      ∃ b n, latest? h = some b ∧ contributions ⟨.writer, 0⟩ h = [n] ∧ n < b.quota := by
  intro h
  obtain ⟨m, run, hph, hW, -⟩ := exists_run_cutTrial
  have hfrozen : ∀ x ∈ current h, x.at ⟨.writer, 0⟩ ≠ .frozen := by decide
  have hcut : ∃ x ∈ current h, x.at ⟨.writer, 0⟩ = .cut := by decide
  obtain ⟨b, hb, -, -, -, hall, -, -⟩ := short_iff_cut run hph
  obtain ⟨n, -, hn, hiff⟩ := hall 0 (by simp [hW]) hfrozen
  exact ⟨m, run, hph, b, n, hb, hn, hiff.mpr hcut⟩

/-- A trial that a stop has cut short is reported as one that is over. -/
theorem cut_trial_is_complete :
    let h := (Machine.empty .readersOnly ()).historyFrom idleWork [] cutTrial
    ∃ m, Run idleWork (.empty .readersOnly ()) h m ∧ m.tally.phase = .complete ∧
      latest? h = some ⟨.controlling, 1, 10, 10⟩ ∧
      (∃ x ∈ current h, x.Answers .controlling (.ok (.quota 10))) ∧
      (∀ x ∈ current h, x.at ⟨.writer, 0⟩ ≠ .frozen) ∧
      contributions ⟨.writer, 0⟩ h = [1] ∧
      m.caller .controlling = ⟨.idle, some (.ok .done)⟩ := by
  intro h
  obtain ⟨m, run, hph, -, hanswer⟩ := exists_run_cutTrial
  -- the call that began the trial is over two accesses later
  have hlen : 22 < (current h).length := by decide
  have hquota : (current h)[22].Answers .controlling (.ok (.quota 10)) := ⟨.inl rfl, rfl⟩
  exact ⟨m, run, hph, rfl, ⟨_, List.getElem_mem hlen, hquota⟩, by decide, rfl, hanswer⟩

end SpeedTrial.Trial
