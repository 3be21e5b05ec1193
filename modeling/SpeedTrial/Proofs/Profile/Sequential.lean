import SpeedTrial.Proofs.Profile.LateUnits
import SpeedTrial.Proofs.Stream.Strided
import SpeedTrial.Proofs.Trial.Totals

/-!
# Trials on counters

If no trial fails, a trial finds nothing left of those before it.  So the words of a trial are those
that its writers draw, each as many as it has units, and with sequential streams they are different
numbers.

* `Run.length_drawn_le`: how many words a writer draws in a successful trial.
* `sequential_trials_draw_their_range`: writers that insert the numbers of their counters insert
  those below a bound between them, each of them once.
-/

namespace SpeedTrial.Profile.Session

open SpeedTrial.Trial SpeedTrial.Sketch
open SpeedTrial.Stream.Supply (words)

variable {E : Type} [Accumulator E] {c : Settings} {s s' : Session E} {h after cleared : History E}
  {x z : Moment E} {g : Trial.History Unit Unit} {updates i : Nat}

/-! ## Trials that nobody disturbs -/

/-- A thread begins to stop the workers at a moment. -/
def Moment.stops (x : Moment E) : Bool :=
  match x.event with
  | .machine (.invoke _ .stop) => true
  | _ => false

/-- The last trial has failed. -/
def hasFailed (s : Session E) : Bool :=
  match s.outcome with
  | some (.error _) => true
  | _ => false

omit [Accumulator E] in
theorem outcome_ne_error (hs : s.hasFailed = false) (err : TrialError) :
    s.outcome ≠ some (.error err) := by
  intro hout
  simp [hasFailed, hout] at hs

/-! ## Units that draw -/

/-- Writers that need not read never do. -/
theorem Run.exists_writer (run : Run (opening c) h s) (hratio : c.writesRatio = 0.0)
    {u : WorkUnit E} (hu : Machine.unit? s.workshop ⟨.writer, i⟩ = some u) :
    ∃ w, u = .writer w := by
  induction run generalizing u with
  | start =>
    -- a share of zero makes a plain writer
    have hshare : ((0.0 : Float) > 0.0 && (0.0 : Float) < 1.0) = false := by decide +kernel
    obtain ⟨k, hk, rfl⟩ := Option.map_eq_some_iff.mp hu
    obtain ⟨hi, rfl⟩ : ∃ _ : i < c.writers, Worker.mk {} .top (Workshop.writerUnit c i) = k := by
      simpa [opening, Workshop.started, Machine.worker?, Machine.workers, List.getElem?_eq_some_iff]
        using hk
    refine ⟨Writer.new c.mode (Workshop.stream c i) Shared.empty, ?_⟩
    simp [Workshop.writerUnit, WorkUnit.forWriter, hratio, hshare]
  | @next h s s' e run hs ih =>
    cases Works.of_step hs with
    | empties _ hunit | quiet _ _ _ hunit => exact ih (by rw [← hunit, hu])
    | unit hw =>
      obtain ⟨u₀, hu₀, -, hunit⟩ := Machine.unit?_of_finish hw
      rw [hunit] at hu
      split at hu
      · next hslot =>
        obtain ⟨w, rfl⟩ := ih (hslot ▸ hu₀)
        exact ⟨_, (Option.some.inj hu).symm⟩
      · exact ih hu

/-- Each of their units draws a word. -/
theorem Run.drawing?_of_finish (run : Run (opening c) h s) (hratio : c.writesRatio = 0.0)
    (hs : s.step (.machine (.finish ⟨.writer, i⟩)) = some s') :
    (Moment.drawing? ⟨s, .machine (.finish ⟨.writer, i⟩), s'⟩).map Prod.fst = some i := by
  cases Works.of_step hs with
  | quiet _ hne => exact absurd rfl (hne _)
  | unit hw =>
    obtain ⟨u, hu, -⟩ := Machine.unit?_of_finish hw
    obtain ⟨w, rfl⟩ := run.exists_writer hratio hu
    simp [Moment.drawing?, hu, WorkUnit.draw?]

/-- Whoever draws is a writer of the profile. -/
theorem Run.lt_of_drawing (run : Run (opening c) h s) {v : UInt64} (hx : x ∈ h)
    (hv : x.drawing? = some (i, v)) : i < c.writers := by
  obtain ⟨h', run', -⟩ := run.of_mem hx
  obtain ⟨-, u, hu⟩ := event_of_drawing hv
  obtain ⟨k, hk, -⟩ := Option.map_eq_some_iff.mp hu
  rw [← run'.length_writers]
  exact (List.getElem?_eq_some_iff.mp hk).1

omit [Accumulator E] in
theorem length_drawn (i : Nat) (h : History E) :
    (drawn i h).length = h.countP fun x => (x.drawing?.map Prod.fst) = some i := by
  induction h with
  | nil => rfl
  | cons x h ih =>
    cases hx : x.drawing? with
    | none => simp [drawn_cons_of_none i hx, hx, ih]
    | some d =>
      obtain ⟨j, v⟩ := d
      by_cases hj : j = i <;> simp [drawn_cons_of_some i hx, hx, ih, hj]

/-! ## Words and units -/

omit [Accumulator E] in
/-- A unit returns to the coordination of the workers when it does in the session. -/
theorem returned_iff {slot : Slot} :
    (∃ y, x.outline? = some y ∧ y.at slot = .returned) ↔ x.event = .machine (.finish slot) := by
  constructor
  · rintro ⟨y, hy, hat⟩
    obtain ⟨e, he, rfl⟩ := Option.map_eq_some_iff.mp hy
    obtain rfl : e = .finish slot := Trial.Moment.cause_of hat
    obtain ⟨me, hme, hout⟩ | ⟨op, hop, -⟩ := x.event_of_trace? he
    · cases me <;> cases hout
      exact hme
    · cases hop
  · intro he
    refine ⟨⟨Machine.outline x.before.workshop, .finish slot, Machine.outline x.after.workshop⟩,
      ?_, ?_⟩
    · simp [Moment.outline?, Moment.trace?, he, Machine.Event.outline]
    · simp [Trial.Moment.at, Trial.Moment.begins?]

omit [Accumulator E] in
/-- What the coordination of the workers knows of the last trial. -/
theorem LastTrial.current (hl : LastTrial h after cleared x z) (g : Trial.History Unit Unit) :
    Trial.latest? (trace h ++ g) = z.begins? ∧ Trial.current (trace h ++ g) = trace after := by
  obtain ⟨⟨before, rfl⟩, ⟨b, hz, -⟩, -, hafter, -⟩ := hl
  have hb := hz
  obtain ⟨y, hy, hyb⟩ := Option.bind_eq_some_iff.mp hz
  have htrace : trace (after ++ z :: (cleared ++ x :: before)) ++ g =
      trace after ++ y :: (trace (cleared ++ x :: before) ++ g) := by
    rw [trace, List.filterMap_append, List.filterMap_cons_some hy, List.append_assoc,
      List.cons_append]
    rfl
  rw [htrace, hb]
  constructor
  · rw [Trial.latest?, List.findSome?_append, List.findSome?_eq_none_iff.mpr hafter.trace]
    simp [hyb]
  · rw [Trial.current, List.takeWhile_append_of_pos]
    · simp [hyb]
    · exact fun y hy => by simp [hafter.trace y hy]

/-- In a trial each writer draws as many words as it has units. -/
theorem LastTrial.length_drawn (hl : LastTrial h after cleared x z) (run : Run (opening c) h s)
    (hratio : c.writesRatio = 0.0) (g : Trial.History Unit Unit) (i : Nat) :
    (Session.drawn i after).length = returned ⟨.writer, i⟩ (trace h ++ g) := by
  rw [returned, (hl.current g).2, trace, List.countP_filterMap, Session.length_drawn]
  refine List.countP_congr fun y hy => ?_
  -- moment by moment: a word is drawn exactly where a unit of the writer returns
  obtain ⟨before, hh⟩ := hl.eq
  obtain ⟨h', run', hs⟩ := run.of_mem (x := y) (by rw [hh]; exact List.mem_append_left _ hy)
  have hdraws : y.drawing?.map Prod.fst = some i ↔ y.event = .machine (.finish ⟨.writer, i⟩) := by
    constructor
    · intro hd
      obtain ⟨⟨j, v⟩, hv, rfl⟩ := Option.map_eq_some_iff.mp hd
      exact (event_of_drawing hv).1
    · intro he
      obtain ⟨b, e, a⟩ := y
      subst he
      exact run'.drawing?_of_finish hratio hs
  rw [decide_eq_true_iff, hdraws, ← returned_iff]
  cases y.outline? <;> simp

/-! ## How many words a trial draws -/

omit [Accumulator E] in
/-- The workers of a session are stopped only if a thread begins to stop them. -/
theorem stops_eq_false (hstop : ∀ x ∈ h, x.stops = false)
    (hg : ∀ x ∈ g, ∀ t op, x.event ≠ .invoke t op) :
    ∀ y ∈ trace h ++ g, y.stops = false := by
  intro y hy
  refine Bool.eq_false_iff.mpr fun hst => ?_
  unfold Trial.Moment.stops at hst
  split at hst
  · next t he =>
    rcases List.mem_append.mp hy with hy | hy
    · obtain ⟨x, hx, hxy⟩ := List.mem_filterMap.mp hy
      obtain ⟨e, ht, rfl⟩ := Option.map_eq_some_iff.mp hxy
      obtain rfl : e = .invoke t .stop := he
      have hno := hstop x hx
      obtain ⟨me, hme, hout⟩ | ⟨op, hop, hne⟩ := x.event_of_trace? ht
      · cases me <;> cases hout
        simp [Moment.stops, hme] at hno
      · cases hop
        exact hne rfl
    · exact hg y hy t _ he
  · cases hst

/-- If neither a trial has failed so far nor anybody has stopped the workers, a writer has drawn at
most its quota of words in a successful trial, and all of it if only readers are frozen. -/
theorem Run.length_drawn_le (run : Run (opening c) h s) (hratio : c.writesRatio = 0.0)
    (hstop : ∀ x ∈ h, x.stops = false) (hall : ∀ x ∈ h, x.before.hasFailed = false)
    {sample : Stats.Sample} (hok : s.outcome = some (.ok sample))
    (hasked : asked? h = some updates) (hi : i < c.writers) :
    (drawn i (sinceEmptied h)).length ≤ Plan.quotaPerWriter updates c.writers ∧
      (c.freeze = .readersOnly →
        (drawn i (sinceEmptied h)).length = Plan.quotaPerWriter updates c.writers) := by
  obtain ⟨after, cleared, x, z, hl⟩ := run.lastTrial hok
  obtain ⟨-, -, -, hph⟩ := run.ended hok
  obtain ⟨g, rung, hg⟩ := Workshop.exists_run_outline_started (E := E) c
  have runm := run.outline rung
  have hph : (Machine.outline s.workshop).tally.phase = .complete := hph
  have hledger := runm.ledger (by rw [hph]; simp)
  -- the trial has handed out the quota of those updates that were asked for
  obtain ⟨b, hb, hasked'⟩ := hl.asked
  obtain rfl : b.total = updates := Option.some.inj (hasked'.symm.trans hasked)
  have hlatest : Trial.latest? (trace h ++ g) = some b := (hl.current g).1.trans hb
  have hlen : (Machine.outline s.workshop).writers.length = c.writers := by
    simpa using run.length_writers
  have hquota : b.quota = Plan.quotaPerWriter b.total c.writers := by
    obtain ⟨b', hb', -, hquota, -⟩ := hledger.latest
    obtain rfl := Option.some.inj (hlatest.symm.trans hb')
    rw [hquota, hlen]
  -- the writer was counted for its units, and these are its words
  obtain ⟨w, hw⟩ := Machine.worker?_of_lt (r := .writer) (hlen.symm ▸ hi)
  obtain ⟨n, hle, hn, hfull⟩ :=
    runm.contributions_of_complete (stops_eq_false hstop hg) hph hlatest rfl hw
  obtain ⟨n', hn', hsettles⟩ := runm.settled hph hw
  obtain rfl : n = n' := by simpa using hn.symm.trans hn'
  -- nothing was drawn between the emptying and the beginning, for the trial before had ended
  have hdrawn : (drawn i (sinceEmptied h)).length = n := by
    have hnone := hl.drawn_cleared run (hl.not_running run (outcome_ne_error (hall x ?_))) i
    · rw [hl.drawn, hnone, List.nil_append, hl.length_drawn run hratio g, ← account_units,
        hsettles.units]
    · obtain ⟨before, rfl⟩ := hl.eq
      simp
  rw [hdrawn, ← hquota]
  refine ⟨hle, fun hfreeze => hfull fun hf => ?_⟩
  -- only readers are frozen
  have hevery := (hledger.frozen _ hf).1 rfl
  rw [runm.freeze_eq, hfreeze] at hevery
  cases hevery

/-! ## All words of a trial -/

/-- The words that all writers drew, the first one first. -/
def allDrawn (h : History E) : List UInt64 := (drawings h).map Prod.snd

omit [Accumulator E] in
/-- All words are those of the writers. -/
theorem map_allDrawn {α : Type} (f : UInt64 → α)
    (hlt : ∀ x ∈ h, ∀ i v, x.drawing? = some (i, v) → i < c.writers) :
    ((allDrawn h).map f : Multiset α) =
      ∑ i ∈ Finset.range c.writers, ((drawn i h).map f : Multiset α) := by
  induction h with
  | nil => simp [allDrawn, drawings, drawn]
  | cons x h ih =>
    have hrest := ih fun y hy => hlt y (List.mem_cons_of_mem _ hy)
    cases hx : x.drawing? with
    | none => simpa [allDrawn, drawings, hx, drawn_cons_of_none _ hx] using hrest
    | some d =>
      -- one more word comes on both sides, on the right to the words of its writer
      obtain ⟨j, v⟩ := d
      have hj := hlt x (List.mem_cons_self ..) j v hx
      have hall : (allDrawn (x :: h)).map f = (allDrawn h).map f ++ [f v] := by
        simp [allDrawn, drawings, hx]
      have hone : ∀ i, ((drawn i (x :: h)).map f : Multiset α) =
          ((drawn i h).map f : Multiset α) + if j = i then {f v} else 0 := by
        intro i
        rw [drawn_cons_of_some i hx, List.map_append, ← Multiset.coe_add]
        split <;> rfl
      rw [hall, ← Multiset.coe_add, hrest, Finset.sum_congr rfl fun i _ => hone i,
        Finset.sum_add_distrib, Finset.sum_ite_eq, if_pos (Finset.mem_range.mpr hj)]
      rfl

omit [Accumulator E] in
/-- What writers insert directly is visible at once. -/
theorem visible_of_locked (hmode : c.mode = .locked) (ws : Nat → List UInt64) :
    visible c ws = ∑ i ∈ Finset.range c.writers, (ws i : Multiset UInt64) := by
  refine Finset.sum_congr rfl fun i _ => ?_
  simp [hmode, Mode.interval]

/-! ## Sequential streams -/

/-- The words of a trial fit into those that there are. -/
theorem mul_quota_lt {W : Nat} (hW : 0 < W) (hlt : W < 2 ^ 64) (hu : updates < 2 ^ 64) :
    W * max (updates / W) 1 < 2 ^ 64 := by
  rcases Nat.le_total (updates / W) 1 with hle | hle
  · rw [Nat.max_eq_right hle]
    omega
  · rw [Nat.max_eq_left hle]
    exact Nat.lt_of_le_of_lt (Nat.mul_div_le _ _) hu

/-- As long as the numbers fit into a word, a writer draws its index and then goes on in steps of the
number of writers. -/
theorem Follows.numbers {R : Reading E} {st : Studio E Stream.Source} (hf : Follows R c h st)
    (hvalues : c.values = .sequential) (hlt : c.writers < 2 ^ 64) {q : Nat}
    (hq : c.writers * q < 2 ^ 64) (hi : i < c.writers) (hle : (Session.drawn i h).length ≤ q) :
    (Session.drawn i h).map UInt64.toNat =
      (List.range (Session.drawn i h).length).map fun k => i + k * c.writers := by
  conv_lhs => rw [hf.drawn i hi]
  rw [Workshop.stream, hvalues, Stream.toNat_words_sequential (by omega) hlt]
  intro k hk
  calc i + k * c.writers < c.writers * (k + 1) := by rw [Nat.mul_succ, Nat.mul_comm k]; omega
    _ ≤ c.writers * q := Nat.mul_le_mul_left _ (Nat.le_trans hk hle)
    _ < 2 ^ 64 := hq

/-- Let writers insert the numbers of their counters directly, and let no trial fail and nobody stop
the workers.  Then a successful trial has the sketch hold the words that its writers drew, and
nothing else.  Each writer has drawn its index and the numbers behind it in steps of the number of
writers, at most as many as its quota, without running over, so that no word was drawn twice.  If
only readers are frozen these are all numbers below the product of the quota and the number of
writers. -/
theorem sequential_trials_draw_their_range (R : Reading E) (run : Run (opening c) h s)
    (hmode : c.mode = .locked) (hvalues : c.values = .sequential) (hratio : c.writesRatio = 0.0)
    (hW : 0 < c.writers) (hlt : c.writers < 2 ^ 64)
    (hstop : ∀ x ∈ h, x.stops = false) (hall : ∀ x ∈ h, x.before.hasFailed = false)
    {sample : Stats.Sample} (hok : s.outcome = some (.ok sample)) (hasked : asked? h = some updates)
    (hu : updates < 2 ^ 64) :
    R.Holds s.workshop.shared.contents (allDrawn (sinceEmptied h)) ∧
    (∀ i < c.writers, ∃ n ≤ max (updates / c.writers) 1,
      (drawn i (sinceEmptied h)).map UInt64.toNat =
        (List.range n).map fun k => i + k * c.writers) ∧
    (allDrawn (sinceEmptied h)).Nodup ∧
    (c.freeze = .readersOnly →
      ((allDrawn (sinceEmptied h)).map UInt64.toNat : Multiset Nat) =
        Multiset.range (c.writers * max (updates / c.writers) 1)) := by
  have hquota : Plan.quotaPerWriter updates c.writers = max (updates / c.writers) 1 := by
    rw [Plan.quotaPerWriter, Nat.max_eq_left hW]
  have hbound := mul_quota_lt hW hlt hu
  generalize max (updates / c.writers) 1 = q at hquota hbound
  have hlen := fun i (hi : i < c.writers) => hquota ▸
    run.length_drawn_le hratio hstop hall hok hasked hi
  obtain ⟨st, hh, -, hfollows⟩ := run.follows R
  have hf := hfollows _ hasked
  have hnumbers := fun i (hi : i < c.writers) =>
    hf.numbers hvalues hlt hbound hi (hlen i hi).1
  have hwriters : ∀ x ∈ sinceEmptied h, ∀ i v, x.drawing? = some (i, v) → i < c.writers :=
    fun x hx i v hv => run.lt_of_drawing ((List.takeWhile_sublist _).subset hx) hv
  -- all numbers are those of the writers, each in its own remainder
  have hsum : ((allDrawn (sinceEmptied h)).map UInt64.toNat : Multiset Nat) =
      ∑ i ∈ Finset.range c.writers, (((List.range (drawn i (sinceEmptied h)).length).map
        fun k => i + k * c.writers : List Nat) : Multiset Nat) := by
    rw [map_allDrawn UInt64.toNat hwriters]
    exact Finset.sum_congr rfl fun i hi => by rw [hnumbers i (Finset.mem_range.mp hi)]
  refine ⟨?_, fun i hi => ⟨_, (hlen i hi).1, hnumbers i hi⟩, ?_, fun hfreeze => ?_⟩
  · have hwords := map_allDrawn id hwriters
    simp only [List.map_id] at hwords
    rw [hwords, ← visible_of_locked hmode fun i => drawn i (sinceEmptied h)]
    exact hf.contents hh
  · have hle : ((allDrawn (sinceEmptied h)).map UInt64.toNat : Multiset Nat) ≤
        Multiset.range (c.writers * q) := by
      rw [hsum]
      exact Stream.sum_strides_le fun i hi => (hlen i hi).1
    have hnodup := Multiset.nodup_of_le hle (Multiset.nodup_range _)
    exact (Multiset.coe_nodup.mp hnodup).of_map _
  · rw [hsum, ← Stream.sum_strides]
    refine Finset.sum_congr rfl fun i hi => ?_
    rw [(hlen i (Finset.mem_range.mp hi)).2 hfreeze]

/-! ## A writer that is frozen before its first unit -/

/-- Two writers, and everyone is frozen when the first of them reports. -/
def pair : Settings := { writers := 2 }

/-- The thread that runs the trials takes two workers back, starts them and begins to wait. -/
def pairStarted : List (Event (List UInt64)) := List.flatten [
  .replicate 16 (.machine (.call .controlling)), [.goOn],
  .replicate 7 (.machine (.call .controlling)), [.goOn]]

/-- A writer takes some steps. -/
def pairSteps (i n : Nat) : List (Event (List UInt64)) :=
  .replicate n (.machine (.worker ⟨.writer, i⟩))

/-- A trial of one unit each, in which the second writer is frozen before its first unit, and one of
two units each, in which it is the first to report. -/
def pairSession : List (Event (List UInt64)) := List.flatten [
  [.trial 2], pairStarted,
  pairSteps 0 5, [.machine (.finish ⟨.writer, 0⟩)], pairSteps 0 10, pairSteps 1 10,
  [.machine (.call .controlling), .goOn],
  [.trial 4], pairStarted,
  pairSteps 1 5, [.machine (.finish ⟨.writer, 1⟩)], pairSteps 1 3,
  [.machine (.finish ⟨.writer, 1⟩)], pairSteps 1 10, pairSteps 0 10,
  [.machine (.call .controlling), .goOn]]

/-- In the second trial the second writer starts at its first number. -/
theorem sequential_trials_draw_their_range_pair :
    let h := (opening pair).historyFrom [] pairSession
    ∃ s, Run (opening pair) h s ∧ s.outcome = some (.ok ⟨⟨0⟩, 2, 0⟩) ∧
      allDrawn (sinceEmptied h) = [1, 3] ∧
      (s.workshop.shared.contents : Multiset UInt64) = allDrawn (sinceEmptied h) ∧
      (∃ n ≤ 2,
        (drawn 1 (sinceEmptied h)).map UInt64.toNat = (List.range n).map fun k => 1 + k * 2) ∧
      (allDrawn (sinceEmptied h)).Nodup := by
  intro h
  have hend : ((opening pair).steps pairSession).map Session.outcome =
      some (some (.ok ⟨⟨0⟩, 2, 0⟩)) := rfl
  obtain ⟨s, hs, hok⟩ := Option.map_eq_some_iff.mp hend
  have run : Run (opening pair) h s := .of_steps .start hs
  have hstop : ∀ x ∈ h, x.stops = false := by decide +kernel
  have hall : ∀ x ∈ h, x.before.hasFailed = false := by decide +kernel
  obtain ⟨hcontents, hdrawn, hnodup, -⟩ := sequential_trials_draw_their_range Reading.record run
    rfl rfl rfl (by decide) (by decide) hstop hall hok (show asked? h = some 4 from rfl) (by decide)
  exact ⟨s, run, hok, rfl, hcontents, hdrawn 1 (by decide), hnodup⟩

end SpeedTrial.Profile.Session
