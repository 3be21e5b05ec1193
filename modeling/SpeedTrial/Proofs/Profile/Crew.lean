import SpeedTrial.Proofs.Profile.Course
import SpeedTrial.Proofs.Sketch.Studio

/-!
# The writers of a session at their sketch

What the workers of a session do to the sketch is a schedule of the writers in it: a unit of a
writer is its turn, unless the unit only reads, and a trial that is asked for empties the sketch.

* `Run.replaying`: since the sketch was emptied each writer has drawn the first words of its stream,
  and the sketch has what is visible of them.
-/

namespace SpeedTrial.Sketch.WorkUnit

open SpeedTrial.Stream (Supply)

variable {E V : Type} [Accumulator E] [Supply V] {u : WorkUnit E V} {s : Shared E}

/-- The writer that works in the units of a worker. -/
def writer? : WorkUnit E V → Option (Writer E V)
  | .writer w => some w
  | .mixed _ m => some m.inner
  | .reader _ => none

/-- The word that a unit draws, if it draws one. -/
def draw? (u : WorkUnit E V) (s : Shared E) : Option UInt64 :=
  match u with
  | .writer w => some (w.draw s)
  | .mixed share m =>
    let m := m.synchronised s
    if owesShare share m.writes (m.writes + m.reads) then some (m.inner.draw s) else none
  | .reader _ => none

/-- A unit that draws a word is one of its writer. -/
theorem work_of_draw {v : UInt64} (hv : u.draw? s = some v) :
    ∃ w, u.writer? = some w ∧ w.draw s = v ∧ (u.work s).1.writer? = some (w.work s).1 ∧
      (u.work s).2 = (w.work s).2 := by
  cases u with
  | writer w => exact ⟨w, rfl, Option.some.inj hv, rfl, rfl⟩
  | reader pause => cases hv
  | mixed share m =>
    have hinner : (m.synchronised s).inner = m.inner := by
      unfold Mixed.synchronised
      split <;> rfl
    simp only [draw?] at hv
    split at hv
    · next howes =>
      rw [hinner] at hv
      refine ⟨m.inner, rfl, Option.some.inj hv, ?_, ?_⟩ <;>
        simp [work, Mixed.work, howes, hinner, writer?]
    · cases hv

/-- A unit that draws no word leaves its writer and what is shared alone. -/
theorem work_of_no_draw (hv : u.draw? s = none) :
    (u.work s).1.writer? = u.writer? ∧ (u.work s).2 = s := by
  cases u with
  | writer w => cases hv
  | reader pause => exact ⟨rfl, rfl⟩
  | mixed share m =>
    have hinner : (m.synchronised s).inner = m.inner := by
      unfold Mixed.synchronised
      split <;> rfl
    simp only [draw?] at hv
    split at hv
    · cases hv
    · next howes => constructor <;> simp [work, Mixed.work, howes, hinner, writer?]

end SpeedTrial.Sketch.WorkUnit

namespace SpeedTrial.Profile

open SpeedTrial.Trial SpeedTrial.Sketch
open SpeedTrial.Stream (Supply Source)
open SpeedTrial.Stream.Supply (words)

variable {E : Type} [Accumulator E]

/-! ## Writers and their streams -/

/-- The writers of a profile and their streams. -/
def crew (c : Settings) : List (Member Source) :=
  (List.range c.writers).map fun i => ⟨c.mode, Workshop.stream c i⟩

@[simp] theorem length_crew (c : Settings) : (crew c).length = c.writers := by
  simp [crew]

theorem getElem_crew {c : Settings} {i : Nat} (hi : i < (crew c).length) :
    (crew c)[i] = ⟨c.mode, Workshop.stream c i⟩ := by
  simp [crew]

/-- The stream of a writer has not been used before. -/
theorem rewind_stream (c : Settings) (i : Nat) :
    Supply.rewind (Workshop.stream c i) = Workshop.stream c i := by
  unfold Workshop.stream Source.forWriter
  cases c.values <;> rfl

/-- What is visible when each writer has drawn so many words. -/
theorem visible_crew (c : Settings) (n : Nat → Nat) : Studio.visible (crew c) n =
    ∑ i ∈ Finset.range c.writers, Writer.visible c.mode.interval (n i) (Workshop.stream c i) := by
  rw [Finset.sum_range, Studio.visible]
  refine Fintype.sum_equiv (finCongr (length_crew c)) _ _ fun i => ?_
  simp [getElem_crew, Member.start, rewind_stream]

/-- The writers among the workers are those of a studio, and act on the same sketch. -/
structure Hosts (w : Workshop E) (st : Studio E Source) : Prop where
  shared : st.shared = w.shared
  writer : ∀ i, (Machine.unit? w ⟨.writer, i⟩).map WorkUnit.writer? = (st.writers[i]?).map some
  reader : ∀ i u, Machine.unit? w ⟨.reader, i⟩ = some u → u.writer? = none

/-- The writers of a profile have come one by one. -/
theorem hosts_started (c : Settings) :
    Hosts (Workshop.started c : Workshop E) (Studio.empty.joinAll (crew c)) := by
  rw [Studio.joinAll_eq]
  refine ⟨rfl, fun i => ?_, fun i u hu => ?_⟩
  · have hunit : (Workshop.writerUnit c i : WorkUnit E).writer? =
        some (Writer.new c.mode (Workshop.stream c i) Shared.empty) := by
      unfold Workshop.writerUnit WorkUnit.forWriter
      dsimp only
      split <;> rfl
    by_cases hi : i < c.writers <;>
      simp [Machine.unit?, Machine.worker?, Machine.workers, Workshop.started, crew, Studio.empty,
        hi, hunit]
  · obtain ⟨k, hk, rfl⟩ := Option.map_eq_some_iff.mp hu
    have hmem := List.mem_of_getElem? hk
    rw [List.eq_of_mem_replicate hmem]
    rfl

section hosts

variable {w w' : Workshop E} {st : Studio E Source}

omit [Accumulator E] in
/-- The writers among the workers are as many as those of the studio. -/
theorem Hosts.length (hh : Hosts w st) : w.writers.length = st.writers.length := by
  -- Both lists end at the same index, for up to there each worker has a writer of the studio.
  have hle : ∀ i, w.writers.length ≤ i ↔ st.writers.length ≤ i := by
    intro i
    have hsame := congrArg Option.isNone (hh.writer i)
    rw [← List.getElem?_eq_none_iff, ← List.getElem?_eq_none_iff, ← Option.isNone_iff_eq_none,
      ← Option.isNone_iff_eq_none]
    simpa [Machine.unit?, Machine.worker?, Machine.workers] using congrArg (· = true) hsame
  exact Nat.le_antisymm ((hle _).mpr (Nat.le_refl _)) ((hle _).mp (Nat.le_refl _))

/-- The sketch is emptied for all. -/
theorem Hosts.reset (hh : Hosts w st) {m : Machine (WorkUnit E) (Shared E)}
    (hshared : m.shared = w.shared.reset) (hunit : ∀ t, m.unit? t = w.unit? t) :
    Hosts m st.reset where
  shared := by rw [hshared, ← hh.shared]; rfl
  writer i := by rw [hunit]; exact hh.writer i
  reader i u hu := by rw [hunit] at hu; exact hh.reader i u hu

omit [Accumulator E] in
/-- What leaves the work alone leaves the studio alone. -/
theorem Hosts.congr (hh : Hosts w st) (hshared : w'.shared = w.shared)
    (hwriter : ∀ t, (Machine.unit? w' t).map WorkUnit.writer? =
      (Machine.unit? w t).map WorkUnit.writer?) : Hosts w' st where
  shared := by rw [hshared, hh.shared]
  writer i := by rw [hwriter, hh.writer]
  reader i u hu := by
    have hsame := hwriter ⟨.reader, i⟩
    rw [hu, Option.map_some] at hsame
    obtain ⟨u', hu', hw⟩ := Option.map_eq_some_iff.mp hsame.symm
    rw [← hw]
    exact hh.reader i u' hu'

/-- A unit that draws no word leaves the studio alone. -/
theorem Hosts.finish_of_no_draw (hh : Hosts w st) {slot : Slot}
    (hs : Machine.step WorkUnit.work w (.finish slot) = some w')
    (hnone : (Machine.unit? w slot).bind (fun u => u.draw? w.shared) = none) : Hosts w' st := by
  obtain ⟨u, hu, hshared, hunit⟩ := Machine.unit?_of_finish hs
  rw [hu] at hnone
  obtain ⟨hwriter, hsame⟩ := WorkUnit.work_of_no_draw hnone
  refine hh.congr (hshared.trans hsame) fun t => ?_
  rw [hunit]
  -- The worker whose unit it is keeps its writer, and no other one is touched.
  by_cases ht : t = slot
  · subst ht
    rw [if_pos rfl, hu, Option.map_some, Option.map_some, hwriter]
  · rw [if_neg ht]

/-- A unit that draws a word is a turn of its writer. -/
theorem Hosts.finish_of_draw (hh : Hosts w st) {slot : Slot} {v : UInt64}
    (hs : Machine.step WorkUnit.work w (.finish slot) = some w')
    (hv : (Machine.unit? w slot).bind (fun u => u.draw? w.shared) = some v) :
    ∃ i k, slot = ⟨.writer, i⟩ ∧ st.writers[i]? = some k ∧ k.draw st.shared = v ∧
      Hosts w' (st.turn (.unit i)) := by
  obtain ⟨u, hu, hshared, hunit⟩ := Machine.unit?_of_finish hs
  rw [hu] at hv
  obtain ⟨k, hk, hdraw, hwriter, hsame⟩ := WorkUnit.work_of_draw hv
  obtain ⟨role, i⟩ := slot
  cases role with
  | reader =>
    -- readers have no writer
    rw [hh.reader i u hu] at hk
    cases hk
  | writer =>
    have hki : st.writers[i]? = some k := by
      have hsame := hh.writer i
      rw [hu, Option.map_some, hk] at hsame
      obtain ⟨k', hk', hkk⟩ := Option.map_eq_some_iff.mp hsame.symm
      rw [hk', hkk]
    refine ⟨i, k, rfl, hki, by rw [hh.shared, hdraw], ?_⟩
    rw [Studio.turn_unit hki]
    constructor
    · rw [hshared, hsame, hh.shared]
    · intro j
      rw [hunit]
      by_cases hj : j = i
      · subst hj
        have hlt := (List.getElem?_eq_some_iff.mp hki).1
        simp [hwriter, hh.shared, hlt]
      · have hne : i ≠ j := Ne.symm hj
        simpa [hj, hne] using hh.writer j
    · intro j u' hu'
      rw [hunit, if_neg (by simp)] at hu'
      exact hh.reader j u' hu'

end hosts

/-! ## Sessions -/

namespace Session

variable {c : Settings} {s s' : Session E} {h h' : History E} {x : Moment E}

/-- The word that a unit of a writer draws at a moment, with the index of the writer. -/
def Moment.drawing? (x : Moment E) : Option (Nat × UInt64) :=
  match x.event with
  | .machine (.finish ⟨.writer, i⟩) =>
    ((Machine.unit? x.before.workshop ⟨.writer, i⟩).bind fun u =>
      u.draw? x.before.workshop.shared).map fun v => (i, v)
  | _ => none

/-- The words that were drawn, each with the index of its writer, the first one first. -/
def drawings (h : History E) : List (Nat × UInt64) := (h.filterMap Moment.drawing?).reverse

/-- The words that one writer drew, the first one first. -/
def drawn (i : Nat) (h : History E) : List UInt64 :=
  (drawings h).filterMap fun d => if d.1 = i then some d.2 else none

section drawn

omit [Accumulator E]

/-- A word is drawn only when a unit returns. -/
theorem drawing?_eq_none (hx : ∀ slot, x.event ≠ .machine (.finish slot)) : x.drawing? = none := by
  unfold Moment.drawing?
  split
  · next he => exact absurd he (hx _)
  · rfl

/-- What draws a word is a unit of a writer. -/
theorem event_of_drawing {i : Nat} {v : UInt64} (hx : x.drawing? = some (i, v)) :
    x.event = .machine (.finish ⟨.writer, i⟩) ∧
      ∃ u, Machine.unit? x.before.workshop ⟨.writer, i⟩ = some u := by
  unfold Moment.drawing? at hx
  split at hx
  · next j he =>
    obtain ⟨v', hv', hj⟩ := Option.map_eq_some_iff.mp hx
    obtain rfl : j = i := congrArg Prod.fst hj
    obtain ⟨u, hu, -⟩ := Option.bind_eq_some_iff.mp hv'
    exact ⟨he, u, hu⟩
  · cases hx

theorem drawings_append : drawings (h ++ h') = drawings h' ++ drawings h := by
  simp [drawings]

theorem drawn_append (i : Nat) : drawn i (h ++ h') = drawn i h' ++ drawn i h := by
  simp [drawn, drawings_append]

theorem drawn_cons_of_none (i : Nat) (hx : x.drawing? = none) : drawn i (x :: h) = drawn i h := by
  simp [drawn, drawings, hx]

theorem drawn_cons_of_some (i : Nat) {j : Nat} {v : UInt64} (hx : x.drawing? = some (j, v)) :
    drawn i (x :: h) = drawn i h ++ if j = i then [v] else [] := by
  by_cases hj : j = i <;> simp [drawn, drawings, hx, hj]

end drawn

/-- The words of all writers that are visible, given what each has drawn. -/
def visible (c : Settings) (ws : Nat → List UInt64) : Multiset UInt64 :=
  ∑ i ∈ Finset.range c.writers,
    ((ws i).take (c.mode.interval * ((ws i).length / c.mode.interval)) : List UInt64)

theorem visible_congr {ws ws' : Nat → List UInt64} (hws : ∀ i < c.writers, ws i = ws' i) :
    visible c ws = visible c ws' :=
  Finset.sum_congr rfl fun i hi => by rw [hws i (Finset.mem_range.mp hi)]

/-- In a part of a history each writer has drawn the first words of its stream, and the sketch has
what is visible of them. -/
structure Follows (R : Reading E) (c : Settings) (h : History E) (st : Studio E Source) : Prop where
  replaying : Studio.Replaying R (crew c) (fun i => (drawn i h).length) st
  drawn : ∀ i < c.writers, drawn i h = words (drawn i h).length (Workshop.stream c i)

section follows

variable {R : Reading E} {st : Studio E Source}

/-- A moment at which nothing is drawn changes nothing. -/
theorem Follows.quiet (hf : Follows R c h st) (hx : x.drawing? = none) :
    Follows R c (x :: h) st where
  replaying := by simpa only [drawn_cons_of_none _ hx] using hf.replaying
  drawn i hi := by
    rw [drawn_cons_of_none i hx]
    exact hf.drawn i hi

/-- A turn of a writer draws the next word of its stream. -/
theorem Follows.turn (hf : Follows R c h st) {i : Nat} {k : Sketch.Writer E Source}
    (hx : x.drawing? = some (i, k.draw st.shared)) (hk : st.writers[i]? = some k) :
    Follows R c (x :: h) (st.turn (.unit i)) := by
  obtain ⟨member, hm, -, hrep⟩ := hf.replaying.each i k hk
  obtain ⟨hi, rfl⟩ := List.getElem?_eq_some_iff.mp hm
  constructor
  · have hturn := hf.replaying.turn (.unit i)
    convert hturn using 1
    funext j
    by_cases hj : i = j <;> simp [drawn_cons_of_some j hx, Studio.drawnAfter, hj]
  · intro j hj
    rw [drawn_cons_of_some j hx]
    by_cases hij : i = j
    · subst hij
      have hnext := hrep.words_draw
      simp only [getElem_crew hi, Member.start, rewind_stream] at hnext
      simp only [if_true, List.length_append, List.length_singleton]
      rw [← hnext, ← hf.drawn i hj]
    · simpa [hij] using hf.drawn j hj

/-- The sketch has what is visible of the words drawn. -/
theorem Follows.contents (hf : Follows R c h st) {w : Workshop E} (hh : Hosts w st) :
    R.Holds w.shared.contents (visible c fun i => Session.drawn i h) := by
  have hholds := hf.replaying.contents
  rw [hh.shared, visible_crew] at hholds
  convert hholds using 1
  refine Finset.sum_congr rfl fun i hi => ?_
  dsimp only
  -- the first words of a stream are visible in whole batches
  rw [hf.drawn i (Finset.mem_range.mp hi), Supply.length_words,
    Supply.take_words _ _ (Nat.mul_div_le _ _)]
  rfl

end follows

/-! ## What an event does to the work -/

/-- What an event of a session does to the sketch and to the work of its workers. -/
inductive Works (s s' : Session E) : Event E → Prop where
  /-- A trial is asked for, and the sketch is emptied. -/
  | empties {updates : Nat} : s'.workshop.shared = s.workshop.shared.reset →
      (∀ t, Machine.unit? s'.workshop t = Machine.unit? s.workshop t) → Works s s' (.trial updates)
  /-- A unit returns. -/
  | unit {slot : Slot} :
      Machine.step WorkUnit.work s.workshop (.finish slot) = some s'.workshop →
      Works s s' (.machine (.finish slot))
  /-- Anything else leaves both as they are. -/
  | quiet {e : Event E} : Moment.asks? ⟨s, e, s'⟩ = none → (∀ slot, e ≠ .machine (.finish slot)) →
      s'.workshop.shared = s.workshop.shared →
      (∀ t, Machine.unit? s'.workshop t = Machine.unit? s.workshop t) → Works s s' e

theorem Works.of_step {e : Event E} (hs : s.step e = some s') : Works s s' e := by
  -- only a unit that returns, or the emptying for a new trial, touches the sketch and the work
  cases e with
  | trial updates =>
    obtain ⟨-, w, hw, rfl⟩ := ask_eq_some hs
    have hstep : Machine.step WorkUnit.work (Workshop.emptied s.workshop)
        (.invoke .controlling .reset) = some w := hw
    obtain ⟨hshared, hunit⟩ := Machine.unit?_of_step hstep (by simp) (by simp)
    exact .empties hshared hunit
  | goOn =>
    -- the thread only begins operations, which leaves the work alone
    have hquiet : s'.workshop.shared = s.workshop.shared ∧
        ∀ t, Machine.unit? s'.workshop t = Machine.unit? s.workshop t := by
      cases Goes.of_goOn hs with
      | fail | finish => exact ⟨rfl, fun t => rfl⟩
      | @run u _ w _ _ hw =>
        have hstep : Machine.step WorkUnit.work s.workshop
          (.invoke .controlling (.run u)) = some w := hw
        exact Machine.unit?_of_step hstep (by simp) (by simp)
      | @wait _ _ w _ _ hw =>
        have hstep : Machine.step WorkUnit.work s.workshop
          (.invoke .controlling (.wait (s.limit.map Time.Span.nanos))) = some w := hw
        exact Machine.unit?_of_step hstep (by simp) (by simp)
    exact .quiet rfl (by simp) hquiet.1 hquiet.2
  | machine e =>
    obtain ⟨he, w, hw, rfl⟩ := machine_eq_some hs
    by_cases hfinish : ∃ slot, e = .finish slot
    · obtain ⟨slot, rfl⟩ := hfinish
      exact .unit hw
    · obtain ⟨hshared, hunit⟩ := Machine.unit?_of_step hw
        (fun slot hslot => hfinish ⟨slot, hslot⟩) (by rintro _ _ _ rfl; cases he)
      exact .quiet rfl (fun slot hslot => hfinish ⟨slot, Event.machine.inj hslot⟩) hshared hunit

/-- Since the sketch was emptied the writers have followed their streams. -/
theorem Run.follows (run : Run (opening c) h s) (R : Reading E) :
    ∃ st : Studio E Source, Hosts s.workshop st ∧ Studio.Staffed (crew c) st ∧
      ∀ updates, asked? h = some updates → Follows R c (sinceEmptied h) st := by
  -- By induction on the run, with the studio taking a turn for each unit that draws.
  induction run with
  | start =>
    have hstaffed := (Studio.Staffed.empty (E := E)).joinAll (crew c)
    exact ⟨_, hosts_started c, by simpa using hstaffed, by simp [asked?]⟩
  | @next h s s' e run hs ih =>
    obtain ⟨st, hh, hstaffed, hsince⟩ := ih
    cases Works.of_step hs with
    | empties hshared hunit =>
      -- everybody starts again
      refine ⟨st.reset, hh.reset hshared hunit, hstaffed.reset, fun u _ => ?_⟩
      rw [sinceEmptied_cons_of_some rfl]
      exact ⟨hstaffed.replaying_reset, fun i _ => rfl⟩
    | quiet hx hne hshared hunit =>
      refine ⟨st, hh.congr hshared fun t => by rw [hunit], hstaffed, fun u hu => ?_⟩
      rw [sinceEmptied_cons_of_none hx]
      exact (hsince u (by simpa [asked?, hx] using hu)).quiet (drawing?_eq_none hne)
    | @unit slot hw =>
      cases hv : (Machine.unit? s.workshop slot).bind fun u => u.draw? s.workshop.shared with
      | none =>
        refine ⟨st, hh.finish_of_no_draw hw hv, hstaffed, fun u hu => ?_⟩
        rw [sinceEmptied_cons_of_none rfl]
        refine (hsince u hu).quiet ?_
        obtain ⟨role, i⟩ := slot
        cases role <;> simp [Moment.drawing?, hv]
      | some v =>
        obtain ⟨i, k, rfl, hk, hdraw, hh'⟩ := hh.finish_of_draw hw hv
        refine ⟨_, hh', hstaffed.turn _, fun u hu => ?_⟩
        rw [sinceEmptied_cons_of_none rfl]
        exact (hsince u hu).turn (by simp [Moment.drawing?, hv, hdraw]) hk

/-- The writers of a profile stay with it. -/
theorem Run.length_writers (run : Run (opening c) h s) : s.workshop.writers.length = c.writers := by
  -- nothing need be known of the sketch
  obtain ⟨st, hh, hstaffed, -⟩ :=
    run.follows ⟨fun _ _ => True, trivial, fun _ _ => trivial, fun _ _ => trivial⟩
  rw [hh.length, hstaffed.kept.1, length_crew]

end Session

end SpeedTrial.Profile
