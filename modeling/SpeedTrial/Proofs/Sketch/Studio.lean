import SpeedTrial.Proofs.Sketch.Replay
import Mathlib.Algebra.BigOperators.Fin

/-!
# Writers of both kinds at one sketch

A studio is some writers, of one mode or the other, at one shared accumulator.  They work in turns,
in whatever order, and others read in between.

* `Studio.Replaying`: since the accumulator was emptied each writer has drawn so many words of its
  stream, and what is visible of them is in the accumulator.
* `Replaying.turns`: this is so after every schedule.
* `gathering_keeps_registers`: what the registers are after a schedule, and that they do not depend
  on the modes or on the order if nothing is left gathered.
-/

namespace SpeedTrial.Sketch

open SpeedTrial.Stream (Supply)
open SpeedTrial.Stream.Supply (words)

/-! ## Studios -/

/-- Writers at one accumulator. -/
structure Studio (E V : Type) where
  writers : List (Writer E V)
  shared : Shared E

/-- Something that happens at the accumulator. -/
inductive Turn where
  /-- A unit of the writer with an index. -/
  | unit (i : Nat)
  /-- Somebody reads the estimate. -/
  | read
  deriving DecidableEq, Repr

/-- The mode of a writer and the stream that it was given. -/
structure Member (V : Type) where
  mode : Mode
  source : V

variable {E V : Type} [Accumulator E] [Supply V]

/-- Where the stream of a writer starts in a new epoch. -/
def Member.start (member : Member V) : V := Supply.rewind member.source

namespace Studio

/-- Nobody is there, and the accumulator has never been used. -/
def empty : Studio E V := ⟨[], Shared.empty⟩

/-- One more writer comes. -/
def join (member : Member V) (st : Studio E V) : Studio E V :=
  { st with writers := st.writers ++ [Writer.new member.mode member.source st.shared] }

/-- The accumulator is emptied. -/
def reset (st : Studio E V) : Studio E V := { st with shared := st.shared.reset }

/-- One turn; there is none of a writer that is not there. -/
def turn (st : Studio E V) : Turn → Studio E V
  | .unit i =>
    match st.writers[i]? with
    | none => st
    | some w => ⟨st.writers.set i (w.work st.shared).1, (w.work st.shared).2⟩
  | .read => { st with shared := ((WorkUnit.reader none : WorkUnit E V).work st.shared).2 }

/-- One turn after the other. -/
def turns (st : Studio E V) (ts : List Turn) : Studio E V := ts.foldl turn st

/-- The word that one writer draws in a turn. -/
def draw? (st : Studio E V) (i : Nat) (t : Turn) : Option UInt64 :=
  if t = .unit i then st.writers[i]?.map fun w => w.draw st.shared else none

/-- The words that one writer draws in a schedule, the first one first. -/
def drawn (i : Nat) : Studio E V → List Turn → List UInt64
  | _, [] => []
  | st, t :: ts => (st.draw? i t).toList ++ drawn i (st.turn t) ts

/-- The studios that these members can have, whatever they have done so far. -/
inductive Staffed : List (Member V) → Studio E V → Prop where
  | empty : Staffed [] empty
  | join {team : List (Member V)} {st : Studio E V} (member : Member V) :
      Staffed team st → Staffed (team ++ [member]) (st.join member)
  | turn {team : List (Member V)} {st : Studio E V} (t : Turn) :
      Staffed team st → Staffed team (st.turn t)
  | reset {team : List (Member V)} {st : Studio E V} : Staffed team st → Staffed team st.reset

variable {team team' : List (Member V)} {st st' : Studio E V} {R : Reading E} {n : Nat → Nat}
  {i : Nat} {t : Turn} {ts ts' : List Turn}

theorem turn_unit {w : Writer E V} (hw : st.writers[i]? = some w) :
    st.turn (.unit i) = ⟨st.writers.set i (w.work st.shared).1, (w.work st.shared).2⟩ := by
  simp [turn, hw]

theorem turn_unit_of_none (hw : st.writers[i]? = none) : st.turn (.unit i) = st := by
  simp [turn, hw]

@[simp] theorem turn_read : st.turn .read = st := rfl

omit [Accumulator E] [Supply V] in
/-- What holds of the writer that works and, as before, of the others, holds of all. -/
theorem forall_set {P : Nat → Writer E V → Prop} {ws : List (Writer E V)} {w' : Writer E V}
    (hown : P i w') (hothers : ∀ j w, j ≠ i → ws[j]? = some w → P j w) :
    ∀ j w, (ws.set i w')[j]? = some w → P j w := by
  intro j w hw
  rw [List.getElem?_set] at hw
  by_cases hj : i = j
  · subst hj
    rw [if_pos rfl] at hw
    split at hw
    · cases hw
      exact hown
    · cases hw
  · rw [if_neg hj] at hw
    exact hothers j w (Ne.symm hj) hw

/-! ## What never changes -/

/-- A writer is that of a member, and knows of no epoch to come. -/
structure Kept (member : Member V) (epoch : Nat) (w : Writer E V) : Prop where
  start : Supply.rewind w.source = member.start
  interval : w.interval = member.mode.interval
  seen_le : w.seen ≤ epoch

omit [Accumulator E] in
theorem Kept.mono {member : Member V} {epoch epoch' : Nat} {w : Writer E V}
    (hk : Kept member epoch w) (hle : epoch ≤ epoch') : Kept member epoch' w :=
  ⟨hk.start, hk.interval, hk.seen_le.trans hle⟩

theorem Kept.work {member : Member V} {s : Shared E} {w : Writer E V}
    (hk : Kept member s.epoch w) : Kept member s.epoch (w.work s).1 where
  start := by rw [w.rewind_work, hk.start]
  interval := by rw [w.interval_work, hk.interval]
  seen_le := by simp

/-- There is one writer for each member, and it is that of the member. -/
theorem Staffed.kept (hst : Staffed team st) :
    st.writers.length = team.length ∧
      ∀ (j : Nat) (w : Writer E V), st.writers[j]? = some w → ∃ member, team[j]? = some member ∧
        Kept member st.shared.epoch w := by
  induction hst with
  | empty => exact ⟨rfl, by simp [Studio.empty]⟩
  | @join team st member _ ih =>
    obtain ⟨hlen, hall⟩ := ih
    refine ⟨by simp [Studio.join, hlen], fun j w hw => ?_⟩
    simp only [Studio.join] at hw
    by_cases hj : j < st.writers.length
    · rw [List.getElem?_append_left hj] at hw
      obtain ⟨member', hm, hk⟩ := hall j w hw
      exact ⟨member', by rw [List.getElem?_append_left (hlen ▸ hj), hm], hk⟩
    · -- the one that has just come knows the current epoch
      have hge := Nat.le_of_not_lt hj
      rw [List.getElem?_append_right hge] at hw
      obtain ⟨hzero, rfl⟩ :
          j - st.writers.length = 0 ∧ Writer.new member.mode member.source st.shared = w := by
        simpa [List.getElem?_singleton] using hw
      refine ⟨member, ?_, ⟨by simp [Member.start], by simp, by simp [Studio.join]⟩⟩
      rw [List.getElem?_append_right (by omega), ← hlen, hzero]
      rfl
  | @turn team st t _ ih =>
    obtain ⟨hlen, hall⟩ := ih
    cases t with
    | read => exact ⟨hlen, hall⟩
    | unit i =>
      cases hw : st.writers[i]? with
      | none => rw [turn_unit_of_none hw]; exact ⟨hlen, hall⟩
      | some w =>
        rw [turn_unit hw]
        refine ⟨by simp [hlen], forall_set ?_ fun j w' _ hw' => ?_⟩
        · obtain ⟨member, hm, hk⟩ := hall i w hw
          exact ⟨member, hm, by simpa using hk.work⟩
        · simpa using hall j w' hw'
  | reset _ ih =>
    obtain ⟨hlen, hall⟩ := ih
    refine ⟨hlen, fun j w hw => ?_⟩
    obtain ⟨member, hm, hk⟩ := hall j w hw
    exact ⟨member, hm, hk.mono (Nat.le_succ _)⟩

/-- Several writers come, one after the other. -/
def joinAll (st : Studio E V) (members : List (Member V)) : Studio E V :=
  members.foldl (fun st member => st.join member) st

omit [Supply V] in
theorem joinAll_eq (members : List (Member V)) : st.joinAll members =
    ⟨st.writers ++ members.map fun member => Writer.new member.mode member.source st.shared,
      st.shared⟩ := by
  induction members generalizing st with
  | nil => simp [joinAll]
  | cons member members ih =>
    rw [joinAll, List.foldl_cons]
    refine ih.trans ?_
    simp [Studio.join]

theorem Staffed.joinAll (hst : Staffed team st) (members : List (Member V)) :
    Staffed (team ++ members) (st.joinAll members) := by
  induction members generalizing team st with
  | nil => simpa [Studio.joinAll] using hst
  | cons member members ih => simpa [Studio.joinAll] using ih (hst.join member)

/-! ## Since the accumulator was emptied -/

/-- The words of all members that are visible when each has drawn so many. -/
def visible (team : List (Member V)) (n : Nat → Nat) : Multiset UInt64 :=
  ∑ i : Fin team.length, Writer.visible team[i].mode.interval (n i) team[i].start

/-- Since the accumulator was emptied each writer has drawn so many words of its stream, and what
is visible of them is all that is in the accumulator. -/
structure Replaying (R : Reading E) (team : List (Member V)) (n : Nat → Nat) (st : Studio E V) :
    Prop where
  length : st.writers.length = team.length
  each : ∀ (j : Nat) (w : Writer E V), st.writers[j]? = some w → ∃ member, team[j]? = some member ∧
    w.interval = member.mode.interval ∧ w.Replays R member.start st.shared.epoch (n j)
  contents : R.Holds st.shared.contents (visible team n)

/-- A reset that finds everybody idle makes everybody start again. -/
theorem Staffed.replaying_reset (hst : Staffed team st) :
    Replaying R team (fun _ => 0) st.reset := by
  obtain ⟨hlen, hall⟩ := hst.kept
  refine ⟨hlen, fun j w hw => ?_, by simpa [visible, Studio.reset, Shared.reset] using R.empty⟩
  obtain ⟨member, hm, hk⟩ := hall j w hw
  have hlt : w.seen < st.reset.shared.epoch := Nat.lt_succ_of_le hk.seen_le
  exact ⟨member, hm, hk.interval, .unaware (Nat.ne_of_lt hlt) hk.start⟩

/-- The number of words that each has drawn after one more turn. -/
def drawnAfter (n : Nat → Nat) (t : Turn) (j : Nat) : Nat := if t = .unit j then n j + 1 else n j

omit [Accumulator E] in
/-- One more word of a writer that is not there is visible nowhere. -/
theorem visible_drawnAfter_of_le (hi : team.length ≤ i) :
    visible team (drawnAfter n (.unit i)) = visible team n := by
  refine Finset.sum_congr rfl fun k _ => ?_
  have hne : i ≠ k := by omega
  simp [drawnAfter, hne]

omit [Accumulator E] in
/-- What is visible of the words of one member, and of those of all others. -/
theorem visible_eq_add (hi : i < team.length) :
    ∃ rest, visible team n = rest + Writer.visible team[i].mode.interval (n i) team[i].start ∧
      visible team (drawnAfter n (.unit i)) =
        rest + Writer.visible team[i].mode.interval (n i + 1) team[i].start := by
  refine ⟨∑ k ∈ (Finset.univ : Finset (Fin team.length)).erase ⟨i, hi⟩,
    Writer.visible team[k].mode.interval (n k) team[k].start, ?_, ?_⟩
  · exact (Finset.sum_erase_add _ _ (Finset.mem_univ (⟨i, hi⟩ : Fin team.length))).symm
  · rw [visible, ← Finset.sum_erase_add _ _ (Finset.mem_univ (⟨i, hi⟩ : Fin team.length))]
    congr 1
    · refine Finset.sum_congr rfl fun k hk => ?_
      have hne : i ≠ k := fun h => (Finset.mem_erase.mp hk).1 (Fin.ext h.symm)
      simp [drawnAfter, hne]
    · simp [drawnAfter]

theorem Replaying.turn (hr : Replaying R team n st) (t : Turn) :
    Replaying R team (drawnAfter n t) (st.turn t) := by
  cases t with
  | read => exact hr
  | unit i =>
    cases hw : st.writers[i]? with
    | none =>
      have hle : st.writers.length ≤ i := List.getElem?_eq_none_iff.mp hw
      rw [turn_unit_of_none hw]
      refine ⟨hr.length, fun j w' hw' => ?_, ?_⟩
      · have hne : i ≠ j := by
          rintro rfl
          rw [hw] at hw'
          cases hw'
        simpa [drawnAfter, hne] using hr.each j w' hw'
      · rw [visible_drawnAfter_of_le (hr.length ▸ hle)]
        exact hr.contents
    | some w =>
      obtain ⟨member, hm, hint, hrep⟩ := hr.each i w hw
      obtain ⟨hnext, hholds⟩ := hrep.work
      rw [turn_unit hw]
      constructor
      · simp [hr.length]
      · refine forall_set ⟨member, hm, by simp [hint], ?_⟩ fun j w' hj hw' => ?_
        · simpa [drawnAfter] using hnext
        · have hne : i ≠ j := Ne.symm hj
          simpa [drawnAfter, hne] using hr.each j w' hw'
      · -- the words of the others stay
        obtain ⟨hi, rfl⟩ := List.getElem?_eq_some_iff.mp hm
        obtain ⟨rest, hbefore, hafter⟩ := visible_eq_add (n := n) hi
        rw [hafter, ← hint]
        apply hholds
        rw [hint, ← hbefore]
        exact hr.contents

/-! ## Schedules -/

/-- How many units of each writer a schedule has. -/
def units (ts : List Turn) (i : Nat) : Nat := ts.count (.unit i)

omit [Accumulator E] [Supply V] in
/-- The first turn comes before all others. -/
theorem add_units_cons (n : Nat → Nat) (t : Turn) (ts : List Turn) :
    n + units (t :: ts) = drawnAfter n t + units ts := by
  funext j
  by_cases h : t = .unit j <;> simp [units, drawnAfter, h, Nat.add_assoc, Nat.add_comm 1]

theorem Replaying.turns (hr : Replaying R team n st) (ts : List Turn) :
    Replaying R team (n + units ts) (st.turns ts) := by
  induction ts generalizing n st with
  | nil =>
    have hnone : n + units [] = n := by
      funext j
      simp [units]
    rw [hnone]
    exact hr
  | cons t ts ih =>
    rw [add_units_cons]
    exact ih (hr.turn t)

/-- What a writer draws in a schedule are the next words of its stream. -/
theorem Replaying.words_drawn (hr : Replaying R team n st) (hi : i < team.length) (ts : List Turn) :
    words (n i) team[i].start ++ drawn i st ts = words (n i + units ts i) team[i].start := by
  induction ts generalizing n st with
  | nil => simp [drawn, units]
  | cons t ts ih =>
    have hrest := ih (hr.turn t)
    have hcount := congrFun (add_units_cons n t ts) i
    simp only [Pi.add_apply] at hcount
    rw [drawn, hcount, ← hrest, ← List.append_assoc]
    congr 1
    by_cases ht : t = .unit i
    · subst ht
      have hlen : i < st.writers.length := hr.length ▸ hi
      obtain ⟨member, hm, -, hrep⟩ := hr.each i st.writers[i] (List.getElem?_eq_getElem hlen)
      obtain ⟨_, rfl⟩ := List.getElem?_eq_some_iff.mp hm
      simpa [draw?, hlen, drawnAfter] using hrep.words_draw
    · simp [draw?, drawnAfter, ht]

/-- The words that streams have handed out when each is so many words on. -/
def handedOut (starts : List V) (n : Nat → Nat) : Multiset UInt64 :=
  ∑ i : Fin starts.length, (words (n i) starts[i] : List UInt64)

omit [Accumulator E] in
/-- If nothing is left gathered, the modes of the members do not matter. -/
theorem visible_of_dvd (h : ∀ (i : Nat) (hi : i < team.length), team[i].mode.interval ∣ n i) :
    visible team n = handedOut (team.map Member.start) n := by
  refine Fintype.sum_equiv (finCongr (List.length_map _).symm) _ _ fun i => ?_
  simpa using Writer.visible_of_dvd _ (h i i.isLt)

omit [Accumulator E] in
/-- It matters only how many words those have handed out that are there. -/
theorem handedOut_congr {starts : List V} {n n' : Nat → Nat}
    (h : ∀ i < starts.length, n i = n' i) : handedOut starts n = handedOut starts n' :=
  Finset.sum_congr rfl fun i _ => by rw [h i i.isLt]

end Studio

/-! ## The registers -/

open Studio in
/-- After an emptying that finds all writers idle let them work in any order, with reads in between.
A writer draws the first words of its stream, and fewer of them than it gathers are left out: each
register has the largest rank among the words of the locked writers and those words of the buffered
ones that were merged.  Let the same streams go into another accumulator, with other modes and in
another order.  If no writer is left with words of its own, here and there, the registers are the
same, and so is the estimate while no more distinct codes came than fit into a list. -/
theorem gathering_keeps_registers {V : Type} [Supply V] {team : List (Member V)}
    {st : Studio Estimator V} (hst : Staffed team st) (ts : List Turn) :
    (∀ (i : Nat) (hi : i < team.length),
      drawn i st.reset ts = words (units ts i) team[i].start ∧
        units ts i - team[i].mode.interval * (units ts i / team[i].mode.interval) ≤
          team[i].mode.interval - 1) ∧
    (∀ r, (st.reset.turns ts).shared.contents.expanded r =
      Finset.univ.sup fun i : Fin team.length => Reading.largest r
        ((drawn i st.reset ts).take
          (team[i].mode.interval * (units ts i / team[i].mode.interval)) : List UInt64)) ∧
    ∀ {team' : List (Member V)} {st' : Studio Estimator V} (_ : Staffed team' st') (ts' : List Turn),
      team'.map Member.start = team.map Member.start →
      (∀ i < team.length, units ts' i = units ts i) →
      (∀ (i : Nat) (hi : i < team.length), team[i].mode.interval ∣ units ts i) →
      (∀ (i : Nat) (hi : i < team'.length), team'[i].mode.interval ∣ units ts' i) →
      (∀ r, (st'.reset.turns ts').shared.contents.expanded r =
        (st.reset.turns ts).shared.contents.expanded r) ∧
      ((Reading.codes (handedOut (team.map Member.start) (units ts))).card ≤ Estimator.listLimit →
        (st'.reset.turns ts').shared.contents.estimate =
          (st.reset.turns ts).shared.contents.estimate) := by
  have hreset := hst.replaying_reset (R := Reading.registers)
  have hdrawn (i : Nat) (hi : i < team.length) :
      drawn i st.reset ts = words (units ts i) team[i].start := by
    simpa using hreset.words_drawn hi ts
  obtain ⟨hmax, hform⟩ : Reading.registers.Holds _ (visible team (units ts)) := by
    simpa [Pi.add_def] using (hreset.turns ts).contents
  refine ⟨fun i hi => ⟨hdrawn i hi, ?_⟩, fun r => ?_,
    fun {team' st'} hst' ts' hstart hunits hdvd hdvd' => ?_⟩
  · -- less than a whole batch is left
    have hlt := Nat.mod_lt (units ts i) (Mode.interval_pos team[i].mode)
    have hdiv := Nat.div_add_mod (units ts i) team[i].mode.interval
    omega
  · rw [hmax, visible, Reading.largest_sum]
    refine Finset.sup_congr rfl fun i _ => ?_
    rw [hdrawn i i.isLt, Supply.take_words _ _ (Nat.mul_div_le _ _)]
    rfl
  · obtain ⟨hmax', hform'⟩ : Reading.registers.Holds _ (visible team' (units ts')) := by
      simpa [Pi.add_def] using ((hst'.replaying_reset (R := Reading.registers)).turns ts').contents
    have hsame : visible team' (units ts') = visible team (units ts) := by
      rw [visible_of_dvd hdvd, visible_of_dvd hdvd', hstart]
      exact handedOut_congr (by simpa using hunits)
    rw [hsame] at hmax' hform'
    refine ⟨fun r => by rw [hmax', hmax], fun hle => ?_⟩
    rw [← visible_of_dvd hdvd] at hle
    rw [hform'.estimate_eq hle, hform.estimate_eq hle]

/-- A writer of even words that inserts directly, and one of odd words in some mode. -/
def duet (mode : Mode) : List (Member Stream.Source) :=
  [⟨.locked, Stream.Source.forWriter .sequential 0 2 0⟩, ⟨mode, Stream.Source.forWriter .sequential 1 2 0⟩]

/-- Both have come, and the odd one has worked before. -/
def duetStudio (mode : Mode) : Studio Estimator Stream.Source :=
  (Studio.joinAll Studio.empty (duet mode)).turn (.unit 1)

theorem staffed_duetStudio (mode : Mode) : Studio.Staffed (duet mode) (duetStudio mode) :=
  .turn _ (Studio.Staffed.empty.joinAll (duet mode))

open Studio in
theorem gathering_keeps_registers_duet :
    drawn 1 (duetStudio (.buffered 2)).reset [.unit 1, .unit 0, .read, .unit 1] = [1, 3] ∧
    (∀ r, ((duetStudio .locked).reset.turns [.unit 1, .unit 1, .unit 0]).shared.contents.expanded r =
      ((duetStudio (.buffered 2)).reset.turns
        [.unit 1, .unit 0, .read, .unit 1]).shared.contents.expanded r) ∧
    ((duetStudio .locked).reset.turns [.unit 1, .unit 1, .unit 0]).shared.contents.estimate =
      ((duetStudio (.buffered 2)).reset.turns
        [.unit 1, .unit 0, .read, .unit 1]).shared.contents.estimate := by
  obtain ⟨hdrawn, -, hother⟩ := gathering_keeps_registers (staffed_duetStudio (.buffered 2))
    [.unit 1, .unit 0, .read, .unit 1]
  obtain ⟨hregisters, hestimate⟩ := hother (staffed_duetStudio .locked) [.unit 1, .unit 1, .unit 0]
    rfl (by decide) (by decide) (by decide)
  exact ⟨(hdrawn 1 (by decide)).1, hregisters, hestimate (by decide +kernel)⟩

end SpeedTrial.Sketch
