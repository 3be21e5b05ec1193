import SpeedTrial.Sketch.WorkUnit
import SpeedTrial.Proofs.Sketch.Reading
import SpeedTrial.Proofs.Stream.Words

/-!
# Writers that replay their stream

Since the shared accumulator was emptied a writer has drawn the first words of its stream.  One that
inserts directly has made all of them visible, and one that gathers words all but those since its
last merge.

* `Writer.Replays`: a writer has drawn so many words in the current epoch.
* `Replays.work` and `Replays.holds_work`: what one more unit does to the writer and to what is
  visible of its words.
-/

namespace SpeedTrial.Sketch

open SpeedTrial.Stream (Supply)
open SpeedTrial.Stream.Supply (words after)

variable {E V : Type}

/-! ## What a writer is -/

/-- How many words a writer in this mode gathers before they are visible. -/
def Mode.interval : Mode → Nat
  | .locked => 1
  | .buffered n => max n 1

theorem Mode.interval_pos (mode : Mode) : 0 < mode.interval := by
  cases mode <;> simp [interval]

namespace Writer

def source : Writer E V → V
  | .locked w => w.source
  | .buffered w => w.source

/-- The epoch of its last unit. -/
def seen : Writer E V → Nat
  | .locked w => w.seen
  | .buffered w => w.seen

/-- How many words the writer gathers before they are visible. -/
def interval : Writer E V → Nat
  | .locked _ => 1
  | .buffered w => w.flushEvery

section new

variable [Accumulator E] (mode : Mode) (source : V) (s : Shared E)

@[simp] theorem interval_new : (Writer.new mode source s).interval = mode.interval := by
  cases mode <;> rfl

@[simp] theorem source_new : (Writer.new mode source s).source = source := by
  cases mode <;> rfl

@[simp] theorem seen_new : (Writer.new mode source s).seen = s.epoch := by
  cases mode <;> rfl

end new

/-! ## One unit -/

variable [Supply V]

/-- The stream at the start of a unit: in a new epoch it starts again. -/
def stream (w : Writer E V) (s : Shared E) : V :=
  if s.epoch ≠ w.seen then Supply.rewind w.source else w.source

/-- The word that a unit of the writer draws. -/
def draw (w : Writer E V) (s : Shared E) : UInt64 := (Supply.next (w.stream s)).1

variable [Accumulator E]

/-- The writer at the start of a unit. -/
def synchronised (w : Writer E V) (s : Shared E) : Writer E V :=
  match w with
  | .locked w => .locked ⟨w.stream s, s.epoch⟩
  | .buffered w => .buffered (w.synchronised s)

section work

variable (w : Writer E V) (s : Shared E)

@[simp] theorem source_synchronised : (w.synchronised s).source = w.stream s := by
  cases w with
  | locked w => rfl
  | buffered w =>
    by_cases h : s.epoch = w.seen <;>
      simp [synchronised, BufferedWriter.synchronised, stream, source, seen, h]

@[simp] theorem seen_synchronised : (w.synchronised s).seen = s.epoch := by
  cases w with
  | locked w => rfl
  | buffered w =>
    by_cases h : s.epoch = w.seen <;>
      simp [synchronised, BufferedWriter.synchronised, seen, h]

@[simp] theorem interval_synchronised : (w.synchronised s).interval = w.interval := by
  cases w with
  | locked w => rfl
  | buffered w =>
    by_cases h : s.epoch = w.seen <;>
      simp [synchronised, BufferedWriter.synchronised, interval, h]

/-- A unit of a writer that was already at the start of one is the same. -/
theorem work_synchronised : (w.synchronised s).work s = w.work s := by
  cases w with
  | locked w => simp [synchronised, work, LockedWriter.work, LockedWriter.stream]
  | buffered w =>
    have hagain : (w.synchronised s).synchronised s = w.synchronised s := by
      by_cases h : s.epoch = w.seen <;> simp [BufferedWriter.synchronised, h]
    simp only [synchronised, work, BufferedWriter.work, hagain]

@[simp] theorem source_work : (w.work s).1.source = (Supply.next (w.stream s)).2 := by
  cases w with
  | locked w => rfl
  | buffered w =>
    rw [← source_synchronised]
    simp only [work, BufferedWriter.work, synchronised]
    split <;> rfl

@[simp] theorem seen_work : (w.work s).1.seen = s.epoch := by
  cases w with
  | locked w => rfl
  | buffered w =>
    rw [← seen_synchronised (.buffered w)]
    simp only [work, BufferedWriter.work, synchronised]
    split <;> rfl

@[simp] theorem interval_work : (w.work s).1.interval = w.interval := by
  cases w with
  | locked w => rfl
  | buffered w =>
    rw [← interval_synchronised (.buffered w) s]
    simp only [work, BufferedWriter.work, synchronised]
    split <;> rfl

@[simp] theorem epoch_work : (w.work s).2.epoch = s.epoch := by
  cases w with
  | locked w => rfl
  | buffered w =>
    simp only [work, BufferedWriter.work]
    split <;> rfl

/-- A unit does not change where the stream starts. -/
@[simp] theorem rewind_work : Supply.rewind (w.work s).1.source = Supply.rewind w.source := by
  rw [source_work, Supply.rewind_next, stream]
  split
  · exact Supply.rewind_rewind _
  · rfl

end work

/-! ## Replaying -/

/-- A writer has drawn so many words of a stream in an epoch.  If it has drawn none, it may not
know of the epoch yet. -/
inductive Replays (R : Reading E) (start : V) (epoch : Nat) : Nat → Writer E V → Prop where
  | unaware {w : Writer E V} : w.seen ≠ epoch → Supply.rewind w.source = start →
      Replays R start epoch 0 w
  | locked {n : Nat} : Replays R start epoch n (.locked ⟨after n start, epoch⟩)
  /-- The words since the last merge are gathered. -/
  | buffered {n f : Nat} {gathered : E} (hf : 0 < f) :
      R.Holds gathered ((words n start).drop (f * (n / f)) : List UInt64) →
      Replays R start epoch n (.buffered ⟨after n start, gathered, n % f, f, hf, epoch⟩)

/-- The words of a stream that are visible when so many were drawn. -/
def visible (f n : Nat) (start : V) : Multiset UInt64 := (words (f * (n / f)) start : List UInt64)

section visible

variable (f n : Nat) (start : V)

@[simp] theorem visible_zero : visible f 0 start = 0 := by
  simp [visible]

/-- Of the words drawn those that are not visible come last. -/
theorem visible_add_drop :
    visible f n start + ((words n start).drop (f * (n / f)) : List UInt64) =
      (words n start : Multiset UInt64) := by
  rw [visible, ← Supply.take_words n start (Nat.mul_div_le n f), Multiset.coe_add,
    List.take_append_drop]

/-- Without gathering every word is visible. -/
theorem visible_of_dvd {f n : Nat} (hf : f ∣ n) :
    visible f n start = (words n start : List UInt64) := by
  rw [visible, Nat.mul_div_cancel' hf]

/-- A merge is due with every so many words. -/
theorem dvd_succ_of_full {f n : Nat} (hf : 0 < f) (hfull : f ≤ n % f + 1) : f ∣ n + 1 := by
  have hlt := Nat.mod_lt n hf
  have hdiv := Nat.div_add_mod n f
  exact ⟨n / f + 1, by rw [Nat.mul_succ]; omega⟩

/-- The words that are gathered when a merge is due are all up to the next one. -/
theorem visible_succ_of_full {f n : Nat} (hf : 0 < f) (hfull : f ≤ n % f + 1) :
    visible f (n + 1) start = visible f n start +
      (((words n start).drop (f * (n / f)) : List UInt64) + {(Supply.next (after n start)).1}) := by
  rw [visible_of_dvd start (dvd_succ_of_full hf hfull), ← add_assoc, visible_add_drop,
    Supply.words_succ]
  rfl

end visible

/-- Short of a merge the quotient stays and the remainder grows. -/
theorem div_mod_succ {f n : Nat} (hlt : n % f + 1 < f) :
    (n + 1) / f = n / f ∧ (n + 1) % f = n % f + 1 := by
  have hsplit : n + 1 = n % f + 1 + f * (n / f) := by
    have hdiv := Nat.div_add_mod n f
    omega
  have hpos : 0 < f := by omega
  constructor
  · rw [hsplit, Nat.add_mul_div_left _ _ hpos, Nat.div_eq_of_lt hlt, Nat.zero_add]
  · rw [hsplit, Nat.add_mul_mod_self_left, Nat.mod_eq_of_lt hlt]

namespace Replays

variable {R : Reading E} {start : V} {s : Shared E} {n : Nat} {w : Writer E V}

/-- At the start of a unit the writer knows of the epoch. -/
theorem synchronised (hr : w.Replays R start s.epoch n) :
    (w.synchronised s).Replays R start s.epoch n := by
  cases hr with
  | @unaware w hseen hstart =>
    cases w with
    | locked w =>
      have hne : s.epoch ≠ w.seen := Ne.symm hseen
      have hstream : w.stream s = after 0 start := by
        rw [LockedWriter.stream, if_pos hne]
        exact hstart
      simp only [Writer.synchronised, hstream]
      exact .locked
    | buffered w =>
      have hne : s.epoch ≠ w.seen := Ne.symm hseen
      have hsource : Supply.rewind w.source = after 0 start := hstart
      -- what was gathered is dropped, and nothing is
      have hfresh : (Writer.buffered ⟨after 0 start, Accumulator.empty, 0 % w.flushEvery,
          w.flushEvery, w.flushEvery_pos, s.epoch⟩).Replays R start s.epoch 0 :=
        .buffered _ (by simpa using R.empty)
      simpa [Writer.synchronised, BufferedWriter.synchronised, hne, hsource] using hfresh
  | locked => simpa [Writer.synchronised, LockedWriter.stream] using .locked
  | buffered hf hg => simpa [Writer.synchronised, BufferedWriter.synchronised] using .buffered hf hg

/-- The stream goes on where it was. -/
theorem stream_eq (hr : w.Replays R start s.epoch n) : w.stream s = after n start := by
  cases hr with
  | unaware hseen hstart => rw [stream, if_pos (Ne.symm hseen), hstart, Supply.after_zero]
  | locked => simp [stream, seen, source]
  | buffered => simp [stream, seen, source]

/-- A unit draws the next word of the stream. -/
theorem words_draw (hr : w.Replays R start s.epoch n) :
    words n start ++ [w.draw s] = words (n + 1) start := by
  rw [draw, hr.stream_eq, Supply.words_succ]

/-- One more unit draws one more word, and makes the words visible that are gathered if they are
enough. -/
theorem work (hr : w.Replays R start s.epoch n) :
    (w.work s).1.Replays R start s.epoch (n + 1) ∧
      ∀ rest, R.Holds s.contents (rest + visible w.interval n start) →
        R.Holds (w.work s).2.contents (rest + visible w.interval (n + 1) start) := by
  have haware := hr.synchronised
  have hseen := w.seen_synchronised s
  rw [← Writer.work_synchronised, ← w.interval_synchronised s]
  generalize w.synchronised s = w at haware hseen
  cases haware with
  | unaware hne => exact absurd hseen hne
  | locked =>
    simp only [Writer.work, LockedWriter.work, LockedWriter.stream, ne_eq, not_true_eq_false,
      if_false, ← Supply.after_succ, interval]
    refine ⟨.locked, fun rest hrest => ?_⟩
    rw [visible_succ_of_full start Nat.one_pos (by omega)]
    have hinsert := R.insert (Supply.next (after n start)).1 hrest
    simpa [Shared.insert, add_assoc] using hinsert
  | @buffered _ f gathered hf hg =>
    have hgathered := R.insert (Supply.next (after n start)).1 hg
    simp only [Writer.work, BufferedWriter.work, BufferedWriter.synchronised, ne_eq, not_true_eq_false,
      if_false, ← Supply.after_succ, interval]
    by_cases hfull : f ≤ n % f + 1
    · rw [if_pos hfull]
      refine ⟨?_, fun rest hrest => ?_⟩
      · have hdvd := dvd_succ_of_full hf hfull
        have hmerged : (Writer.buffered ⟨after (n + 1) start, Accumulator.empty, (n + 1) % f, f, hf,
            s.epoch⟩).Replays R start s.epoch (n + 1) :=
          .buffered hf (by simpa [Nat.mul_div_cancel' hdvd] using R.empty)
        rwa [Nat.mod_eq_zero_of_dvd hdvd] at hmerged
      · rw [visible_succ_of_full start hf hfull, ← add_assoc]
        exact R.merge hrest hgathered
    · rw [if_neg hfull]
      obtain ⟨hdiv, hmod⟩ := div_mod_succ (by omega : n % f + 1 < f)
      refine ⟨?_, fun rest hrest => ?_⟩
      · rw [← hmod]
        refine .buffered hf ?_
        rw [hdiv, Supply.words_succ, List.drop_append_of_le_length]
        · exact hgathered
        · simpa using Nat.mul_div_le n f
      · rwa [visible, hdiv]

end Replays

end Writer

end SpeedTrial.Sketch
