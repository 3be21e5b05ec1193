import SpeedTrial.Sketch.WorkUnit
import Mathlib

/-!
# Writers that hold a share

A writer that also reads lets its inner writer work whenever the writes are below a share of the units so far.
Its counters start again with the first unit that finds another epoch than the unit before.  From there on the
number of writes is known at every unit, not only in the long run: it is the share of the units before the
last one, rounded up.

* `Chronicle` is such a writer together with what has happened since it last saw a reset.
* `Divides` says what a writer does that lets its inner writer work in some units and nobody in the others.
* `Holding.unit` says that a unit keeps the share, and `Chronicle.holds_after` that every history does.
* `writes_hold_share` gives the number of writes, and how far it is off the share.
-/

namespace SpeedTrial.Sketch

variable {W E : Type}

/-! ## Histories -/

/-- Something that happens to a writer that divides its units, or to its sketch. -/
inductive Happening (W E : Type) where
  /-- A unit of the writer.  The call is what the inner writer does if it has to work in this unit, with all
  that others do to the sketch at that time. -/
  | unit (call : W → Shared E → W × Shared E)
  /-- Others insert words into the sketch, merge some or empty it. -/
  | outside (act : Shared E → Shared E)

/-- How many of these are units. -/
def Happening.units : List (Happening W E) → Nat
  | [] => 0
  | .unit _ :: hs => units hs + 1
  | .outside _ :: hs => units hs

/-- What has happened, last first, led from one inner writer and sketch to another, and in so many of the
units the inner writer worked, once each, while in so many others neither of the two was changed. -/
inductive Divides :
    List (Happening W E) → (writes reads : Nat) → W × Shared E → W × Shared E → Prop where
  /-- Nothing has happened yet. -/
  | start (p : W × Shared E) : Divides [] 0 0 p p
  /-- The inner writer works. -/
  | write {hs : List (Happening W E)} {writes reads : Nat} {p q : W × Shared E}
      (call : W → Shared E → W × Shared E) :
      Divides hs writes reads p q → Divides (.unit call :: hs) (writes + 1) reads p (call q.1 q.2)
  /-- The inner writer is not called, and the sketch is only read. -/
  | read {hs : List (Happening W E)} {writes reads : Nat} {p q : W × Shared E}
      (call : W → Shared E → W × Shared E) :
      Divides hs writes reads p q → Divides (.unit call :: hs) writes (reads + 1) p q
  /-- Others act on the sketch. -/
  | outside {hs : List (Happening W E)} {writes reads : Nat} {p q : W × Shared E}
      (act : Shared E → Shared E) :
      Divides hs writes reads p q → Divides (.outside act :: hs) writes reads p (q.1, act q.2)

/-- A writer with its sketch and what has happened since it last saw a reset.  It sees one in a unit that
finds another epoch than the unit before it, and then that unit is the first of a new period. -/
structure Chronicle (W E : Type) where
  writer : Mixed W
  shared : Shared E
  /-- The epoch that the last unit found, or that the writer was made in. -/
  epoch : Nat
  /-- The inner writer and the sketch when the period began. -/
  start : W × Shared E
  /-- What has happened in the period, last first. -/
  period : List (Happening W E)

namespace Chronicle

/-- A new writer. -/
def new (inner : W) (s : Shared E) : Chronicle W E := ⟨Mixed.new inner s, s, s.epoch, (inner, s), []⟩

/-- What happens next. -/
def next (owes : Nat → Nat → Bool) (c : Chronicle W E) : Happening W E → Chronicle W E
  | .unit call =>
    let (writer, shared) := c.writer.work owes call c.shared
    if c.shared.epoch = c.epoch then
      { c with writer := writer, shared := shared, period := .unit call :: c.period }
    else ⟨writer, shared, c.shared.epoch, (c.writer.inner, c.shared), [.unit call]⟩
  | .outside act => { c with shared := act c.shared, period := .outside act :: c.period }

/-- A new writer after all that happens to it, one after the other. -/
def after (owes : Nat → Nat → Bool) (inner : W) (s : Shared E) (hs : List (Happening W E)) :
    Chronicle W E :=
  hs.foldl (next owes) (new inner s)

end Chronicle

section next

variable {owes : Nat → Nat → Bool} {c : Chronicle W E} (call : W → Shared E → W × Shared E)

theorem Chronicle.next_of_eq (h : c.shared.epoch = c.epoch) : c.next owes (.unit call) =
    ⟨(c.writer.work owes call c.shared).1, (c.writer.work owes call c.shared).2, c.epoch, c.start,
      .unit call :: c.period⟩ :=
  if_pos h

theorem Chronicle.next_of_ne (h : c.shared.epoch ≠ c.epoch) : c.next owes (.unit call) =
    ⟨(c.writer.work owes call c.shared).1, (c.writer.work owes call c.shared).2, c.shared.epoch,
      (c.writer.inner, c.shared), [.unit call]⟩ :=
  if_neg h

/-- The first unit after an emptying of the sketch begins a new period. -/
theorem Chronicle.units_after_reset [Accumulator E] (h : c.epoch ≤ c.shared.epoch) :
    Happening.units ((c.next owes (.outside Shared.reset)).next owes (.unit call)).period = 1 := by
  have hne : (c.next owes (.outside Shared.reset)).shared.epoch ≠ c.epoch :=
    Nat.ne_of_gt (Nat.lt_succ_of_le h)
  rw [next_of_ne call hne]
  rfl

end next

/-! ## Rounding up -/

section ceil

variable {r : ℚ}

/-- A number that grows by less than one is rounded up to the next whole number if it gets above the last. -/
theorem ceil_add_share (hr : 0 < r) (hr' : r < 1) (x : ℚ) :
    ⌈x + r⌉₊ = if (⌈x⌉₊ : ℚ) < x + r then ⌈x⌉₊ + 1 else ⌈x⌉₊ := by
  split
  · next h =>
    refine Nat.le_antisymm (Nat.ceil_le.mpr ?_) (Nat.lt_ceil.mpr h)
    push_cast
    linarith [Nat.le_ceil x]
  · next h => exact Nat.le_antisymm (Nat.ceil_le.mpr (not_lt.mp h)) (Nat.ceil_mono (by linarith))

end ceil

/-! ## One unit -/

section unit

variable {owes : Nat → Nat → Bool} {call : W → Shared E → W × Shared E} {m : Mixed W} {s : Shared E}

/-- Within an epoch a unit is a write or a read. -/
theorem Mixed.work_of_seen (h : m.seen = s.epoch) : m.work owes call s =
    if owes m.writes (m.writes + m.reads) then
      (⟨(call m.inner s).1, m.writes + 1, m.reads, m.seen⟩, (call m.inner s).2)
    else (⟨m.inner, m.writes, m.reads + 1, m.seen⟩, s) := by
  have hsame : m.synchronised s = m := if_neg (by simp [h])
  unfold Mixed.work
  rw [hsame]

/-- In a new epoch a writer works as if it were new. -/
theorem Mixed.work_of_ne (h : s.epoch ≠ m.seen) :
    m.work owes call s = (Mixed.new m.inner s).work owes call s := by
  have hnew : m.synchronised s = Mixed.new m.inner s := if_pos h
  have hsame : (Mixed.new m.inner s).synchronised s = Mixed.new m.inner s := if_neg (by simp [Mixed.new])
  unfold Mixed.work
  rw [hnew, hsame]

end unit

/-! ## The invariant -/

/-- The comparison of the writes with the share of the units is exact for fewer than `n` units. -/
def Compares (r : ℚ) (n : Nat) (owes : Nat → Nat → Bool) : Prop :=
  ∀ writes units, writes ≤ units → units < n → (owes writes units = true ↔ (writes : ℚ) < r * units)

/-- The writer counts the units of a period, it has written as often as its share asks for, and these writes
are what has led the inner writer and the sketch to where they are. -/
structure Holding (r : ℚ) (period : List (Happening W E)) (start : W × Shared E) (m : Mixed W)
    (s : Shared E) : Prop where
  total : m.writes + m.reads = Happening.units period
  writes : m.writes = ⌈r * (Happening.units period - 1)⌉₊
  divides : Divides period m.writes m.reads start (m.inner, s)

section holding

variable {r : ℚ} {n : Nat} {owes : Nat → Nat → Bool} {period : List (Happening W E)}
  {start : W × Shared E} {m : Mixed W} {s : Shared E} (hr : 0 < r) (hr' : r < 1)

include hr in
theorem holding_new (inner : W) (s : Shared E) : Holding r [] (inner, s) (Mixed.new inner s) s where
  total := rfl
  writes := (Nat.ceil_eq_zero.mpr (by simpa [Happening.units] using hr.le)).symm
  divides := .start _

include hr hr' in
/-- A unit keeps the share: it is a write exactly if the share, rounded up, grows. -/
theorem Holding.unit (h : Holding r period start m s) (hseen : m.seen = s.epoch)
    (hcompares : Compares r n owes) (hlt : Happening.units period < n)
    (call : W → Shared E → W × Shared E) :
    Holding r (.unit call :: period) start (m.work owes call s).1 (m.work owes call s).2 ∧
      (m.work owes call s).1.seen = s.epoch := by
  -- the writer compares before it counts, so the share is that of the units before this one
  have htotal := h.total
  have howes := hcompares m.writes (Happening.units period) (by omega) hlt
  have hceil := ceil_add_share hr hr' (r * (Happening.units period - 1))
  rw [show r * ((Happening.units period : ℚ) - 1) + r = r * Happening.units period by ring,
    ← h.writes] at hceil
  have hnext : r * ((Happening.units (.unit call :: period) : ℕ) - 1) = r * Happening.units period := by
    simp [Happening.units]
  rw [Mixed.work_of_seen hseen, htotal]
  split
  · next hwrite =>
    rw [if_pos (howes.mp hwrite)] at hceil
    refine ⟨⟨?_, ?_, .write call h.divides⟩, hseen⟩
    · show m.writes + 1 + m.reads = Happening.units period + 1
      omega
    · rw [hnext, hceil]
  · next hread =>
    rw [if_neg fun hlt => hread (howes.mpr hlt)] at hceil
    refine ⟨⟨?_, ?_, .read call h.divides⟩, hseen⟩
    · show m.writes + (m.reads + 1) = Happening.units period + 1
      omega
    · rw [hnext, hceil]

/-- The writer of a chronicle holds its share in the period. -/
structure Chronicle.Holds (r : ℚ) (c : Chronicle W E) : Prop where
  seen : c.writer.seen = c.epoch
  holding : Holding r c.period c.start c.writer c.shared

include hr hr' in
theorem Chronicle.Holds.next {c : Chronicle W E} (hc : c.Holds r) (hcompares : Compares r n owes)
    (hlt : Happening.units c.period < n) (h : Happening W E) : (c.next owes h).Holds r := by
  cases h with
  | outside act => exact ⟨hc.seen, hc.holding.total, hc.holding.writes, .outside act hc.holding.divides⟩
  | unit call =>
    by_cases hsame : c.shared.epoch = c.epoch
    · obtain ⟨hunit, hseen⟩ := hc.holding.unit hr hr' (hc.seen.trans hsame.symm) hcompares hlt call
      rw [next_of_eq call hsame]
      exact ⟨hseen.trans hsame, hunit⟩
    · -- a new period, in which the writer has done nothing yet
      have hnew := holding_new hr c.writer.inner c.shared
      obtain ⟨hunit, hseen⟩ := hnew.unit hr hr' rfl hcompares (Nat.zero_lt_of_lt hlt) call
      have hne : c.shared.epoch ≠ c.writer.seen := by rwa [hc.seen]
      rw [← Mixed.work_of_ne hne] at hunit hseen
      rw [next_of_ne call hsame]
      exact ⟨hseen, hunit⟩

theorem Chronicle.units_next (owes : Nat → Nat → Bool) (c : Chronicle W E) (h : Happening W E) :
    Happening.units (c.next owes h).period ≤ Happening.units c.period + 1 := by
  cases h with
  | outside act => exact Nat.le_succ _
  | unit call =>
    by_cases hsame : c.shared.epoch = c.epoch
    · rw [next_of_eq call hsame]
      exact Nat.le_refl _
    · rw [next_of_ne call hsame]
      exact Nat.succ_le_succ (Nat.zero_le _)

include hr hr' in
/-- After any history the writer holds its share. -/
theorem Chronicle.holds_after (inner : W) (s : Shared E) (hs : List (Happening W E))
    (hcompares : Compares r hs.length owes) : (after owes inner s hs).Holds r := by
  have hrun {c : Chronicle W E} (hc : c.Holds r) (hs' : List (Happening W E))
      (hlen : Happening.units c.period + hs'.length ≤ hs.length) :
      (hs'.foldl (Chronicle.next owes) c).Holds r := by
    induction hs' generalizing c with
    | nil => exact hc
    | cons h hs' ih =>
      rw [List.length_cons] at hlen
      refine ih (hc.next hr hr' hcompares (by omega) h) ?_
      have := units_next owes c h
      omega
  exact hrun ⟨rfl, holding_new hr inner s⟩ hs (Nat.zero_add _).le

end holding

/-! ## The share -/

/-- However long a writer works that holds its writes at a share of its units, and whatever others do to the
sketch: after `n` units since it last saw a reset its counters add up to `n`, the writes among them are the
share of all units but the last, rounded up, so that they are less than one off the share of all; its inner
writer has worked once in so many of the units, and in the others neither that nor the sketch was changed. -/
theorem writes_hold_share (r : ℚ) (hr : 0 < r) (hr' : r < 1) (owes : Nat → Nat → Bool) (inner : W)
    (s : Shared E) (hs : List (Happening W E)) (hcompares : Compares r hs.length owes) :
    let c := Chronicle.after owes inner s hs
    let n := Happening.units c.period
    0 < n → c.writer.writes + c.writer.reads = n ∧ (c.writer.writes : ℤ) = ⌈r * (n - 1)⌉ ∧
      |(c.writer.writes : ℚ) - r * n| < 1 ∧
      Divides c.period c.writer.writes c.writer.reads c.start (c.writer.inner, c.shared) := by
  intro c n hn
  obtain ⟨htotal, hwrites, hdivides⟩ := (Chronicle.holds_after hr hr' inner s hs hcompares).holding
  have hbefore : (0 : ℚ) ≤ r * (n - 1) :=
    mul_nonneg hr.le (sub_nonneg.mpr (by exact_mod_cast hn))
  have hlow : r * ((n : ℚ) - 1) ≤ c.writer.writes := by
    rw [hwrites]
    exact Nat.le_ceil _
  have hhigh : (c.writer.writes : ℚ) < r * (n - 1) + 1 := by
    rw [hwrites]
    exact Nat.ceil_lt_add_one hbefore
  refine ⟨htotal, ?_, ?_, hdivides⟩
  · rw [hwrites]
    exact Int.natCast_ceil_eq_ceil hbefore
  · rw [abs_lt]
    constructor <;> linarith

/-- Two units, and three more in a new epoch. -/
def interrupted : List (Happening (Writer (List UInt64)) (List UInt64)) :=
  [.unit Writer.work, .unit Writer.work, .outside Shared.reset, .unit Writer.work, .unit Writer.work,
    .unit Writer.work]

/-- A writer that inserts directly, in half of these units. -/
def halves : Chronicle (Writer (List UInt64)) (List UInt64) :=
  Chronicle.after (owesShare 0.5) (.new .locked (.strided (.forWriter 0 1)) Shared.empty) Shared.empty
    interrupted

theorem writes_hold_share_halves :
    (0 : ℚ) < 1 / 2 ∧ (1 / 2 : ℚ) < 1 ∧ Compares (1 / 2) interrupted.length (owesShare 0.5) ∧
    0 < Happening.units halves.period ∧ halves.writer.writes + halves.writer.reads = 3 ∧
    halves.writer.writes = 1 ∧
    Divides halves.period halves.writer.writes halves.writer.reads halves.start
      (halves.writer.inner, halves.shared) := by
  have hcompares : Compares (1 / 2) interrupted.length (owesShare 0.5) := by
    have hdoubles : ∀ units < interrupted.length, ∀ writes ≤ units,
        owesShare 0.5 writes units = decide (2 * writes < units) := by decide +kernel
    intro writes units hle hlt
    rw [hdoubles units hlt writes hle, decide_eq_true_iff, one_div_mul_eq_div, lt_div_iff₀ two_pos,
      mul_comm]
    exact_mod_cast Iff.rfl
  have hunits : Happening.units halves.period = 3 := by decide +kernel
  have hshare := writes_hold_share (1 / 2) (by norm_num) (by norm_num) (owesShare 0.5)
    (.new .locked (.strided (.forWriter 0 1)) Shared.empty) Shared.empty interrupted hcompares
  rw [← halves] at hshare
  obtain ⟨htotal, hwrites, -, hdivides⟩ := hshare (by rw [hunits]; decide)
  refine ⟨by norm_num, by norm_num, hcompares, by rw [hunits]; decide, htotal.trans hunits, ?_, hdivides⟩
  have hceil : ⌈(1 / 2 : ℚ) * ((3 : ℕ) - 1)⌉ = 1 := by norm_num
  rw [hunits, hceil] at hwrites
  exact_mod_cast hwrites

end SpeedTrial.Sketch
