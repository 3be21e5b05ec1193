import SpeedTrial.Proofs.Trial.Projection

/-!
# What holds in every run

What one move preserves holds in every run, by induction on the run.

* `Run.coherent`, `Run.orderly` and `Run.accounted`: the machine of a run is coherent, and the view
  of each worker is orderly and agrees with the account that the history gives of it.
* `Run.step_view`: what one more event does to each view.
* `account_episode` and `account_quota`: an account is what the history tells of the slot since the
  current trial began.
-/

namespace SpeedTrial.Trial

variable {U S : Type} {work : U → S → U × S} {freeze : FreezeScope} {shared : S}
  {h : History U S} {m m' : Machine U S} {e : Machine.Event U}

/-- A property that every move of a coherent machine keeps holds in every run. -/
theorem Run.coherent (run : Run work (.empty freeze shared) h m) : m.Coherent := by
  induction run with
  | start => exact .empty freeze shared
  | next _ hs ih => exact ih.move (.of_step hs)

/-! ## Workers that have just been registered -/

/-- A worker that has just been registered is in order. -/
theorem orderly_of_registered (hc : m.Coherent) (hl : m.launched = false) (s : Slot) (unit : U) :
    (m.view s { unit := unit }).Orderly := by
  have hu := Machine.underLock_of_not_caller (m := m) (by simp [hc.lock_of_not_launched hl])
  -- its block is clear and nobody has the lock
  constructor
  · exact fun _ => Nat.le_refl 0
  · exact fun _ => ⟨rfl, rfl, rfl⟩
  · exact Nat.zero_le _
  · left
    simp [Machine.view, hu, Call.handing]
  · intro todo ht
    simp [Machine.view, hu, Call.clearing?] at ht
  · trivial

/-- Any account agrees with a worker that has just been registered. -/
theorem accounted_of_registered (hc : m.Coherent) (hl : m.launched = false) (s : Slot) (unit : U)
    (a : Account) : (m.view s { unit := unit }).Accounted a := by
  have hu := Machine.underLock_of_not_caller (m := m) (by simp [hc.lock_of_not_launched hl])
  have hready : (m.view s { unit := unit }).phase = .ready := by
    show m.tally.phase = .ready
    rw [(hc.unborn hl).1]
  -- there is no trial, so that no report is expected and nothing is counted
  have hno : ¬ (m.view s { unit := unit }).Owes := by
    intro hw
    simp [View.Owes, hready] at hw
  constructor
  · intro quota rest hd
    simp [Machine.view, hu, Call.handing] at hd
  · exact fun hw => absurd hw hno
  · exact fun hw => absurd hw hno
  · exact fun hw => absurd hw hno
  · exact fun hw => absurd hw hno
  · exact fun hw => absurd hw hno
  · exact fun hw => absurd hw hno
  · rintro trial done todo ⟨⟩
  · exact fun hph => absurd hready hph

/-! ## Order and accounts -/

/-- One more event is a step of the view of each worker that was there before. -/
theorem Run.step_view (run : Run work (.empty freeze shared) h m) (hs : m.step work e = some m')
    {s : Slot} {w' : Worker U} (hw' : m'.worker? s = some w') :
    (∃ w, m.worker? s = some w ∧
      View.Step (m.view s w) (Moment.at ⟨m, e, m'⟩ s) (m'.view s w')) ∨
    m.worker? s = none ∧ m'.launched = false ∧ ∃ unit, w' = { unit := unit } :=
  run.coherent.projects (.of_step hs) s w' hw'

-- Both of these are by induction on the run: a worker that was there before takes one step, and one
-- that has just been registered is in order and agrees with any account.

theorem Run.orderly (run : Run work (.empty freeze shared) h m) :
    ∀ s w, m.worker? s = some w → (m.view s w).Orderly := by
  induction run with
  | start => simp
  | next run hs ih =>
    intro s w' hw'
    rcases run.step_view hs hw' with ⟨w, hw, hstep⟩ | ⟨-, hl, unit, rfl⟩
    · exact (ih s w hw).step hstep
    · exact orderly_of_registered (run.next hs).coherent hl s unit

theorem Run.accounted (run : Run work (.empty freeze shared) h m) :
    ∀ s w, m.worker? s = some w → (m.view s w).Accounted (account s h) := by
  induction run with
  | start => simp
  | next run hs ih =>
    intro s w' hw'
    rcases run.step_view hs hw' with ⟨w, hw, hstep⟩ | ⟨-, hl, unit, rfl⟩
    · exact (ih s w hw).step (run.orderly s w hw) hstep
    · exact accounted_of_registered (run.next hs).coherent hl s unit _

/-! ## Causes -/

/-- The event behind what a moment means to the worker in a slot. -/
def Happening.Cause (x : Moment U S) (s : Slot) : Happening → Prop
  | .quiet => True
  | .begun quota => ∃ b, x.begins? = some b ∧ quota = b.given s.role
  | .called => ∃ w done, x.event = .worker s ∧ x.before.worker? s = some w ∧
      w.point = .calling done
  | .returned => x.event = .finish s
  | .panicked => x.event = .panic s
  | .frozen => ∃ t w trial done quota todo, x.event = .worker t ∧ x.before.worker? t = some w ∧
      w.point = .freezing trial done ((s, .setQuota quota) :: todo)
  | .cut => ∃ t quota todo, x.event = .call t ∧
      (x.before.caller t).call = .stopping ((s, .setQuota quota) :: todo)
  | .counted trial units => ∃ w, x.event = .worker s ∧ x.before.worker? s = some w ∧
      w.point = .freezing trial units []

theorem Point.cause_meaning {x : Moment U S} {s t : Slot} {w : Worker U}
    (he : x.event = .worker t) (hw : x.before.worker? t = some w) :
    (w.point.meaning t s).Cause x s := by
  -- a worker acts for others only while it freezes them, and there for the slot that comes next
  cases hp : w.point with
  | calling done =>
    by_cases ht : t = s
    · subst ht
      simpa [Point.meaning, Happening.Cause] using ⟨he, w, hw, done, hp⟩
    · simp [Point.meaning, ht, Happening.Cause]
  | freezing trial done todo =>
    cases todo with
    | nil =>
      by_cases ht : t = s
      · subst ht
        simpa [Point.meaning, Happening.Cause] using ⟨he, w, hw, hp⟩
      · simp [Point.meaning, ht, Happening.Cause]
    | cons y todo =>
      obtain ⟨t', a⟩ := y
      cases a with
      | setQuota quota =>
        by_cases ht : t' = s
        · subst ht
          simpa [Point.meaning, Happening.Cause] using ⟨t, he, w, hw, trial, done, quota, todo, hp⟩
        · simp [Point.meaning, ht, Happening.Cause]
      | _ => trivial
  | _ => trivial

theorem cause_stopMeaning {x : Moment U S} {s : Slot} {t : Thread} {todo : List (Slot × Access)}
    (he : x.event = .call t) (hcall : (x.before.caller t).call = .stopping todo) :
    (x.before.stopMeaning s todo).Cause x s := by
  unfold Machine.stopMeaning
  split
  · next t' quota rest =>
    split
    · next ht =>
      obtain ⟨rfl, -⟩ := ht
      exact ⟨t, quota, rest, he, hcall⟩
    · trivial
  · trivial

theorem Moment.cause (x : Moment U S) (s : Slot) : (x.at s).Cause x s := by
  -- By what the event is: a beginning happens to all, everything else to one slot or to none.
  cases hb : x.begins? with
  | some b =>
    rw [Moment.at, hb]
    exact ⟨b, hb, rfl⟩
  | none =>
    simp only [Moment.at, hb]
    cases he : x.event with
    | worker t =>
      cases hw : x.before.worker? t with
      | none => simp [hw, Happening.Cause]
      | some w => simpa [hw] using Point.cause_meaning he hw
    | finish t =>
      by_cases ht : t = s
      · subst ht
        simpa [Happening.Cause] using he
      · simp [ht, Happening.Cause]
    | panic t =>
      by_cases ht : t = s
      · subst ht
        simpa [Happening.Cause] using he
      · simp [ht, Happening.Cause]
    | call t =>
      cases hcall : (x.before.caller t).call with
      | stopping todo => simpa [hcall] using cause_stopMeaning he hcall
      | _ => simp [hcall, Happening.Cause]
    | _ => trivial

theorem Moment.cause_of {x : Moment U S} {s : Slot} {y : Happening} (hx : x.at s = y) :
    y.Cause x s := by
  rw [← hx]
  exact x.cause s

/-! ## What happens outside a trial -/

/-- A worker calls its unit only while a report of it is expected. -/
theorem Run.owes_of_called (run : Run work (.empty freeze shared) h m) {s : Slot}
    (hx : Moment.at ⟨m, e, m'⟩ s = .called) :
    ∃ w, m.worker? s = some w ∧ (m.view s w).Owes := by
  obtain ⟨w, done, -, hw, hp⟩ := Moment.cause_of hx
  have hpt := (run.orderly s w hw).point
  rw [show (m.view s w).point = .calling done from hp] at hpt
  exact ⟨w, hw, hpt.1⟩

/-- A reset that is under way has found that no trial is running. -/
theorem Run.not_running_of_resetting (run : Run work (.empty freeze shared) h m) {t : Thread}
    {kept : Nat} {todo : List (Slot × Access)}
    (hcall : (m.caller t).call = .resetting kept todo) : m.tally.phase ≠ .running := by
  intro hph
  have hc := run.coherent
  -- a trial that is running has a writer, and the reset shows in its view
  obtain ⟨w, hw⟩ := Machine.worker?_of_lt (r := .writer)
    (List.length_pos_of_ne_nil (hc.staffed (by simp [hph])).2)
  have hu := hc.underLock_eq hcall rfl
  have hclear := (run.orderly _ w hw).clearing (forSlot ⟨.writer, 0⟩ todo)
  exact (hclear (by simp [Machine.view, hu, Call.clearing?])).1 hph

/-- What a reset writes to the block of a worker. -/
theorem Run.write_of_resetting (run : Run work (.empty freeze shared) h m) {t : Thread}
    {kept : Nat} {s : Slot} {a : Access} {todo : List (Slot × Access)} {w : Worker U}
    (hcall : (m.caller t).call = .resetting kept ((s, a) :: todo)) (hw : m.worker? s = some w) :
    a.write w.control = w.control ∨ a.write w.control = { w.control with quota := 0 } ∨
      a.write w.control = { w.control with completed := 0 } ∨
        a.write w.control = { w.control with pending := 0 } := by
  have hu := run.coherent.underLock_eq hcall rfl
  have hclear : (m.view s w).clearing = some (a :: forSlot s todo) := by
    simp [Machine.view, hu, Call.clearing?]
  obtain ⟨-, hsuf, -⟩ := (run.orderly s w hw).clearing _ hclear
  rcases View.write_of_suffix hsuf w.control with ⟨-, h⟩ | ⟨-, h⟩ | ⟨-, h⟩ | ⟨-, h⟩
  · exact .inr (.inr (.inr h))
  · exact .inr (.inr (.inl h))
  · exact .inr (.inl h)
  · exact .inl h

/-- Between trials nothing but the beginning of the next one changes the phase. -/
theorem phase_of_ready (hc : m.Coherent) (hs : m.step work e = some m')
    (hb : Moment.begins? ⟨m, e, m'⟩ = none) (hph : m.tally.phase = .ready) :
    m'.tally.phase = .ready := by
  cases Machine.Move.of_step hs with
  | count hw hp =>
    -- a report is counted only while a trial is running
    have hrun := (hc.freezing _ _ _ _ (by rw [Machine.point?_of_worker? hw, hp])).2.1
    rw [hph] at hrun
    cases hrun
  | begin hcall => simp [Moment.begins?, hcall] at hb
  | launch => rfl
  | endReset => simp
  | fail => exact hph
  | _ => simpa using hph

theorem phase_of_resets {x : Moment U S} (hs : x.before.step work x.event = some x.after)
    (hx : x.Resets) : x.after.tally.phase = .ready := by
  obtain ⟨t, kept, hcall, he | ⟨op, he⟩, -⟩ := hx
  · rw [he] at hs
    simp only [Machine.step, Machine.stepCall, hcall, Option.some.injEq] at hs
    simp [← hs, Machine.unlock, Machine.reply]
  · -- an operation that is under way does not begin
    rw [he] at hs
    simp [Machine.step, Machine.invoke, hcall] at hs

/-! ## What an account tells -/

theorem Moment.at_of_begins? {x : Moment U S} {b : Beginning} (hb : x.begins? = some b)
    (s : Slot) : x.at s = .begun (b.given s.role) := by
  simp [Moment.at, hb]

/-- Unless a trial begins, nobody is given a quota. -/
theorem Moment.at_ne_begun {x : Moment U S} (hb : x.begins? = none) (s : Slot) (quota : Nat) :
    x.at s ≠ .begun quota := by
  intro hx
  obtain ⟨b, hb', -⟩ := Moment.cause_of hx
  rw [hb] at hb'
  cases hb'

/-- An account notes whatever does not begin a trial. -/
theorem account_cons_of_none {x : Moment U S} (hb : x.begins? = none) (s : Slot)
    (h : History U S) :
    account s (x :: h) = { account s h with episode := x.at s :: (account s h).episode } :=
  (account s h).note_of_ne (Moment.at_ne_begun hb s)

theorem account_cons_of_some {x : Moment U S} {b : Beginning} (hb : x.begins? = some b) (s : Slot)
    (h : History U S) : account s (x :: h) = ⟨b.given s.role, []⟩ := by
  rw [account, Moment.at_of_begins? hb, Account.note]

/-- An account holds what happened to the worker since the current trial began. -/
theorem account_episode (s : Slot) (h : History U S) :
    (account s h).episode = (current h).map fun x => x.at s := by
  -- an account and the current trial begin anew at the same moments
  induction h with
  | nil => rfl
  | cons x h ih =>
    cases hb : x.begins? with
    | some b => rw [account_cons_of_some hb, current_cons_of_some h hb, List.map_nil]
    | none => rw [account_cons_of_none hb, current_cons_of_none h hb, List.map_cons, ih]

/-- An account starts from the quota that the worker is given. -/
theorem account_quota {b : Beginning} (s : Slot) (hb : latest? h = some b) :
    (account s h).quota = b.given s.role := by
  induction h with
  | nil => cases hb
  | cons x h ih =>
    cases hx : x.begins? with
    | some b' =>
      rw [latest?_cons_of_some h hx] at hb
      cases hb
      rw [account_cons_of_some hx]
    | none =>
      rw [latest?_cons_of_none h hx] at hb
      rw [account_cons_of_none hx, ih hb]

end SpeedTrial.Trial
