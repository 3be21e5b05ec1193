import SpeedTrial.Proofs.Trial.View

/-!
# What a worker has done and what it is counted for

An `Account` tells what happened to one worker in the current trial.  It is compared here with the
view of the worker: a view is `Accounted` by an account if the units that returned are those that
the worker has performed, if nothing is counted before the report of the worker is accepted, and
if what is counted then settles the account.

Main statement: `Accounted.step`, no step of anybody breaks this.  With `Account.Settles` it says
what a worker is counted for: all units that returned since the trial began, and its whole quota,
unless it was frozen or a stop found it with units left.
-/

namespace SpeedTrial.Trial

/-! ## Settling an account -/

/-- `n` units are what a worker is to be counted for. -/
structure Account.Settles (a : Account) (n : Nat) : Prop where
  /-- All units that returned in the trial. -/
  units : n = a.units
  le_quota : n ≤ a.quota
  /-- A worker that was not frozen has performed its quota, unless it was cut short. -/
  eq_quota_iff : .frozen ∉ a.episode → (n = a.quota ↔ .cut ∉ a.episode)

theorem Account.note_of_ne (a : Account) {x : Happening} (hb : ∀ quota, x ≠ .begun quota) :
    a.note x = { a with episode := x :: a.episode } := by
  cases x with
  | begun quota => exact absurd rfl (hb quota)
  | _ => rfl

/-- What settles an account goes on to do so while no unit returns and nothing is cut. -/
theorem Account.Settles.note {a : Account} {n : Nat} (ha : a.Settles n) {x : Happening}
    (hb : ∀ quota, x ≠ .begun quota) (hr : x ≠ .returned) (hc : x ≠ .cut) :
    (a.note x).Settles n := by
  obtain ⟨hu, hle, hiff⟩ := ha
  have hnote := a.note_of_ne hb
  -- what is noted changes neither the units nor whether the worker was cut short
  constructor
  · simp [hnote, Account.units, hu, hr]
  · simp [hnote, hle]
  · simp only [hnote, List.mem_cons, not_or]
    rintro ⟨-, hf⟩
    simp [hiff hf, Ne.symm hc]

namespace View

/-- The units that a worker has performed. -/
def performed (v : View) : Nat := v.point.performed v.control.completed

/-- The units that a worker has performed or will perform before it reads its quota again. -/
def committed (v : View) : Nat := v.point.committed v.control.completed

/-- A view agrees with what is told of its worker. -/
structure Accounted (a : Account) (v : View) : Prop where
  /-- The quota that is still to be handed out is that of the account. -/
  due_quota : ∀ quota rest, v.due = .setQuota quota :: rest →
    quota = a.quota ∧ .cut ∉ a.episode
  quota_le : v.Owes → v.control.quota ≤ a.quota
  committed_le : v.Owes → v.committed ≤ a.quota
  /-- All units that returned are performed, and no others. -/
  units_eq : v.Owes → a.units = v.performed
  /-- Nothing is counted while a report is expected. -/
  counts_eq_nil : v.Owes → a.counts = []
  /-- A worker that was neither frozen nor cut short has its whole quota, or is through with it. -/
  whole : v.Owes → v.Handed → v.point ≠ .dead → .frozen ∉ a.episode → .cut ∉ a.episode →
    v.control.quota = a.quota ∨ v.committed = a.quota
  /-- A worker that was cut short will not reach its quota. -/
  short : v.Owes → v.Handed → .frozen ∉ a.episode → .cut ∈ a.episode →
    v.control.quota = 0 ∧ v.committed < a.quota
  /-- What is about to be counted settles the account. -/
  delivering : ∀ trial done todo, v.point = .freezing trial done todo →
    a.counts = [] ∧ a.Settles done
  /-- After the report one amount is counted, and it settles the account. -/
  settled : v.phase ≠ .ready → v.reported = true →
    (∀ trial done todo, v.point ≠ .freezing trial done todo) →
      ∃ n, a.counts = [n] ∧ a.Settles n

/-! ## Lemmas about steps -/

/-- A worker that acts on its own block means nothing to an account, unless it calls its unit. -/
theorem meaning_of_next {c c' : Control} {p p' : Point} (h : p.next c = some (c', p'))
    (s : Slot) : p.meaning s s = .called ∨ p.meaning s s = .quiet := by
  cases p <;> simp_all [Point.next, Point.meaning]

/-- A worker that acts on its own block commits itself to one more unit at most, and only below
its quota. -/
theorem Orderly.own_work {v : View} {c : Control} {p : Point} (ho : v.Orderly)
    (hn : v.point.next v.control = some (c, p)) :
    p.performed c.completed = v.performed ∧
      (p.committed c.completed = v.committed ∨
        p.committed c.completed = v.committed + 1 ∧
          v.committed < v.control.quota ∧ c = v.control) := by
  have hp := ho.point
  simp only [performed, committed]
  cases hpt : v.point <;> simp only [hpt, Point.next] at hn <;>
    simp only [hpt, PointInOrder] at hp <;>
    grind [Point.performed, Point.committed, Point.afterQuota]

variable {a : Account} {v v' : View} {x : Happening}

attribute [local grind] Owes Handed performed committed Point.performed Point.committed

theorem Orderly.work_of_ready (ho : v.Orderly) (hr : v.phase = .ready) :
    v.performed = 0 ∧ v.committed = 0 := by
  have hp := ho.point
  have hz := ho.ready hr
  cases hpt : v.point <;> simp only [hpt, PointInOrder] at hp <;> grind

/-- There is nothing to cut while no report is expected. -/
theorem Orderly.quota_le_committed (ho : v.Orderly) (hn : ¬ v.Owes) :
    v.control.quota ≤ v.point.committed v.control.completed := by
  have hi := ho.idle hn
  have hp := ho.point
  cases hpt : v.point <;> simp only [hpt, PointInOrder] at hp <;> grind

/-! ## What a step does to the work of a worker -/

/-- What a step other than the beginning of a trial does to the work of a worker from which a report
is expected after it. -/
inductive Effect (v v' : View) : Happening → Prop where
  /-- The worker commits itself to one more unit at most, and only below its quota. -/
  | act {x : Happening} : x = .quiet ∨ x = .called → (v'.Handed → v.Handed) →
      v'.control.quota = v.control.quota → v'.performed = v.performed →
      (v'.committed = v.committed ∨
        v'.committed = v.committed + 1 ∧ v.committed < v.control.quota) →
      Effect v v' x
  | returned : (v'.Handed → v.Handed) → v'.control.quota = v.control.quota →
      v'.performed = v.performed + 1 → v'.committed = v.committed → Effect v v' .returned
  | panicked : v'.point = .dead → (v'.Handed → v.Handed) → v'.control.quota = v.control.quota →
      v'.performed = v.performed → v'.committed ≤ v.committed → Effect v v' .panicked
  /-- The worker is given its quota. -/
  | given (quota : Nat) (rest : List Access) : v.due = .setQuota quota :: rest →
      v'.control.quota = quota → v'.performed = v.performed → v'.committed = v.committed →
      Effect v v' .quiet
  | frozen : v'.control.quota = 0 → v'.performed = v.performed → v'.committed = v.committed →
      Effect v v' .frozen
  | halted : (v'.Handed → v.Handed) → v'.control.quota = 0 → v'.performed = v.performed →
      v'.committed = v.committed →
      Effect v v' (if v.committed < v.control.quota then .cut else .quiet)

theorem Step.dead_of_dead (hs : Step v x v') (hd : v.point = .dead) : v'.point = .dead := by
  cases hs <;> simp_all [Point.next]

theorem Effect.of_same (hh : v'.Handed → v.Handed) (hq : v'.control.quota = v.control.quota)
    (hc : v'.control.completed = v.control.completed) (hp : v'.point = v.point) :
    Effect v v' .quiet := by
  refine .act (.inl rfl) hh hq ?_ (.inl ?_)
  · rw [performed, performed, hc, hp]
  · rw [committed, committed, hc, hp]

theorem Orderly.effect (ho : v.Orderly) (hs : Step v x v') (hw' : v'.Owes)
    (hb : ∀ quota, x ≠ .begun quota) : Effect v v' x := by
  have hw := hs.owes_of_owes hb hw'
  have hp := ho.point
  cases hs with
  | stay | startClear | abandon | raise | arm => exact .of_same id rfl rfl rfl
  | own s hn =>
    obtain ⟨hperf, hcom⟩ := ho.own_work hn
    refine .act (meaning_of_next hn s).symm id ?_ hperf ?_
    · rcases ho.own_control hn with rfl | rfl | ⟨rfl, -⟩ <;> rfl
    · exact hcom.imp id fun hcom => ⟨hcom.1, hcom.2.1⟩
  | returned hpt =>
    rw [hpt] at hp
    obtain ⟨-, -, rfl⟩ := hp
    exact .returned id rfl (by simp [performed, hpt, Point.performed])
      (by simp [committed, hpt, Point.committed])
  | panicked hpt =>
    rw [hpt] at hp
    obtain ⟨-, -, rfl⟩ := hp
    exact .panicked rfl id rfl (by simp [performed, hpt, Point.performed])
      (by simp [committed, hpt, Point.committed])
  | refuse hpt | release hpt =>
    -- between the points of a report only what is published counts as performed
    refine .act (.inl rfl) id rfl ?_ (.inl ?_)
    · rw [performed, performed, hpt]
      rfl
    · rw [committed, committed, hpt]
      rfl
  | freeze hpt | count hpt =>
    -- the report is accepted already, so that none is expected
    rw [hpt] at hp
    obtain ⟨-, -, hrep, -⟩ := hp
    rw [hw.2] at hrep
    cases hrep
  | launch _ hr =>
    rw [hw.1] at hr
    cases hr
  | accept | complete | endClear => simp [Owes] at hw'
  | begin quota => exact absurd rfl (hb quota)
  | hand hd =>
    obtain ⟨-, -, ⟨rfl, rfl⟩ | ⟨-, -, rfl, quota, rfl⟩⟩ := ho.due.of_cons hd
    · exact .act (.inl rfl) (fun _ => .inr hd) rfl rfl (.inl rfl)
    · exact .given quota _ hd rfl rfl rfl
  | clear hc => exact absurd hw.1 (ho.clearing _ hc).1
  | pause => exact .frozen rfl rfl rfl
  | halt => exact .halted id rfl rfl rfl

/-- When a trial begins, nothing is done in it and the quota is still to be handed out. -/
theorem Orderly.begun (ho : v.Orderly) (hs : Step v x v') {quota : Nat} (hx : x = .begun quota) :
    v'.control.quota = 0 ∧ v'.performed = 0 ∧ v'.committed = 0 ∧ ¬ v'.Handed := by
  cases hs with
  | begin q hr =>
    obtain ⟨hperf, hcom⟩ := ho.work_of_ready hr
    exact ⟨(ho.ready hr).1, hperf, hcom, by simp [Handed, Control.resuming]⟩
  | own s hn => rcases meaning_of_next hn s with hm | hm <;> rw [hm] at hx <;> cases hx
  | halt => split at hx <;> cases hx
  | _ => cases hx

/-- A step after which a report is expected begins a trial or has an effect in the trial. -/
theorem Orderly.begun_or_effect (ho : v.Orderly) (a : Account) (hs : Step v x v') (hw' : v'.Owes) :
    (∃ quota, x = .begun quota) ∨
      v.Owes ∧ a.note x = { a with episode := x :: a.episode } ∧ Effect v v' x := by
  by_cases hb : ∃ quota, x = .begun quota
  · exact .inl hb
  · push Not at hb
    exact .inr ⟨hs.owes_of_owes hb hw', Account.note_of_ne a hb, ho.effect hs hw' hb⟩

/-- When its report is accepted, a worker has performed what settles its account. -/
theorem Accounted.settles_of_report {done : Nat} (ho : v.Orderly) (ha : v.Accounted a)
    (hw : v.Owes) (hd : v.due = []) (hpt : v.point = .report v.trial done) :
    a.Settles done := by
  have hp := ho.point
  rw [hpt] at hp
  obtain ⟨hquota, rfl⟩ := (hp.2.2 rfl).2 hw
  have hperf : v.performed = v.control.completed := by simp [performed, hpt, Point.performed]
  have hcom : v.committed = v.control.completed := by simp [committed, hpt, Point.committed]
  have hle : v.control.completed ≤ a.quota := hcom ▸ ha.committed_le hw
  refine ⟨by rw [ha.units_eq hw, hperf], hle, fun hf => ⟨?_, ?_⟩⟩
  · -- who was cut short has committed itself to less than its quota
    intro heq hcut
    have hlt := (ha.short hw (.inl hd) hf hcut).2
    omega
  · -- who was not has its whole quota, which is used up, or was through with it
    intro hcut
    rcases ha.whole hw (.inl hd) (by simp [hpt]) hf hcut with h | h <;> omega

/-! ## Every step keeps the account -/

theorem Accounted.due_quota_step (ho : v.Orderly) (ha : v.Accounted a) (hs : Step v x v') :
    ∀ quota rest, v'.due = .setQuota quota :: rest →
      quota = (a.note x).quota ∧ .cut ∉ (a.note x).episode := by
  have h := ha.due_quota
  cases hs with
  | own s hn =>
    rcases meaning_of_next hn s with hm | hm <;> rw [hm] <;> simpa [Account.note] using h
  | begin q hr => simp [Account.note, Control.resuming]
  | hand hdue => grind [ho.due.of_cons hdue]
  | halt =>
    -- before the quota is handed out there is nothing to take away
    intro quota rest hdue
    have hzero := ho.due.of_cons hdue
    have hleft : ¬ v.point.committed v.control.completed < v.control.quota := by grind
    simpa [hleft, Account.note] using h quota rest hdue
  | pause hph hd => simp [hd]
  | _ => simpa [Account.note] using h

theorem Accounted.quota_le_step (ho : v.Orderly) (ha : v.Accounted a) (hs : Step v x v') :
    v'.Owes → v'.control.quota ≤ (a.note x).quota := by
  intro hw'
  rcases ho.begun_or_effect a hs hw' with ⟨quota, hx⟩ | ⟨hw, hnote, heff⟩
  · simp [(ho.begun hs hx).1]
  · have hle := ha.quota_le hw
    rw [hnote]
    cases heff with
    | act _ _ hq | returned _ hq | panicked _ _ hq => rwa [hq]
    | given quota rest hd hq => exact Nat.le_of_eq (hq.trans (ha.due_quota quota rest hd).1)
    | frozen hq | halted _ hq => simp [hq]

theorem Accounted.committed_le_step (ho : v.Orderly) (ha : v.Accounted a) (hs : Step v x v') :
    v'.Owes → v'.committed ≤ (a.note x).quota := by
  intro hw'
  rcases ho.begun_or_effect a hs hw' with ⟨quota, hx⟩ | ⟨hw, hnote, heff⟩
  · simp [(ho.begun hs hx).2.2.1]
  · have hle := ha.committed_le hw
    have hquota := ha.quota_le hw
    rw [hnote]
    cases heff with
    | act _ _ _ _ hcom =>
      -- one more unit only below the quota
      rcases hcom with hcom | ⟨hcom, hlt⟩ <;> simp only <;> omega
    | panicked _ _ _ _ hcom => exact Nat.le_trans hcom hle
    | returned _ _ _ hcom | given _ _ _ _ _ hcom | frozen _ _ hcom | halted _ _ _ hcom =>
      rwa [hcom]

theorem Accounted.units_step (ho : v.Orderly) (ha : v.Accounted a) (hs : Step v x v') :
    v'.Owes → (a.note x).units = v'.performed := by
  intro hw'
  rcases ho.begun_or_effect a hs hw' with ⟨quota, hx⟩ | ⟨hw, hnote, heff⟩
  · rw [(ho.begun hs hx).2.1, hx]
    rfl
  · have hunits := ha.units_eq hw
    rw [hnote]
    simp only [Account.units] at hunits ⊢
    cases heff with
    | act hx _ _ hperf => rcases hx with rfl | rfl <;> simp [hunits, hperf]
    | returned _ _ hperf => simp [hunits, hperf]
    | panicked _ _ _ hperf | given _ _ _ _ hperf | frozen _ hperf => simp [hunits, hperf]
    | halted _ _ hperf => split <;> simp [hunits, hperf]

theorem Accounted.counts_step (ho : v.Orderly) (ha : v.Accounted a) (hs : Step v x v') :
    v'.Owes → (a.note x).counts = [] := by
  intro hw'
  rcases ho.begun_or_effect a hs hw' with ⟨quota, rfl⟩ | ⟨hw, hnote, heff⟩
  · rfl
  · have hcounts := ha.counts_eq_nil hw
    rw [hnote]
    cases heff with
    | act hx => rcases hx with rfl | rfl <;> exact hcounts
    | halted => split <;> exact hcounts
    | _ => exact hcounts

theorem Accounted.whole_step (ho : v.Orderly) (ha : v.Accounted a) (hs : Step v x v') :
    v'.Owes → v'.Handed → v'.point ≠ .dead →
      .frozen ∉ (a.note x).episode → .cut ∉ (a.note x).episode →
      v'.control.quota = (a.note x).quota ∨ v'.committed = (a.note x).quota := by
  intro hw' hh' hd' hf hcut
  have hd : v.point ≠ .dead := fun hd => hd' (hs.dead_of_dead hd)
  rcases ho.begun_or_effect a hs hw' with ⟨quota, hx⟩ | ⟨hw, hnote, heff⟩
  · exact absurd hh' (ho.begun hs hx).2.2.2
  · rw [hnote] at hf hcut ⊢
    simp only [List.mem_cons, not_or] at hf hcut
    obtain ⟨hxf, hf⟩ := hf
    obtain ⟨hxc, hcut⟩ := hcut
    have hquota := ha.quota_le hw
    have hcom := ha.committed_le hw
    cases heff with
    | act _ hh hq _ hcom' =>
      rcases ha.whole hw (hh hh') hd hf hcut with h | h
      · exact .inl (hq.trans h)
      · -- there is no unit left to commit to
        rcases hcom' with hcom' | ⟨-, hlt⟩
        · exact .inr (hcom'.trans h)
        · omega
    | returned hh hq _ hcom' =>
      rw [hq, hcom']
      exact ha.whole hw (hh hh') hd hf hcut
    | panicked hpt => exact absurd hpt hd'
    | given quota rest hdue hq => exact .inl (hq.trans (ha.due_quota quota rest hdue).1)
    | frozen => exact absurd rfl hxf
    | halted hh _ _ hcom' =>
      -- a stop that cuts nothing short finds the quota used up
      have hle : ¬ v.committed < v.control.quota := fun hlt => hxc (by rw [if_pos hlt])
      have h := ha.whole hw (hh hh') hd hf hcut
      rw [hcom']
      simp only
      omega

theorem Accounted.short_step (ho : v.Orderly) (ha : v.Accounted a) (hs : Step v x v') :
    v'.Owes → v'.Handed → .frozen ∉ (a.note x).episode → .cut ∈ (a.note x).episode →
      v'.control.quota = 0 ∧ v'.committed < (a.note x).quota := by
  intro hw' hh' hf hcut
  -- a stop that finds units left takes the whole quota away, and nobody gives it back in the trial
  rcases ho.begun_or_effect a hs hw' with ⟨quota, hx⟩ | ⟨hw, hnote, heff⟩
  · exact absurd hh' (ho.begun hs hx).2.2.2
  · rw [hnote] at hf hcut ⊢
    simp only [List.mem_cons, not_or] at hf hcut
    obtain ⟨hxf, hf⟩ := hf
    cases heff with
    | act hx hh hq _ hcom =>
      have hne : .cut ≠ x := by rcases hx with rfl | rfl <;> simp
      obtain ⟨hzero, hlt⟩ := ha.short hw (hh hh') hf (hcut.resolve_left hne)
      -- without quota there is no unit to commit to
      rcases hcom with hcom | ⟨-, hbelow⟩
      · exact ⟨hq.trans hzero, hcom ▸ hlt⟩
      · omega
    | returned hh hq _ hcom =>
      obtain ⟨hzero, hlt⟩ := ha.short hw (hh hh') hf (hcut.resolve_left (by simp))
      exact ⟨hq.trans hzero, hcom ▸ hlt⟩
    | panicked _ hh hq _ hcom =>
      obtain ⟨hzero, hlt⟩ := ha.short hw (hh hh') hf (hcut.resolve_left (by simp))
      exact ⟨hq.trans hzero, Nat.lt_of_le_of_lt hcom hlt⟩
    | given quota rest hdue =>
      -- nothing is cut short before the quota is handed out
      exact absurd (hcut.resolve_left (by simp)) (ha.due_quota quota rest hdue).2
    | frozen => exact absurd rfl hxf
    | halted hh hq _ hcom =>
      refine ⟨hq, ?_⟩
      rw [hcom]
      by_cases hlt : v.committed < v.control.quota
      · exact Nat.lt_of_lt_of_le hlt (ha.quota_le hw)
      · rw [if_neg hlt] at hcut
        exact (ha.short hw (hh hh') hf (hcut.resolve_left (by simp))).2

theorem Accounted.delivering_step (ho : v.Orderly) (ha : v.Accounted a) (hs : Step v x v') :
    ∀ trial done todo, v'.point = .freezing trial done todo →
      (a.note x).counts = [] ∧ (a.note x).Settles done := by
  have h := ha.delivering
  have hp := ho.point
  have hquiet : ∀ {n}, a.Settles n → (a.note .quiet).Settles n := fun hn =>
    hn.note (by simp) (by simp) (by simp)
  cases hs with
  | own s hn =>
    intro trial done todo ht
    cases hpt : v.point <;> simp only [hpt, Point.next] at hn <;> grind [Point.afterQuota]
  | begin q hr =>
    intro trial done todo hpt
    simp only at hpt
    simp only [hpt, PointInOrder] at hp
    simp [hr] at hp
  | accept hw hd hc hpt =>
    rintro trial done todo ⟨⟩
    exact ⟨ha.counts_eq_nil hw, hquiet (ha.settles_of_report ho hw hd hpt)⟩
  | halt =>
    -- a stop finds no units left with a worker whose report is accepted
    intro trial done todo hpt
    simp only at hpt
    have hle := ho.quota_le_committed (by simp only [hpt, PointInOrder] at hp; grind)
    rw [if_neg (by omega)]
    exact ⟨(h _ _ _ hpt).1, hquiet (h _ _ _ hpt).2⟩
  | pause =>
    intro trial done todo hpt
    exact ⟨(h _ _ _ hpt).1, (h _ _ _ hpt).2.note (by simp) (by simp) (by simp)⟩
  | freeze hpt =>
    rintro trial done todo ⟨⟩
    exact ⟨(h _ _ _ hpt).1, hquiet (h _ _ _ hpt).2⟩
  | launch | returned | panicked | refuse | count | release => simp
  | _ =>
    intro trial done todo hpt
    exact ⟨(h _ _ _ hpt).1, hquiet (h _ _ _ hpt).2⟩

theorem Accounted.settled_step (ho : v.Orderly) (ha : v.Accounted a) (hs : Step v x v') :
    v'.phase ≠ .ready → v'.reported = true →
      (∀ trial done todo, v'.point ≠ .freezing trial done todo) →
      ∃ n, (a.note x).counts = [n] ∧ (a.note x).Settles n := by
  have h := ha.settled
  have hp := ho.point
  have hquiet : (∃ n, a.counts = [n] ∧ a.Settles n) →
      ∃ n, (a.note .quiet).counts = [n] ∧ (a.note .quiet).Settles n :=
    fun ⟨n, hc, hn⟩ => ⟨n, hc, hn.note (by simp) (by simp) (by simp)⟩
  cases hs with
  | own s hn =>
    intro hph hr hnf
    have hnf' : ∀ trial done todo, v.point ≠ .freezing trial done todo := by
      intro trial done todo hpt
      simp [hpt, Point.next] at hn
    rcases meaning_of_next hn s with hm | hm <;> rw [hm]
    · -- a worker calls its unit only while its report is expected
      have hw : v.Owes := by
        cases hpt : v.point <;> simp_all [Point.meaning, PointInOrder]
      grind
    · exact hquiet (h hph hr hnf')
  | accept hw hd hc hpt => exact fun _ _ hnf => absurd rfl (hnf _ _ _)
  | freeze hpt => exact fun _ _ hnf => absurd rfl (hnf _ _ _)
  | count hpt =>
    -- this is the one amount
    intro _ _ _
    obtain ⟨hc, hn⟩ := ha.delivering _ _ _ hpt
    refine ⟨_, ?_, hn.note (by simp) (by simp) (by simp)⟩
    simpa [Account.counts, Account.note, Happening.units?] using hc
  | halt =>
    intro hph hr hnf
    simp only at hr
    have hle := ho.quota_le_committed (by grind)
    rw [if_neg (by omega)]
    exact hquiet (h hph hr hnf)
  | pause =>
    intro hph hr hnf
    obtain ⟨n, hc, hn⟩ := h hph hr hnf
    exact ⟨n, hc, hn.note (by simp) (by simp) (by simp)⟩
  | returned hpt | panicked hpt =>
    simp only [hpt, PointInOrder] at hp
    grind
  | refuse hpt | release hpt => exact fun hph hr _ => hquiet (h hph hr (by simp [hpt]))
  | complete hph hr hc hnf => exact fun _ _ _ => hquiet (h (by simp [hph]) hr hnf)
  | begin | launch | endClear => simp
  | _ => exact fun hph hr hnf => hquiet (h hph hr hnf)

/-- No step breaks the agreement of an account with its view. -/
theorem Accounted.step (ho : v.Orderly) (ha : v.Accounted a) (hs : Step v x v') :
    v'.Accounted (a.note x) where
  due_quota := ha.due_quota_step ho hs
  quota_le := ha.quota_le_step ho hs
  committed_le := ha.committed_le_step ho hs
  units_eq := ha.units_step ho hs
  counts_eq_nil := ha.counts_step ho hs
  whole := ha.whole_step ho hs
  short := ha.short_step ho hs
  delivering := ha.delivering_step ho hs
  settled := ha.settled_step ho hs

end View

end SpeedTrial.Trial
