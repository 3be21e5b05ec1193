import SpeedTrial.Proofs.Trial.Lifecycle

/-!
# What a stop puts an end to

A stop raises the flag of the coordinator and then goes from worker to worker, raises its flag and
takes its quota away, all without the lock.  A worker looks at its flag only where its loop begins;
inside, it is the quota that counts.

* `Run.stopping_since`: a stop that is about to answer has raised the flag and taken the quota of
  every worker since it began.
* `Run.calls_le`: a worker without quota performs the unit that it is about to call and no other,
  as long as nobody hands it quota.
* `stop_leaves_one_unit`: after a stop no trial begins, and a worker performs one more unit at most,
  unless a trial was just being started when the flag was raised and quota is handed out late.
-/

namespace SpeedTrial.Trial

variable {U S : Type} {work : U → S → U × S} {freeze : FreezeScope} {shared : S}
  {h h' : History U S} {m m' : Machine U S} {e : Machine.Event U} {x : Moment U S} {s : Slot}
  {t : Thread} {todo : List (Slot × Access)}

/-! ## What a history tells of stops -/

/-- The stop of a thread raises the flag of the coordinator. -/
def Moment.raises (x : Moment U S) (t : Thread) : Bool :=
  match x.event with
  | .call t' =>
    match (x.before.caller t').call with
    | .stopAtFlag => t' = t
    | _ => false
  | _ => false

/-- The stop of a thread takes the quota of the worker in a slot away. -/
def Moment.halts (x : Moment U S) (t : Thread) (s : Slot) : Bool :=
  match x.event with
  | .call t' =>
    match (x.before.caller t').call with
    | .stopping ((s', .setQuota _) :: _) => t' = t && s' = s
    | _ => false
  | _ => false

/-- A start of a trial hands quota to the worker in a slot. -/
def Moment.hands (x : Moment U S) (s : Slot) : Bool :=
  match x.event with
  | .call t =>
    match (x.before.caller t).call with
    | .resuming _ ((s', .setQuota _) :: _) => s' = s
    | _ => false
  | _ => false

theorem Moment.cause_of_raises (hx : x.raises t = true) :
    x.event = .call t ∧ (x.before.caller t).call = .stopAtFlag := by
  unfold Moment.raises at hx
  split at hx
  · next t' he =>
    split at hx
    · next hcall =>
      obtain rfl : t' = t := by simpa using hx
      exact ⟨he, hcall⟩
    · cases hx
  · cases hx

theorem Moment.cause_of_hands (hx : x.hands s = true) :
    ∃ t quota, ∃ todo, (x.before.caller t).call = .resuming quota todo := by
  unfold Moment.hands at hx
  split at hx
  · next t _ =>
    split at hx
    · exact ⟨t, _, _, ‹_›⟩
    · cases hx
  · cases hx

/-! ## After the flag is raised -/

/-- The flag of the coordinator is never taken down. -/
theorem Machine.Move.stopped (hm : Machine.Move work m e m') (hst : m.stopped = true) :
    m'.stopped = true := by
  cases hm <;> simp [hst]

theorem Run.stopped (rest : Run work m h m') (hst : m.stopped = true) : m'.stopped = true := by
  induction rest with
  | start => exact hst
  | next _ hs ih => exact (Machine.Move.of_step hs).stopped ih

/-- No trial begins once the flag is raised. -/
theorem begins?_of_stopped (hs : m.step work e = some m') (hst : m.stopped = true) :
    Moment.begins? ⟨m, e, m'⟩ = none := by
  cases hb : Moment.begins? ⟨m, e, m'⟩ with
  | none => rfl
  | some b =>
    obtain ⟨-, -, -, rfl, -⟩ := tally_of_begins? hs hb
    have hno := ((Machine.Move.of_step hs).of_trial_succ (by simp)).1
    rw [hst] at hno
    cases hno

/-- Once the flag is raised nobody starts to hand out quota. -/
theorem Run.starting_of_stopped (run : Run work (.empty freeze shared) h m)
    (hst : m.stopped = true) (hno : m.starting = 0) (rest : Run work m h' m') :
    m'.starting = 0 := by
  induction rest with
  | start => exact hno
  | @next h' m₁ m₂ e rest hs ih =>
    cases (run.trans rest).course hs with
    | keeps _ _ hsame => exact hsame.trans ih
    | begins _ _ _ _ htrial =>
      have hst₁ := ((Machine.Move.of_step hs).of_trial_succ htrial).1
      rw [rest.stopped hst] at hst₁
      cases hst₁
    | runs _ _ _ hzero | resets _ _ _ hzero => exact hzero

theorem Moment.hands_of_not_starting (hno : x.before.starting = 0) (s : Slot) :
    x.hands s = false := by
  rw [← Bool.not_eq_true]
  intro hx
  obtain ⟨t, quota, todo, hcall⟩ := Moment.cause_of_hands hx
  cases t <;> simp only [Machine.caller] at hcall <;>
    simp [Machine.starting, hcall, Call.starts] at hno

/-! ## A worker without quota -/

/-- There is a worker in the slot, and it has no quota. -/
def Machine.Drained (m : Machine U S) (s : Slot) : Prop :=
  ∃ w, m.worker? s = some w ∧ w.control.quota = 0

@[simp] theorem Machine.drained_setCaller (c : Caller) :
    (m.setCaller t c).Drained s ↔ m.Drained s := by
  simp [Drained]

theorem Machine.Drained.onSlot (hd : m.Drained s) {t : Slot} {f : Worker U → Worker U}
    (hf : t = s → ∀ w, m.worker? s = some w → w.control.quota = 0 → (f w).control.quota = 0) :
    (m.onSlot t f).Drained s := by
  obtain ⟨w, hw, hq⟩ := hd
  refine ⟨if s = t then f w else w, by simp [hw], ?_⟩
  by_cases hst : s = t
  · simpa [hst] using hf hst.symm w hw hq
  · simpa [hst] using hq

/-- A worker never writes its own quota. -/
theorem Point.quota_of_next {c c' : Control} {p p' : Point} (hn : p.next c = some (c', p')) :
    c'.quota = c.quota := by
  cases p <;> grind [Point.next, exchange]

/-- Nobody but a start of a trial gives a worker quota. -/
theorem Run.drained_next (run : Run work (.empty freeze shared) h m)
    (hs : m.step work e = some m') (hd : m.Drained s)
    (hx : Moment.hands ⟨m, e, m'⟩ s = false) : m'.Drained s := by
  have hc := run.coherent
  cases Machine.Move.of_step hs with
  | @own t w c p hw hn =>
    refine hd.onSlot ?_
    rintro rfl w' hw' hq
    obtain rfl : w = w' := Option.some.inj (hw.symm.trans hw')
    exact (Point.quota_of_next hn).trans hq
  | @freeze t₀ t w trial done a todo hw hp =>
    refine Machine.Drained.onSlot (hd.onSlot fun _ w' _ hq => ?_) fun _ w' _ hq => hq
    rcases hc.frozen_access hw hp with rfl | rfl
    · rfl
    · exact hq
  | @hand t quota t₀ a todo hcall =>
    rw [Machine.drained_setCaller]
    refine hd.onSlot ?_
    rintro rfl w hw hq
    cases a with
    | setQuota units => simp [Moment.hands, hcall] at hx
    | _ => exact hq
  | @clear t kept t₀ w a todo hcall hw hbusy =>
    rw [Machine.drained_setCaller]
    refine hd.onSlot ?_
    rintro rfl w' hw' hq
    -- of the accesses of a reset the one that writes the quota takes it back
    rcases run.write_of_resetting hcall hw' with ha | ha | ha | ha <;> simp [ha, hq]
  | @halt t t₀ a todo hcall =>
    rw [Machine.drained_setCaller]
    refine hd.onSlot fun _ w _ hq => ?_
    have ha := hc.stopping t _ hcall _ (List.mem_cons_self ..)
    simp only [Control.stopping, List.mem_cons, List.not_mem_nil, or_false] at ha
    rcases ha with rfl | rfl
    · exact hq
    · rfl
  | register =>
    obtain ⟨w, hw, hq⟩ := hd
    exact ⟨w, m.worker?_enrol_of_some _ _ hw, hq⟩
  | launch =>
    obtain ⟨w, hw, hq⟩ := hd
    exact ⟨w.goTo .top, by simp [hw], hq⟩
  | fail => exact hd
  | accept | refuse | count | release | finish | panic =>
    exact Machine.Drained.onSlot (by simpa [Machine.Drained] using hd) fun _ w _ hq => hq
  | _ => simpa [Machine.Drained] using hd

/-- The units that a worker which stands here calls without looking at its quota again. -/
def Point.calls : Point → Nat
  | .calling _ => 1
  | _ => 0

/-- A worker without quota calls no unit but the one that it was about to call. -/
theorem View.Step.calls_le {v v' : View} {y : Happening} (hs : View.Step v y v')
    (hq : v.control.quota = 0) :
    v'.point.calls + (if y = .called then 1 else 0) ≤ v.point.calls := by
  cases hs with
  | @own c p s₀ hn =>
    -- with no quota left the way leads from a reading of it to the report
    have hafter : ∀ done, Point.afterQuota 0 done = .readPending := fun done => rfl
    cases hpt : v.point <;> simp only [hpt, Point.next, reduceCtorEq] at hn
    case claim trial done =>
      simp only [exchange] at hn
      split at hn <;> obtain ⟨rfl, rfl⟩ := Prod.mk.inj (Option.some.inj hn) <;>
        simp [Point.calls, Point.meaning]
    all_goals
      obtain ⟨rfl, rfl⟩ := Prod.mk.inj (Option.some.inj hn)
      grind [Point.calls, Point.meaning]
  | halt => split <;> simp
  | _ => simp [Point.calls]

/-- A worker without quota performs one more unit at most, as long as nobody hands it quota. -/
theorem Run.calls_le (run : Run work (.empty freeze shared) h m) (hd : m.Drained s)
    (rest : Run work m h' m') (hno : ∀ x ∈ h', x.hands s = false) :
    ∃ w, m'.worker? s = some w ∧ w.control.quota = 0 ∧
      h'.countP (fun x => x.at s = .called) + w.point.calls ≤ 1 := by
  -- by induction on what happens after the quota was taken: each call is one that was due before
  induction rest with
  | start =>
    obtain ⟨w, hw, hq⟩ := hd
    refine ⟨w, hw, hq, ?_⟩
    cases w.point <;> simp [Point.calls]
  | @next h' m₁ m₂ e rest hs ih =>
    obtain ⟨w, hw, hq, hle⟩ := ih fun x hx => hno x (List.mem_cons_of_mem _ hx)
    have run₁ := run.trans rest
    obtain ⟨w', hw', hq'⟩ := run₁.drained_next hs ⟨w, hw, hq⟩ (hno _ (List.mem_cons_self ..))
    refine ⟨w', hw', hq', ?_⟩
    rcases run₁.step_view hs hw' with ⟨w₁, hw₁, hstep⟩ | ⟨hnone, -⟩
    · obtain rfl : w = w₁ := Option.some.inj (hw.symm.trans hw₁)
      have hcalls := hstep.calls_le hq
      simp only [Machine.view] at hcalls
      rw [List.countP_cons]
      simp only [decide_eq_true_eq]
      omega
    · rw [hw] at hnone
      cases hnone

/-! ## What a stop has done -/

/-- Since the stop of a thread has raised the flag it has come so far that only these accesses are
still to be performed. -/
structure Stopping (t : Thread) (slots : List Slot) (todo : List (Slot × Access))
    (g : History U S) : Prop where
  /-- The thread has begun no other operation. -/
  same : ∀ y ∈ g, ∀ op, y.event ≠ .invoke t op
  halted : ∀ s ∈ slots, (s, .setQuota 0) ∈ todo ∨
    ∃ z ∈ g, z.halts t s = true ∧ z.after.Drained s

theorem Stopping.cons {slots : List Slot} {todo' : List (Slot × Access)} {g : History U S}
    (hg : Stopping t slots todo g) (hx : ∀ op, x.event ≠ .invoke t op)
    (htodo : ∀ s ∈ slots, (s, .setQuota 0) ∈ todo → (s, .setQuota 0) ∈ todo' ∨
      x.halts t s = true ∧ x.after.Drained s) : Stopping t slots todo' (x :: g) where
  same := by
    rintro y hy
    rcases List.mem_cons.mp hy with rfl | hy
    · exact hx
    · exact hg.same y hy
  halted := by
    intro s hs
    rcases hg.halted s hs with hmem | ⟨z, hz, hdone⟩
    · rcases htodo s hs hmem with hmem' | hdone
      · exact .inl hmem'
      · exact .inr ⟨x, List.mem_cons_self .., hdone⟩
    · exact .inr ⟨z, List.mem_cons_of_mem _ hz, hdone⟩

theorem Machine.idle_of_isQuiet (hq : m.isQuiet = true) (t : Thread) :
    (m.caller t).call = .idle := by
  unfold isQuiet at hq
  split at hq
  · next hcontrolling hother => cases t <;> assumption
  · cases hq

/-- After the launch a stop begins with the flag of the coordinator. -/
theorem Machine.call_of_stop (hl : m.launched = true)
    (hs : m.step work (.invoke t .stop) = some m') : (m'.caller t).call = .stopAtFlag := by
  simp only [step, invoke, hl, Bool.not_true, Bool.false_eq_true, if_false] at hs
  split at hs
  · obtain rfl := Option.some.inj hs
    simp [goOn]
  · cases hs

/-- Whoever has taken a quota away leaves a worker without one. -/
theorem drained_of_halt (hs : s ∈ m.slots) (c : Caller) :
    ((m.onSlot s (Worker.write (.setQuota 0))).setCaller t c).Drained s := by
  obtain ⟨w, hw⟩ := Machine.worker?_of_lt ((Machine.mem_slots_iff m s).mp hs)
  rw [Machine.drained_setCaller]
  exact ⟨w.write (.setQuota 0), by simp [hw], rfl⟩

/-- How a stop has come to have these accesses still to perform: it has nothing to do with what
happened last, it has begun before the launch, it has raised the flag, or it has performed one
more. -/
inductive StopStep (m : Machine U S) (t : Thread) (todo : List (Slot × Access))
    (e : Machine.Event U) (m' : Machine U S) : Prop where
  | keeps : (∀ op, e ≠ .invoke t op) → (m.caller t).call = .stopping todo →
      StopStep m t todo e m'
  | begins : m.launched = false → todo = Machine.forEach m.slots Control.stopping →
      StopStep m t todo e m'
  | raises : Moment.raises ⟨m, e, m'⟩ t = true →
      todo = Machine.forEach m.slots Control.stopping → StopStep m t todo e m'
  | halts {s : Slot} {a : Access} : e = .call t →
      (m.caller t).call = .stopping ((s, a) :: todo) →
      m' = (m.onSlot s (Worker.write a)).setCaller t { call := .stopping todo } →
      StopStep m t todo e m'

/-- What happens while a stop is under way leaves the roster as it is. -/
theorem stopStep_of_step (hs : m.step work e = some m')
    (hcall : (m'.caller t).call = .stopping todo) :
    m'.slots = m.slots ∧ m'.launched = m.launched ∧ StopStep m t todo e m' := by
  have hquiet : m.isQuiet = true → (m.caller t).call ≠ .stopping todo := by
    intro hq hcall₀
    rw [Machine.idle_of_isQuiet hq t] at hcall₀
    cases hcall₀
  cases Machine.Move.of_step hs with
  | own | accept | refuse | freeze | count | release | finish | panic | tick =>
    exact ⟨by simp, by simp, .keeps (by simp) (by simpa using hcall)⟩
  | register hq | launch hq => exact absurd (by simpa using hcall) (hquiet hq)
  | fail he =>
    exact ⟨rfl, rfl, .keeps (by rcases he with rfl | ⟨_, _, _, rfl⟩ <;> simp) hcall⟩
  | @ask t' _ c he _ _ _ hstop _ _ hall =>
    refine ⟨by simp, by simp, ?_⟩
    by_cases ht : t = t'
    · subst ht
      simp only [Machine.caller_setCaller, if_true] at hcall
      obtain rfl := hstop (by rw [hcall]; rfl)
      refine .begins ?_ (hall todo hcall)
      -- after the launch no stop begins with the workers
      rw [← Bool.not_eq_true]
      intro hl
      have hflag := Machine.call_of_stop hl hs
      simp only [Machine.caller_setCaller, if_true, hcall] at hflag
      cases hflag
    · refine .keeps ?_ (by simpa [ht] using hcall)
      rcases he with rfl | ⟨op, rfl⟩ <;> simp [Ne.symm ht]
  | @flag t' hcall₀ =>
    refine ⟨by simp, by simp, ?_⟩
    by_cases ht : t = t'
    · subst ht
      simp only [Machine.caller_setCaller, if_true, Call.stopping.injEq] at hcall
      exact .raises (by simp [Moment.raises, hcall₀]) hcall.symm
    · exact .keeps (by simp) (by simpa [ht] using hcall)
  | @halt t' s a todo₀ hcall₀ =>
    refine ⟨by simp, by simp, ?_⟩
    by_cases ht : t = t'
    · subst ht
      simp only [Machine.caller_setCaller, if_true, Call.stopping.injEq] at hcall
      subst hcall
      exact .halts rfl hcall₀ rfl
    · exact .keeps (by simp) (by simpa [ht] using hcall)
  | @lockRun t' | @runRefused t' | @begin t' | @hand t' | @endRun t' | @resetRefused t'
  | @startReset t' | @clear t' | @skip t' | @busy t' | @endReset t' | @unlock t' =>
    -- the thread that stops is not the one that does this
    by_cases ht : t = t'
    · simp [ht] at hcall
    · exact ⟨by simp, by simp, .keeps (by simp) (by simpa [ht] using hcall)⟩

/-- A stop that has still these accesses to perform has raised the flag and halted all other
workers. -/
theorem Run.stopping_since (run : Run work (.empty freeze shared) h m) (hl : m.launched = true)
    (hcall : (m.caller t).call = .stopping todo) :
    ∃ g r g', h = g ++ r :: g' ∧ r.raises t = true ∧ Stopping t m.slots todo g := by
  induction run generalizing todo with
  | start => cases t <;> cases hcall
  | next run hs ih =>
    obtain ⟨hslots, hlaunched, hstep⟩ := stopStep_of_step hs hcall
    rw [hlaunched] at hl
    rw [hslots]
    cases hstep with
    | keeps hne hcall₀ =>
      obtain ⟨g, r, g', rfl, hr, hg⟩ := ih hl hcall₀
      exact ⟨_ :: g, r, g', rfl, hr, hg.cons hne fun s _ hmem => .inl hmem⟩
    | begins hl₀ =>
      rw [hl] at hl₀
      cases hl₀
    | raises hr htodo =>
      -- the quota of every worker is still to be taken
      refine ⟨[], _, _, rfl, hr, by simp, fun s hslot => .inl ?_⟩
      rw [htodo, mem_forEach]
      exact ⟨hslot, by simp [Control.stopping]⟩
    | halts he hcall₀ hm' =>
      subst he hm'
      obtain ⟨g, r, g', rfl, hr, hg⟩ := ih hl hcall₀
      refine ⟨_ :: g, r, g', rfl, hr, hg.cons (by simp) fun s hslot hmem => ?_⟩
      rcases List.mem_cons.mp hmem with heq | hmem
      · cases heq
        exact .inr ⟨by simp [Moment.halts, hcall₀], drained_of_halt hslot _⟩
      · exact .inl hmem

theorem stopped_of_raises (hs : x.before.step work x.event = some x.after)
    (hx : x.raises t = true) :
    x.after.stopped = true ∧ x.after.starting = x.before.starting := by
  obtain ⟨he, hcall⟩ := Moment.cause_of_raises hx
  rw [he] at hs
  simp only [Machine.step, Machine.stepCall, hcall, Option.some.injEq] at hs
  rw [← hs]
  refine ⟨by simp [Machine.goOn], ?_⟩
  exact (Machine.starting_setCaller_of_eq (by simp [hcall, Call.starts])).trans (by simp)

/-- After a stop has raised the flag no trial begins, and quota is handed out only if a trial was
just being started. -/
theorem Run.since_raise (run : Run work (.empty freeze shared) (x :: h) m)
    (hx : x.raises t = true) (rest : Run work m h' m') {y : Moment U S} (hy : y ∈ h') :
    y.begins? = none ∧ (x.before.starting = 0 → ∀ s, y.hands s = false) := by
  obtain ⟨-, hs, rfl⟩ := run.next_inv
  obtain ⟨hst, hsame⟩ := stopped_of_raises hs hx
  obtain ⟨k, before, hsy⟩ := rest.of_mem hy
  refine ⟨begins?_of_stopped hsy (before.stopped hst), fun hno s => ?_⟩
  exact Moment.hands_of_not_starting (run.starting_of_stopped hst (hsame.trans hno) before) s

/-- What is left once a stop is about to answer: since it raised the flag no trial has begun, and
quota is handed out only if a trial was just being started then; since it took the quota of a worker
away that worker performs one more unit at most, unless it is handed quota after that. -/
theorem stop_leaves_one_unit (run : Run work (.empty freeze shared) h m)
    (hl : m.launched = true) (hcall : (m.caller t).call = .stopping []) (rest : Run work m h' m') :
    ∃ g r g', h = g ++ r :: g' ∧ r.raises t = true ∧ (∀ y ∈ g, ∀ op, y.event ≠ .invoke t op) ∧
      (∀ y ∈ h' ++ g, y.begins? = none) ∧
      (r.before.starting = 0 → ∀ y ∈ h' ++ g, ∀ s, y.hands s = false) ∧
      ∀ s ∈ m.slots, ∃ k z k', g = k ++ z :: k' ∧ z.halts t s = true ∧
        ((∀ y ∈ h' ++ k, y.hands s = false) →
          (h' ++ k).countP (fun y => y.at s = .called) ≤ 1) := by
  obtain ⟨g, r, g', rfl, hr, hg⟩ := run.stopping_since hl hcall
  obtain ⟨m₁, runr, resty⟩ := run.split
  have hsince := fun y hy => runr.since_raise (y := y) hr (resty.trans rest) hy
  refine ⟨g, r, g', rfl, hr, hg.same, fun y hy => (hsince y hy).1,
    fun hno y hy => (hsince y hy).2 hno, fun s hslot => ?_⟩
  obtain ⟨z, hz, hhalts, hdrained⟩ : ∃ z ∈ g, z.halts t s = true ∧ z.after.Drained s := by
    simpa using hg.halted s hslot
  obtain ⟨k, k', rfl⟩ := List.append_of_mem hz
  refine ⟨k, z, k', rfl, hhalts, fun hno => ?_⟩
  -- from there on the worker has no quota
  rw [List.append_assoc, List.cons_append] at run
  obtain ⟨m₂, runz, restz⟩ := run.split
  obtain ⟨-, -, rfl⟩ := runz.next_inv
  obtain ⟨w, -, -, hle⟩ := runz.calls_le hdrained (restz.trans rest) hno
  omega

end SpeedTrial.Trial
