import SpeedTrial.Proofs.Trial.History

/-!
# One worker as its coordinator sees it

Most of what a machine promises is promised worker by worker.  A `View` is the part of a machine
that concerns one worker: its control block and its point, what the tally says of it, and what an
operation that holds the lock has still to do to its block.  `View.Step` lists all that can happen
to a view, whoever does it.

Main statement: `Orderly.step`.  A view is `Orderly` if a worker from which no report is expected
has no units left and is outside its unit of work, with the words that it has read in between
harmless; no step of anybody leads out of that.
-/

namespace SpeedTrial.Trial

/-- The part of a machine that concerns one worker. -/
structure View where
  /-- The number of the trial. -/
  trial : Nat
  phase : Phase
  /-- Whether a report of the worker was accepted. -/
  reported : Bool
  /-- What a start of a trial that holds the lock has still to do to the block. -/
  due : List Access
  /-- What a reset that holds the lock has still to do to the block; `none` without a reset. -/
  clearing : Option (List Access)
  control : Control
  point : Point

/-- A worker that stands here is at work: between the test of its quota and the store of what is
done. -/
def Point.isWorking : Point → Bool
  | .calling _ => true
  | .inUnit _ => true
  | .publish _ => true
  | _ => false

namespace View

/-- A report of the worker is expected. -/
def Owes (v : View) : Prop := v.phase = .running ∧ v.reported = false

/-- What a reset does to each block: all blocks are checked first. -/
def clearScript : List Access := Control.checkingIdle ++ Control.resetting

/-! ## What can happen to a view -/

/-- All that can happen to a view, with what it means to the worker. -/
inductive Step : View → Happening → View → Prop where
  /-- Something happens elsewhere. -/
  | stay {v : View} : Step v .quiet v
  /-- The thread of the worker is started. -/
  | launch {v : View} : v.point = .unborn → v.phase = .ready →
      Step v .quiet { v with reported := false, point := .top }
  /-- The worker acts on its own block. -/
  | own {v : View} {c : Control} {p : Point} (s : Slot) :
      v.point.next v.control = some (c, p) →
      Step v (v.point.meaning s s) { v with control := c, point := p }
  | returned {v : View} {done : Nat} : v.point = .inUnit done →
      Step v .returned { v with point := .publish (done + 1) }
  | panicked {v : View} {done : Nat} : v.point = .inUnit done →
      Step v .panicked { v with point := .dead }
  /-- The report of the worker is accepted, which takes the lock. -/
  | accept {v : View} {done : Nat} {todo : List (Slot × Access)} :
      v.Owes → v.due = [] → v.clearing = none → v.point = .report v.trial done →
      Step v .quiet { v with reported := true, point := .freezing v.trial done todo }
  /-- The report of the worker is refused. -/
  | refuse {v : View} {trial done : Nat} :
      v.point = .report trial done → ¬ (v.Owes ∧ trial = v.trial) →
      Step v .quiet { v with point := .releasing }
  /-- The worker freezes others. -/
  | freeze {v : View} {trial done : Nat} {x : Slot × Access} {todo : List (Slot × Access)} :
      v.point = .freezing trial done (x :: todo) →
      Step v .quiet { v with point := .freezing trial done todo }
  /-- The units of the worker are counted, which may complete the trial. -/
  | count {v : View} {trial done : Nat} {phase : Phase} :
      v.point = .freezing trial done [] → phase = v.phase ∨ phase = .complete →
      Step v (.counted trial done) { v with phase := phase, point := .top }
  | release {v : View} : v.point = .releasing → Step v .quiet { v with point := .top }
  /-- The units of another worker are counted, which completes the trial. -/
  | complete {v : View} : v.phase = .running → v.reported = true → v.clearing = none →
      (∀ trial done todo, v.point ≠ .freezing trial done todo) →
      Step v .quiet { v with phase := .complete }
  /-- A trial begins. -/
  | begin {v : View} (quota : Nat) : v.phase = .ready → v.clearing = none →
      Step v (.begun quota)
        { v with
          trial := v.trial + 1
          phase := .running
          reported := false
          due := Control.resuming quota (v.trial + 1) }
  /-- Quota is handed out, or the report asked for. -/
  | hand {v : View} {a : Access} {rest : List Access} : v.due = a :: rest →
      Step v .quiet { v with control := a.write v.control, due := rest }
  | startClear {v : View} : v.phase ≠ .running →
      Step v .quiet { v with clearing := some clearScript }
  | clear {v : View} {a : Access} {rest : List Access} : v.clearing = some (a :: rest) →
      Step v .quiet { v with control := a.write v.control, clearing := some rest }
  /-- A reset finds a busy worker somewhere. -/
  | abandon {v : View} : Step v .quiet { v with clearing := none }
  | endClear {v : View} : v.clearing = some [] →
      Step v .quiet { v with phase := .ready, reported := false, clearing := none }
  /-- Another worker takes the quota away. -/
  | pause {v : View} : v.phase = .running → v.due = [] →
      Step v .frozen { v with control := { v.control with quota := 0 } }
  /-- Another worker asks for the report. -/
  | arm {v : View} : v.phase = .running → v.due = [] →
      Step v .quiet { v with control := { v.control with pending := v.trial } }
  /-- A stop raises the flag of the worker. -/
  | raise {v : View} : Step v .quiet { v with control := { v.control with stopped := true } }
  /-- A stop takes the quota away. -/
  | halt {v : View} :
      Step v (if v.point.committed v.control.completed < v.control.quota then .cut else .quiet)
        { v with control := { v.control with quota := 0 } }

/-! ## Order -/

/-- What a start of a trial has still to do to the block, and how the block is until then. -/
def DueInOrder (v : View) : Prop :=
  v.due = [] ∨ v.Owes ∧ v.control.pending = 0 ∧
    (v.due = [.setPending v.trial] ∨
      v.control.quota = 0 ∧ v.control.completed = 0 ∧
        ∃ quota, v.due = [.setQuota quota, .setPending v.trial])

/-- The worker has its quota of the trial, whether the report is asked for already or not. -/
def Handed (v : View) : Prop := v.due = [] ∨ v.due = [.setPending v.trial]

/-- What a reset has still to do to the block, and what it has done. -/
def ClearingInOrder (v : View) : Prop :=
  ∀ todo, v.clearing = some todo →
    v.phase ≠ .running ∧ todo <:+ clearScript ∧
      (todo.length ≤ 2 → v.control.quota = 0) ∧
      (todo.length ≤ 1 → v.control.completed = 0) ∧
      (todo.length ≤ 0 → v.control.pending = 0)

/-- The words that a worker has read are harmless.

After a reset the words of an earlier trial may still be around.  A quota read before the reset
either was used up then, or is compared with a block on which nothing is done: the second reading
of the quota tells the two apart, unless the next trial has the same quota, and then the pair is
that of the new trial. -/
def PointInOrder (v : View) : Point → Prop
  | .readCompleted quota =>
    ¬ v.Owes → quota ≤ v.control.completed ∨ v.control.completed = 0
  | .recheck quota done =>
    (done = v.control.completed ∨ quota ≤ done) ∧ (¬ v.Owes → quota ≤ done ∨ done = 0)
  | .calling done | .inUnit done => v.Owes ∧ v.Handed ∧ done = v.control.completed
  | .publish done => v.Owes ∧ v.Handed ∧ done = v.control.completed + 1
  | .reread done => v.Owes ∧ done = v.control.completed
  | .dead => v.Owes
  | .checkQuota trial => trial ≠ 0 ∧ trial ≤ v.trial ∧ (trial = v.trial → v.due = [])
  | .checkCompleted trial quota =>
    trial ≠ 0 ∧ trial ≤ v.trial ∧
      (trial = v.trial → v.due = [] ∧ (v.Owes → v.control.quota ≤ quota))
  | .claim trial done | .report trial done =>
    trial ≠ 0 ∧ trial ≤ v.trial ∧
      (trial = v.trial →
        v.due = [] ∧ (v.Owes → v.control.quota ≤ done ∧ done = v.control.completed))
  | .freezing trial done _ =>
    trial = v.trial ∧ v.phase = .running ∧ v.reported = true ∧ done = v.control.completed
  | _ => True

/-- The worker and its coordinator agree on whether there is work to do. -/
structure Orderly (v : View) : Prop where
  /-- A worker from which no report is expected has used up its quota. -/
  idle : ¬ v.Owes → v.control.quota ≤ v.control.completed
  /-- Before a trial all blocks are clear. -/
  ready : v.phase = .ready →
    v.control.quota = 0 ∧ v.control.completed = 0 ∧ v.control.pending = 0
  /-- No report is asked for a trial to come. -/
  pending_le : v.control.pending ≤ v.trial
  due : v.DueInOrder
  clearing : v.ClearingInOrder
  point : v.PointInOrder v.point

/-! ## Every step keeps order -/

/-- What a worker can do to its own block: it publishes one more unit, which it does only if a
report is expected, or it claims a report. -/
theorem Orderly.own_control {v : View} {c : Control} {p : Point} (ho : v.Orderly)
    (hn : v.point.next v.control = some (c, p)) :
    c = v.control ∨ c = { v.control with pending := 0 } ∨
      c = { v.control with completed := v.control.completed + 1 } ∧ v.Owes ∧ v.Handed := by
  have hp := ho.point
  cases hpt : v.point with
  | claim trial done =>
    simp only [hpt, Point.next, exchange] at hn
    split at hn <;> obtain ⟨rfl, -⟩ := Prod.mk.inj (Option.some.inj hn)
    · exact .inr (.inl rfl)
    · exact .inl rfl
  | _ =>
    -- only a publication writes, and then the unit has returned in the trial
    simp only [hpt, Point.next] at hn
    simp only [hpt, PointInOrder] at hp
    grind

/-- The next access of a reset, by how many are left after it. -/
theorem write_of_suffix {a : Access} {rest : List Access} (h : a :: rest <:+ clearScript)
    (c : Control) :
    rest.length = 0 ∧ a.write c = { c with pending := 0 } ∨
    rest.length = 1 ∧ a.write c = { c with completed := 0 } ∨
    rest.length = 2 ∧ a.write c = { c with quota := 0 } ∨
    2 < rest.length ∧ a.write c = c := by
  -- the script has six accesses, so that the rest of it is one of seven lists
  simp only [clearScript, Control.checkingIdle, Control.resetting, List.cons_append,
    List.nil_append, List.suffix_cons_iff, List.cons.injEq, List.suffix_nil, reduceCtorEq, or_false] at h
  rcases h with ⟨rfl, rfl⟩ | ⟨rfl, rfl⟩ | ⟨rfl, rfl⟩ | ⟨rfl, rfl⟩ | ⟨rfl, rfl⟩ | ⟨rfl, rfl⟩ |
    ⟨rfl, rfl⟩ <;> simp [Access.write]

/-- The next access of a start of a trial. -/
theorem DueInOrder.of_cons {v : View} {a : Access} {rest : List Access} (h : v.DueInOrder)
    (hd : v.due = a :: rest) :
    v.Owes ∧ v.control.pending = 0 ∧
      (a = .setPending v.trial ∧ rest = [] ∨
        v.control.quota = 0 ∧ v.control.completed = 0 ∧ rest = [.setPending v.trial] ∧
          ∃ quota, a = .setQuota quota) := by
  rcases h with h | ⟨hw, hp, h | ⟨hq, hc, quota, h⟩⟩
  · simp [hd] at h
  · obtain ⟨rfl, rfl⟩ := List.cons.inj (hd.symm.trans h)
    exact ⟨hw, hp, .inl ⟨rfl, rfl⟩⟩
  · obtain ⟨rfl, rfl⟩ := List.cons.inj (hd.symm.trans h)
    exact ⟨hw, hp, .inr ⟨hq, hc, rfl, quota, rfl⟩⟩

theorem Orderly.idle_step {v v' : View} {x : Happening} (ho : v.Orderly) (hs : Step v x v') :
    ¬ v'.Owes → v'.control.quota ≤ v'.control.completed := by
  have h := ho.idle
  cases hs with
  -- a block that a reset has cleared is idle, whatever becomes of its worker
  | launch hp hph => grind [ho.ready hph]
  | own s hn =>
    rcases ho.own_control hn with rfl | rfl | ⟨rfl, hw, -⟩ <;> grind [Owes]
  | accept hw hd hc hp =>
    -- who reports found its quota used up, and nothing but a freeze or a stop came after that
    have hpt := ho.point
    rw [hp] at hpt
    grind [(hpt.2.2 rfl).2 hw]
  -- a report is expected from everybody when a trial begins, and until all quota is handed out
  | begin => exact fun hn => absurd ⟨rfl, rfl⟩ hn
  | hand hd => exact fun hn => absurd (ho.due.of_cons hd).1 hn
  | clear hc =>
    -- the quota is taken back before what is done, so that the block is idle in between
    obtain ⟨hph, hsuf, hq, -⟩ := ho.clearing _ hc
    rcases write_of_suffix hsuf v.control with ⟨h0, hw⟩ | ⟨h1, hw⟩ | ⟨h2, hw⟩ | ⟨h3, hw⟩ <;>
      grind [Owes]
  | endClear hc =>
    have hcleared := ho.clearing _ hc
    grind
  | count => grind [PointInOrder, Orderly, Owes]
  | _ => grind [Owes]

theorem Orderly.ready_step {v v' : View} {x : Happening} (ho : v.Orderly) (hs : Step v x v') :
    v'.phase = .ready →
    v'.control.quota = 0 ∧ v'.control.completed = 0 ∧ v'.control.pending = 0 := by
  have h := ho.ready
  cases hs with
  | own s hn =>
    rcases ho.own_control hn with rfl | rfl | ⟨rfl, hw, -⟩ <;> grind [Owes]
  | count hpt =>
    -- whose units are counted is in a trial that is running
    have hp := ho.point
    simp only [hpt, PointInOrder] at hp
    grind
  | hand hd => grind [Owes, (ho.due.of_cons hd).1]
  | clear hc =>
    obtain ⟨hph, hsuf, -⟩ := ho.clearing _ hc
    rcases write_of_suffix hsuf v.control with ⟨h0, hw⟩ | ⟨h1, hw⟩ | ⟨h2, hw⟩ | ⟨h3, hw⟩ <;>
      grind [Owes]
  | endClear hc => grind [ho.clearing _ hc]
  | _ => grind

theorem Orderly.pending_le_step {v v' : View} {x : Happening} (ho : v.Orderly) (hs : Step v x v') :
    v'.control.pending ≤ v'.trial := by
  have h := ho.pending_le
  cases hs with
  | own s hn =>
    rcases ho.own_control hn with rfl | rfl | ⟨rfl, -⟩ <;> simp [h]
  | hand hd => grind [Access.write, ho.due.of_cons hd]
  | clear hc =>
    obtain ⟨hph, hsuf, -⟩ := ho.clearing _ hc
    rcases write_of_suffix hsuf v.control with ⟨h0, hw⟩ | ⟨h1, hw⟩ | ⟨h2, hw⟩ | ⟨h3, hw⟩ <;>
      simp [hw, h]
  | _ => grind

theorem Orderly.due_step {v v' : View} {x : Happening} (ho : v.Orderly) (hs : Step v x v') :
    v'.DueInOrder := by
  have h := ho.due
  have hp := ho.point
  cases hs with
  | own s hn =>
    rcases ho.own_control hn with rfl | rfl | ⟨rfl, hw, hh⟩ <;> grind [DueInOrder, Owes, Handed]
  | hand hd => grind [Access.write, DueInOrder, Owes, ho.due.of_cons hd]
  | clear hc => grind [Owes, DueInOrder, ho.clearing _ hc]
  | begin quota hr => grind [Owes, DueInOrder, Control.resuming, ho.ready hr]
  | endClear hc => grind [Owes, DueInOrder, ho.clearing _ hc]
  | _ => grind [Owes, DueInOrder, PointInOrder]

theorem Orderly.clearing_step {v v' : View} {x : Happening} (ho : v.Orderly) (hs : Step v x v') :
    v'.ClearingInOrder := by
  have h := ho.clearing
  have hp := ho.point
  cases hs with
  | own s hn =>
    rcases ho.own_control hn with rfl | rfl | ⟨rfl, hw, hh⟩ <;> grind [ClearingInOrder, Owes]
  | hand hd => grind [ClearingInOrder, Owes, ho.due.of_cons hd]
  | clear hc =>
    -- what is left of the script is one access shorter, and the block says which one is done
    obtain ⟨hph, hsuf, hq, hcp, hp⟩ := ho.clearing _ hc
    intro todo ht
    cases ht
    refine ⟨hph, (List.suffix_cons _ _).trans hsuf, ?_⟩
    rcases write_of_suffix hsuf v.control with ⟨h0, hw⟩ | ⟨h1, hw⟩ | ⟨h2, hw⟩ | ⟨h3, hw⟩ <;>
      grind
  | startClear => grind [ClearingInOrder, clearScript, Control.checkingIdle, Control.resetting]
  | _ => grind [Owes, ClearingInOrder, PointInOrder]

/-- A worker that acts on its own block reads nothing that harms. -/
theorem Orderly.own_point {v : View} {c : Control} {p : Point} (ho : v.Orderly)
    (hn : v.point.next v.control = some (c, p)) :
    PointInOrder { v with control := c, point := p } p := by
  have hp := ho.point
  have hd := ho.due
  cases hpt : v.point with
  | readQuota =>
    simp only [hpt, Point.next, Option.some.injEq, Prod.mk.injEq] at hn
    obtain ⟨rfl, rfl⟩ := hn
    exact fun hno => .inl (ho.idle hno)
  | readCompleted quota =>
    simp only [hpt, PointInOrder] at hp
    simp only [hpt, Point.next, Option.some.injEq, Prod.mk.injEq] at hn
    obtain ⟨rfl, rfl⟩ := hn
    exact ⟨.inl rfl, hp⟩
  | calling done =>
    simp only [hpt, PointInOrder] at hp
    simp only [hpt, Point.next, Option.some.injEq, Prod.mk.injEq] at hn
    obtain ⟨rfl, rfl⟩ := hn
    exact hp
  | publish done =>
    simp only [hpt, PointInOrder] at hp
    simp only [hpt, Point.next, Option.some.injEq, Prod.mk.injEq] at hn
    obtain ⟨rfl, rfl⟩ := hn
    exact ⟨hp.1, rfl⟩
  | recheck quota done =>
    -- a stale pair passes the second reading only if it is the pair of the current trial
    simp only [hpt, PointInOrder] at hp
    simp only [hpt, Point.next, Option.some.injEq, Prod.mk.injEq] at hn
    obtain ⟨rfl, rfl⟩ := hn
    have hidle := ho.idle
    by_cases hq : v.control.quota = quota
    · by_cases hlt : done < quota
      · -- units are left, so that a report is expected and the quota is that of the trial
        have hw : v.Owes := by grind
        have hh : v.Handed := by grind [DueInOrder, Handed]
        have hdone : done = v.control.completed := by omega
        simpa [hq, Point.afterQuota, hlt, PointInOrder] using ⟨hw, hh, hdone⟩
      · simp [hq, Point.afterQuota, hlt, PointInOrder]
    · simp [hq, PointInOrder]
  | reread done =>
    simp only [hpt, PointInOrder] at hp
    simp only [hpt, Point.next, Option.some.injEq, Prod.mk.injEq] at hn
    obtain ⟨rfl, rfl⟩ := hn
    by_cases hlt : done < v.control.quota
    · -- before its quota is handed out a worker finds none
      have hh : v.Handed := by grind [DueInOrder, Handed]
      simpa [Point.afterQuota, hlt, PointInOrder] using ⟨hp.1, hh, hp.2⟩
    · simp [Point.afterQuota, hlt, PointInOrder]
  | readPending =>
    -- a report is asked for only after the quota was handed out
    simp only [hpt, Point.next, Option.some.injEq, Prod.mk.injEq] at hn
    obtain ⟨rfl, rfl⟩ := hn
    have hle := ho.pending_le
    by_cases hz : v.control.pending = 0
    · simp [hz, PointInOrder]
    · simp only [hz, if_false, PointInOrder]
      exact ⟨hz, hle, fun _ => by grind [DueInOrder]⟩
  | claim trial done =>
    simp only [hpt, PointInOrder] at hp
    simp only [hpt, Point.next, exchange] at hn
    split at hn <;> obtain ⟨rfl, rfl⟩ := Prod.mk.inj (Option.some.inj hn)
    · simpa [PointInOrder, Owes] using hp
    · simp [PointInOrder]
  | unborn | inUnit | report | freezing | releasing | ended | dead => simp [hpt, Point.next] at hn
  | top | checkQuota | checkCompleted =>
    simp only [hpt, PointInOrder] at hp
    simp only [hpt, Point.next, Option.some.injEq, Prod.mk.injEq] at hn
    obtain ⟨rfl, rfl⟩ := hn
    grind [PointInOrder, Owes]

theorem Orderly.point_step {v v' : View} {x : Happening} (ho : v.Orderly) (hs : Step v x v') :
    v'.PointInOrder v'.point := by
  have hp := ho.point
  cases hs with
  | own s hn => exact ho.own_point hn
  -- where the worker comes to, nothing is asked of it
  | launch | refuse | count | release => trivial
  | returned hpt =>
    rw [hpt] at hp
    obtain ⟨hw, hh, rfl⟩ := hp
    exact ⟨hw, hh, rfl⟩
  | panicked hpt =>
    rw [hpt] at hp
    exact hp.1
  | accept hw hd hc hpt =>
    rw [hpt] at hp
    obtain ⟨-, -, hreport⟩ := hp
    exact ⟨rfl, hw.1, rfl, ((hreport rfl).2 hw).2⟩
  | freeze hpt =>
    rw [hpt] at hp
    exact hp
  | hand hd =>
    -- a worker that has no quota yet is not at work, and one that has it goes on as before
    have hdue := ho.due.of_cons hd
    cases hpt : v.point <;> simp only [hpt, PointInOrder] at hp ⊢ <;>
      grind [Owes, Handed, Access.write]
  | clear hc =>
    -- the trial is over, so that a worker with a stale quota has nothing done to compare it with
    obtain ⟨hph, hsuf, -⟩ := ho.clearing _ hc
    have hn : ¬ v.Owes := fun h => hph h.1
    rcases write_of_suffix hsuf v.control with ⟨-, hw⟩ | ⟨-, hw⟩ | ⟨-, hw⟩ | ⟨-, hw⟩ <;>
      simp only [hw] <;>
      cases hpt : v.point <;> simp only [hpt, PointInOrder] at hp ⊢ <;> grind [Owes]
  | endClear hc =>
    have hph := (ho.clearing _ hc).1
    cases hpt : v.point <;> simp only [hpt, PointInOrder] at hp ⊢ <;> grind [Owes, Handed]
  | begin quota hr =>
    -- between trials the block is clear, so that what was read of it is too, or is stale
    have hz := ho.ready hr
    cases hpt : v.point <;> simp only [hpt, PointInOrder] at hp ⊢ <;> grind [Owes, Handed]
  | _ =>
    -- the worker stays where it is, and of what it has read only the quota gets smaller
    cases hpt : v.point <;> simp only [hpt, PointInOrder] at hp ⊢ <;>
      grind [Owes, Handed]

/-- No step leads out of order. -/
theorem Orderly.step {v v' : View} {x : Happening} (ho : v.Orderly) (hs : Step v x v') :
    v'.Orderly where
  idle := ho.idle_step hs
  ready := ho.ready_step hs
  pending_le := ho.pending_le_step hs
  due := ho.due_step hs
  clearing := ho.clearing_step hs
  point := ho.point_step hs

/-! ## What order excludes -/

/-- A worker from which no report is expected is not at work. -/
theorem Orderly.not_working {v : View} (ho : v.Orderly) (hn : ¬ v.Owes) :
    v.point.isWorking = false := by
  have hp := ho.point
  cases hpt : v.point with
  | calling done | inUnit done | publish done =>
    rw [hpt] at hp
    exact absurd hp.1 hn
  | _ => rfl

/-- A report comes to be expected only when a trial begins. -/
theorem Step.owes_of_owes {v v' : View} {x : Happening} (hs : Step v x v')
    (hx : ∀ quota, x ≠ .begun quota) (hw : v'.Owes) : v.Owes := by
  obtain ⟨hph, hrep⟩ := hw
  -- any other step ends a trial, or leaves the phase and whether the worker has reported
  cases hs with
  | launch _ hready => simp [hready] at hph
  | accept => cases hrep
  | complete => cases hph
  | begin quota => exact absurd rfl (hx quota)
  | endClear => cases hph
  | count _ hor =>
    rcases hor with rfl | rfl
    · exact ⟨hph, hrep⟩
    · cases hph
  | _ => exact ⟨hph, hrep⟩

/-- While a reset looks at another block, nothing is done on this one. -/
theorem Orderly.completed_of_clearing {v v' : View} {x : Happening} (ho : v.Orderly)
    (hs : Step v x v') {todo : List Access} (hc : v.clearing = some todo)
    (hc' : v'.clearing = some todo) : v'.control.completed = v.control.completed := by
  have hph := (ho.clearing todo hc).1
  cases hs with
  | own s hn =>
    -- a worker publishes only in a trial, and a reset is between two
    rcases ho.own_control hn with rfl | rfl | ⟨rfl, hw, -⟩
    · rfl
    · rfl
    · exact absurd hw.1 hph
  | hand hd => exact absurd (ho.due.of_cons hd).1.1 hph
  | clear hcl =>
    -- the list of a reset that goes on is shorter
    have hlen := congrArg List.length (Option.some.inj (hcl.symm.trans (hc.trans hc'.symm)))
    simp at hlen
  | _ => rfl

end View

end SpeedTrial.Trial
