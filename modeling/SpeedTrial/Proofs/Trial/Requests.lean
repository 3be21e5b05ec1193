import SpeedTrial.Proofs.Trial.Runs

/-!
# What an operation is answered

A thread begins an operation and goes on with it until it gets an answer.  Where it stands in between
belongs to the operation that it began last, and if it holds the lock with a refusal already known,
the tally is still what the refusal says.

* `Run.serves`: in every run each thread is idle or on its way through what it asked for.
* `Run.replies`: every answer is one that the operation can get from the machine as it is then.
-/

namespace SpeedTrial.Trial

variable {U S : Type}

/-! ## What a history tells of operations -/

/-- The operation that a thread begins at a moment. -/
def Moment.asks? (x : Moment U S) (t : Thread) : Option Operation :=
  match x.event with
  | .invoke t' op => if t' = t then some op else none
  | _ => none

/-- The operation that a thread began last. -/
def asked? (t : Thread) (h : History U S) : Option Operation := h.findSome? fun x => x.asks? t

section asked

variable {x : Moment U S} {t : Thread} {op : Operation} {h h' : History U S}

theorem asked?_cons_of_some (ha : x.asks? t = some op) : asked? t (x :: h) = some op := by
  simp [asked?, ha]

theorem asked?_cons_of_none (ha : x.asks? t = none) : asked? t (x :: h) = asked? t h := by
  simp [asked?, ha]

end asked

/-! ## What is refused and answered -/

/-- A refusal of an operation that has the lock, with what it says of the tally. -/
inductive Operation.Refused (ta : Tally) : Operation → TrialError → Prop where
  | stopped {total : Nat} : Refused ta (.run total) (.stopped ta.trial)
  | inFlight {total : Nat} : ta.phase = .running → Refused ta (.run total) (.inFlight ta.trial)
  | resetRequired {total : Nat} : ta.phase = .complete →
      Refused ta (.run total) (.resetRequired ta.trial)
  | resetInFlight : ta.phase = .running → Refused ta .reset (.inFlight ta.trial)
  | busy {s : Slot} {completed quota : Nat} : ta.phase ≠ .running →
      Refused ta .reset (.workerBusy s completed quota)

/-- Where a thread stands on its way through an operation. -/
inductive Call.Serves (ta : Tally) : Operation → Call → Prop where
  | runAtLock {total : Nat} : Serves ta (.run total) (.runAtLock total)
  | runAtFlag {total : Nat} : Serves ta (.run total) (.runAtFlag total)
  | resuming {total quota : Nat} {todo : List (Slot × Access)} :
      Serves ta (.run total) (.resuming quota todo)
  | resetAtLock : Serves ta .reset .resetAtLock
  | resetting {kept : Nat} {todo : List (Slot × Access)} : ta.phase ≠ .running →
      Serves ta .reset (.resetting kept todo)
  | waitAtLock {limit : Option Nat} {w : Waiting} : Serves ta (.wait limit) (.waitAtLock w)
  | waitAtFlag {limit : Option Nat} {w : Waiting} {trial : Nat} :
      Serves ta (.wait limit) (.waitAtFlag w trial)
  | waitAtThreads {limit : Option Nat} {w : Waiting} {trial : Nat} :
      Serves ta (.wait limit) (.waitAtThreads w trial)
  | waitAtClock {limit : Option Nat} {w : Waiting} {trial : Nat} :
      Serves ta (.wait limit) (.waitAtClock w trial)
  | stopAtFlag : Serves ta .stop .stopAtFlag
  | stopping {todo : List (Slot × Access)} : Serves ta .stop (.stopping todo)
  | releasing {op : Operation} {err : TrialError} : op.Refused ta err →
      Serves ta op (.releasing (.error err))

namespace Machine

/-- What an operation of a thread can be answered by a machine. -/
inductive Replies (m : Machine U S) (t : Thread) : Operation → Except TrialError Answer → Prop where
  /-- All quota of the trial is handed out. -/
  | ran {total quota : Nat} : (m.caller t).call = .resuming quota [] →
      Replies m t (.run total) (.ok (.quota quota))
  /-- All workers are taken back. -/
  | taken : m.tally.phase ≠ .running → Replies m t .reset (.ok .done)
  /-- The trial was found complete. -/
  | waited {limit : Option Nat} : m.tally.phase = .complete → Replies m t (.wait limit) (.ok .done)
  | stopped : Replies m t .stop (.ok .done)
  | refused {op : Operation} {err : TrialError} : op.Refused m.tally err →
      Replies m t op (.error err)
  /-- The wait is given up, for one reason or another. -/
  | gaveUp {limit : Option Nat} {err : TrialError} : Replies m t (.wait limit) (.error err)
  /-- Before the launch, or without a writer, some operations are answered at once. -/
  | early {op : Operation} {a : Except TrialError Answer} :
      (m.launched = false ∨ m.writers = []) → Replies m t op a

variable {work : U → S → U × S} {m m' : Machine U S} {e : Event U} {t t' : Thread}
  {op : Operation}

/-! ## One step of an operation -/

theorem caller_goOn (m : Machine U S) (t : Thread) (c : Call) : (m.goOn t c).caller t = ⟨c, none⟩ := by
  simp [goOn]

theorem caller_reply (m : Machine U S) (t : Thread) (a : Except TrialError Answer) :
    (m.reply t a).caller t = ⟨.idle, some a⟩ := by
  simp [reply]

theorem caller_unlock (m : Machine U S) (t : Thread) (a : Except TrialError Answer) :
    (m.unlock t a).caller t = ⟨.idle, some a⟩ := by
  simp [unlock, reply]

/-- A thread that goes on to where the same operation leads is on its way. -/
theorem serves_goOn {m : Machine U S} {t : Thread} {op : Operation} {c : Call}
    (hserves : c.Serves m.tally op) :
    ((m.goOn t c).caller t).answer = none ∧
      ((m.goOn t c).caller t).call.Serves (m.goOn t c).tally op := by
  rw [caller_goOn]
  exact ⟨rfl, by simpa [goOn] using hserves⟩

theorem serves_startReset (m : Machine U S) (t : Thread) :
    ((m.startReset t).caller t).answer = none ∧
      ((m.startReset t).caller t).call.Serves (m.startReset t).tally .reset := by
  unfold startReset
  by_cases hph : m.tally.phase = .running
  · rw [if_pos hph]
    exact serves_goOn (.releasing (.resetInFlight hph))
  · rw [if_neg hph]
    exact serves_goOn (.resetting hph)

theorem serves_startTrial (m : Machine U S) (t : Thread) (total : Nat) :
    ((m.startTrial t total).caller t).answer = none ∧
      ((m.startTrial t total).caller t).call.Serves (m.startTrial t total).tally (.run total) := by
  unfold startTrial
  split
  · exact serves_goOn (.releasing .stopped)
  · cases hph : m.tally.phase with
    | running => exact serves_goOn (.releasing (.inFlight hph))
    | complete => exact serves_goOn (.releasing (.resetRequired hph))
    | ready => exact serves_goOn .resuming

/-- A reset passes a block over, clears it or finds its worker busy, and leaves the tally as it is. -/
theorem serves_resetting {kept : Nat} {a : Access} {rest : List (Slot × Access)}
    (hcall : (m.caller t).call = .resetting kept ((s, a) :: rest)) (hph : m.tally.phase ≠ .running)
    (hs : m.stepCall t = some m') :
    (m'.caller t).answer = none ∧ (m'.caller t).call.Serves m'.tally .reset := by
  simp only [stepCall, hcall, Option.some.injEq, access_eq] at hs
  cases hw : m.worker? s with
  | none =>
    simp only [hw] at hs
    subst hs
    exact serves_goOn (.resetting hph)
  | some w =>
    by_cases hbusy : a = .requireIdle ∧ w.control.completed < kept
    · simp only [hw, hbusy, and_self, if_true] at hs
      subst hs
      exact serves_goOn (.releasing (.busy hph))
    · simp only [hw, hbusy, if_false] at hs
      subst hs
      exact serves_goOn (.resetting (by simpa using hph))

/-- A thread that goes on with an operation gets an answer or is still on its way. -/
theorem serves_stepCall (hs : m.stepCall t = some m')
    (hserves : (m.caller t).call.Serves m.tally op) :
    (∃ a, m'.caller t = ⟨.idle, some a⟩ ∧ m.Replies t op a) ∨
      (m'.caller t).answer = none ∧ (m'.caller t).call.Serves m'.tally op := by
  unfold stepCall at hs
  generalize hcall : (m.caller t).call = c at hs hserves
  -- each step of an operation leads to the next one, to its answer, or to letting go of the lock
  cases hserves with
  | runAtLock =>
    obtain ⟨-, rfl⟩ := takeLock_eq_some hs
    exact .inr (serves_goOn .runAtFlag)
  | runAtFlag =>
    cases hs
    exact .inr (serves_startTrial m t _)
  | @resuming total quota todo =>
    cases todo with
    | nil =>
      cases hs
      exact .inl ⟨_, caller_unlock .., .ran hcall⟩
    | cons x rest =>
      cases hs
      exact .inr (serves_goOn .resuming)
  | resetAtLock =>
    obtain ⟨m₁, hlock, rfl⟩ := Option.map_eq_some_iff.mp hs
    exact .inr (serves_startReset m₁ t)
  | @resetting kept todo hph =>
    cases todo with
    | nil =>
      cases hs
      exact .inl ⟨_, caller_unlock .., .taken hph⟩
    | cons x rest =>
      exact .inr (serves_resetting hcall hph (by rw [stepCall, hcall]; exact hs))
  | waitAtLock =>
    obtain ⟨-, rfl⟩ := lookAtPhase_eq_some hs
    cases hph : m.tally.phase with
    | ready => exact .inl ⟨_, caller_reply .., .gaveUp⟩
    | complete => exact .inl ⟨_, caller_reply .., .waited hph⟩
    | running => exact .inr (serves_goOn .waitAtFlag)
  | waitAtFlag =>
    cases hs
    split
    · exact .inl ⟨_, caller_reply .., .gaveUp⟩
    · exact .inr (serves_goOn .waitAtThreads)
  | waitAtThreads =>
    cases hs
    split
    · exact .inl ⟨_, caller_reply .., .gaveUp⟩
    · exact .inr (serves_goOn .waitAtClock)
  | waitAtClock =>
    cases hs
    split
    · exact .inl ⟨_, caller_reply .., .gaveUp⟩
    · exact .inr (serves_goOn .waitAtLock)
  | stopAtFlag =>
    cases hs
    exact .inr (serves_goOn .stopping)
  | @stopping todo =>
    cases todo with
    | nil =>
      cases hs
      exact .inl ⟨_, caller_reply .., .stopped⟩
    | cons x rest =>
      cases hs
      exact .inr (serves_goOn .stopping)
  | releasing href =>
    cases hs
    exact .inl ⟨_, caller_unlock .., .refused href⟩

/-- A thread that begins an operation gets an answer at once or is on its way. -/
theorem serves_invoke (hs : m.invoke t op = some m') :
    (∃ a, m'.caller t = ⟨.idle, some a⟩ ∧ m.Replies t op a) ∨
      (m'.caller t).answer = none ∧ (m'.caller t).call.Serves m'.tally op := by
  unfold invoke at hs
  split at hs
  · cases hs
    cases hl : m.launched with
    | false =>
      cases op with
      | stop => exact .inr (serves_goOn .stopping)
      | _ => exact .inl ⟨_, caller_reply .., .early (.inl hl)⟩
    | true =>
      cases op with
      | run total =>
        by_cases hw : m.writers = []
        · simp only [hw, List.isEmpty_nil, Bool.not_true, Bool.false_eq_true, if_false, if_true]
          exact .inl ⟨_, caller_reply .., .early (.inr hw)⟩
        · simp only [List.isEmpty_iff, hw, Bool.not_true, Bool.false_eq_true, if_false]
          exact .inr (serves_goOn .runAtLock)
      | wait limit => exact .inr (serves_goOn .waitAtLock)
      | reset => exact .inr (serves_goOn .resetAtLock)
      | stop => exact .inr (serves_goOn .stopAtFlag)
  · cases hs

/-! ## Steps of others -/

/-- While a thread has the lock nobody else changes the tally. -/
theorem Coherent.tally_of_locked (hc : m.Coherent) (hm : Move work m e m')
    (hl : m.lock = some (.caller t)) (he : e ≠ .call t) : m'.tally = m.tally := by
  -- what needs the lock is done by the thread that has it
  have hholder : ∀ t', (m.caller t').call.holds = true → t' = t := by
    intro t' hh
    have hl' := (hc.lock_caller t').mpr hh
    rw [hl] at hl'
    cases hl'
    rfl
  cases hm with
  | accept _ _ hfree => simp [hl] at hfree
  | count hw hp => simp [hc.lock_of_freezing hw hp] at hl
  | @begin t' total hcall =>
    exact absurd (by rw [hholder t' (by rw [hcall]; rfl)]) he
  | @endReset t' kept hcall =>
    exact absurd (by rw [hholder t' (by rw [hcall]; rfl)]) he
  | launch _ hlaunch => simp [hc.lock_of_not_launched hlaunch] at hl
  | fail => rfl
  | _ => simp

/-- A thread does not move unless it is its turn. -/
theorem caller_of_step (hs : m.step work e = some m') (hcall : e ≠ .call t)
    (hinvoke : ∀ op, e ≠ .invoke t op) : m'.caller t = m.caller t := by
  cases Move.of_step hs with
  | ask he =>
    rcases he with rfl | ⟨op, rfl⟩
    · have ht : t ≠ _ := fun ht => hcall (by rw [ht])
      simp [ht]
    · have ht : t ≠ _ := fun ht => hinvoke op (by rw [ht])
      simp [ht]
  | fail => rfl
  | own | accept | refuse | freeze | count | release | finish | panic | register | launch | tick =>
    simp
  | _ =>
    have ht : t ≠ _ := fun ht => hcall (by rw [ht])
    simp [ht]

/-- A thread asks for nothing while it is on its way. -/
theorem asks?_of_busy (hs : m.step work e = some m') (hbusy : (m.caller t).call ≠ .idle) :
    Moment.asks? ⟨m, e, m'⟩ t = none := by
  cases e with
  | invoke t' op =>
    by_cases ht : t' = t
    · subst ht
      cases hcall : (m.caller t').call with
      | idle => exact absurd hcall hbusy
      | _ => simp [step, invoke, hcall] at hs
    · simp [Moment.asks?, ht]
  | _ => rfl

end Machine

/-! ## Every run -/

variable {work : U → S → U × S} {freeze : FreezeScope} {shared : S} {h : History U S}
  {m m' : Machine U S} {e : Machine.Event U} {t : Thread}

/-- Where a thread stands concerns the tally only while it has the lock. -/
theorem Call.Serves.congr {ta ta' : Tally} {op : Operation} {c : Call} (hserves : c.Serves ta op)
    (hta : c.holds = true → ta' = ta) : c.Serves ta' op := by
  cases hserves with
  | resetting hph => exact .resetting (by rw [hta rfl]; exact hph)
  | releasing href => exact .releasing (by rw [hta rfl]; exact href)
  | _ => constructor

/-- Every thread is idle or on its way through the operation that it began last. -/
theorem Run.serves (run : Run work (.empty freeze shared) h m) (t : Thread)
    (hbusy : (m.caller t).call ≠ .idle) :
    ∃ op, asked? t h = some op ∧ (m.caller t).call.Serves m.tally op := by
  induction run with
  | start => cases t <;> exact absurd rfl hbusy
  | @next h m m' e run hs ih =>
    cases ha : Moment.asks? ⟨m, e, m'⟩ t with
    | some op =>
      -- the operation has just begun
      obtain rfl : e = .invoke t op := by
        unfold Moment.asks? at ha
        grind
      rw [asked?_cons_of_some ha]
      rcases Machine.serves_invoke hs with ⟨a, hidle, -⟩ | ⟨-, hserves⟩
      · rw [hidle] at hbusy
        exact absurd rfl hbusy
      · exact ⟨op, rfl, hserves⟩
    | none =>
      have hinvoke : ∀ op, e ≠ .invoke t op := by
        rintro op rfl
        simp [Moment.asks?] at ha
      rw [asked?_cons_of_none ha]
      by_cases he : e = .call t
      · subst he
        have hbefore : (m.caller t).call ≠ .idle := by
          intro hidle
          simp [Machine.step, Machine.stepCall, hidle] at hs
        obtain ⟨op, hop, hserves⟩ := ih hbefore
        rcases Machine.serves_stepCall hs hserves with ⟨a, hidle, -⟩ | ⟨-, hserves⟩
        · rw [hidle] at hbusy
          exact absurd rfl hbusy
        · exact ⟨op, hop, hserves⟩
      · -- it is not its turn, and if it has the lock the tally stays
        have hcaller := Machine.caller_of_step hs he hinvoke
        rw [hcaller] at hbusy ⊢
        obtain ⟨op, hop, hserves⟩ := ih hbusy
        have hc := run.coherent
        exact ⟨op, hop, hserves.congr fun hh =>
          hc.tally_of_locked (.of_step hs) ((hc.lock_caller t).mpr hh) he⟩

/-- Every answer is one that the operation can get from the machine as it is then. -/
theorem Run.replies (run : Run work (.empty freeze shared) h m) (hs : m.step work e = some m')
    {a : Except TrialError Answer} (ha : Moment.Answers ⟨m, e, m'⟩ t a) :
    ∃ op, asked? t (⟨m, e, m'⟩ :: h) = some op ∧ m.Replies t op a := by
  obtain ⟨rfl | ⟨op, rfl⟩, hanswer⟩ := ha
  · -- answered in a step of its own, the thread was under way with what it was asked last
    have hbefore : (m.caller t).call ≠ .idle := by
      intro hidle
      simp [Machine.step, Machine.stepCall, hidle] at hs
    obtain ⟨op, hop, hserves⟩ := run.serves t hbefore
    refine ⟨op, by rw [asked?_cons_of_none rfl, hop], ?_⟩
    rcases Machine.serves_stepCall hs hserves with ⟨a', ha', hreply⟩ | ⟨hnone, -⟩
    · rw [ha'] at hanswer
      cases hanswer
      exact hreply
    · simp [hanswer] at hnone
  · refine ⟨op, asked?_cons_of_some (by simp [Moment.asks?]), ?_⟩
    rcases Machine.serves_invoke hs with ⟨a', ha', hreply⟩ | ⟨hnone, -⟩
    · rw [ha'] at hanswer
      cases hanswer
      exact hreply
    · simp [hanswer] at hnone

end SpeedTrial.Trial
