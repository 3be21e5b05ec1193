import SpeedTrial.Proofs.Trial.Runs
import Mathlib.Data.List.Chain

/-!
# Resets

A reset checks every worker before it takes anything back.  Between the two readings of a check
others may act, so that a check may go wrong without anybody being at work; it does not, because
outside a trial nobody has units left, and nothing is done on a block while a reset looks at it.

* `Run.not_busy`: no reset ever finds a busy worker.
* `idle_unless_running`: outside a trial nobody is at work, resets do not fail for that reason, and
  after a reset nothing is done until the next trial begins.
-/

namespace SpeedTrial.Trial

/-! ## The script of a reset -/

/-- A check comes right after the reading of the quota that it is about. -/
def Checks (x y : Slot × Access) : Prop := y.2 = .requireIdle → x = (y.1, .readQuota)

theorem isChain_of_ne {l : List (Slot × Access)} (x : Slot × Access)
    (h : ∀ y ∈ l, y.2 ≠ .requireIdle) : (x :: l).IsChain Checks := by
  induction l generalizing x with
  | nil => exact .singleton x
  | cons y l ih =>
    rw [List.isChain_cons_cons]
    exact ⟨fun hy => absurd hy (h y (List.mem_cons_self ..)),
      ih y fun z hz => h z (List.mem_cons_of_mem _ hz)⟩

/-- The first access for several slots is the first one of the list. -/
theorem head?_forEach {slots : List Slot} {a : Access} {rest : List Access} {y : Slot × Access}
    (hy : y ∈ (Machine.forEach slots (a :: rest)).head?) : y.2 = a := by
  cases slots with
  | nil => simp [Machine.forEach] at hy
  | cons s slots =>
    obtain rfl : (s, a) = y := by simpa [Machine.forEach] using hy
    rfl

theorem isChain_forEach {slots : List Slot} {rest : List Access} (h : .requireIdle ∉ rest) :
    (Machine.forEach slots (.readQuota :: .requireIdle :: rest)).IsChain Checks := by
  -- by induction on the slots: those of one slot are paired, and the next begins with a reading
  induction slots with
  | nil => exact .nil
  | cons s slots ih =>
    have hsplit : Machine.forEach (s :: slots) (.readQuota :: .requireIdle :: rest) =
        (s, .readQuota) :: (s, .requireIdle) :: rest.map (fun a => (s, a)) ++
          Machine.forEach slots (.readQuota :: .requireIdle :: rest) := by
      simp [Machine.forEach]
    rw [hsplit, List.isChain_append]
    refine ⟨?_, ih, fun x _ y hy hidle => ?_⟩
    · rw [List.isChain_cons_cons]
      refine ⟨fun _ => rfl, isChain_of_ne _ fun y hy => ?_⟩
      obtain ⟨a, ha, rfl⟩ := List.mem_map.mp hy
      rintro rfl
      exact h ha
    · rw [head?_forEach hy] at hidle
      cases hidle

namespace Machine

variable {U S : Type} {work : U → S → U × S} {m m' : Machine U S} {e : Event U}

theorem isChain_resetScript (m : Machine U S) : m.resetScript.IsChain Checks := by
  unfold resetScript
  rw [List.isChain_append]
  refine ⟨isChain_forEach (by simp), isChain_forEach (by simp), fun x _ y hy hidle => ?_⟩
  rw [head?_forEach hy] at hidle
  cases hidle

/-- A reset begins with a reading. -/
theorem head?_resetScript {y : Slot × Access} {todo : List (Slot × Access)}
    (h : m.resetScript = y :: todo) : y.2 ≠ .requireIdle := by
  unfold resetScript at h
  cases hs : m.slots with
  | nil => simp [hs, forEach] at h
  | cons s slots =>
    have hy : y ∈ (forEach m.slots Control.checkingIdle).head? := by
      rw [hs] at h ⊢
      simp only [forEach, Control.checkingIdle, List.flatMap_cons, List.map_cons,
        List.cons_append, List.cons.injEq] at h ⊢
      simp [h.1]
    rw [head?_forEach hy]
    simp

/-! ## Resets in order -/

/-- What a reset has still to do, and what it has found so far. -/
structure ResetInOrder (m : Machine U S) : Prop where
  paired : ∀ t kept todo, (m.caller t).call = .resetting kept todo → todo.IsChain Checks
  /-- A worker that is about to be checked has reached the quota that was read. -/
  checked : ∀ t kept s todo, (m.caller t).call = .resetting kept ((s, .requireIdle) :: todo) →
    ∀ w, m.worker? s = some w → kept ≤ w.control.completed
  releasing : ∀ t a, (m.caller t).call = .releasing a → ¬ IsBusy a
  answered : ∀ t a, (m.caller t).answer = some a → ¬ IsBusy a

/-- A reset that is under way was so before, or has just begun, or has gone on by one access. -/
theorem Move.before_resetting (hm : Move work m e m') {t : Thread} {kept : Nat}
    {todo : List (Slot × Access)} (h : (m'.caller t).call = .resetting kept todo) :
    (m.caller t).call = .resetting kept todo ∨
    kept = 0 ∧ todo = m.resetScript ∨
    ∃ kept₀ s a, (m.caller t).call = .resetting kept₀ ((s, a) :: todo) ∧
      ∀ w', m'.worker? s = some w' → ∃ w, m.worker? s = some w ∧
        kept = a.keep kept₀ w.control ∧ w'.control = a.write w.control := by
  cases hm with
  | @ask t' _ c _ _ hh =>
    by_cases ht : t = t'
    · subst ht
      rw [caller_setCaller, if_pos rfl] at h
      rw [h] at hh
      cases hh
    · exact .inl (by simpa [ht] using h)
  | @startReset t' =>
    by_cases ht : t = t'
    · subst ht
      obtain ⟨rfl, rfl⟩ : 0 = kept ∧ m.resetScript = todo := by simpa using h
      exact .inr (.inl ⟨rfl, rfl⟩)
    · exact .inl (by simpa [ht] using h)
  | @clear t' kept₀ s w a todo' hcall hw =>
    by_cases ht : t = t'
    · -- the reset has performed its next access
      subst ht
      obtain ⟨rfl, rfl⟩ : a.keep kept₀ w.control = kept ∧ todo' = todo := by simpa using h
      refine .inr (.inr ⟨kept₀, s, a, hcall, fun w' hw' => ⟨w, hw, rfl, ?_⟩⟩)
      simp only [worker?_setCaller, worker?_onSlot, hw, Option.map_some, if_true,
        Option.some.injEq] at hw'
      rw [← hw', Worker.write_control]
    · exact .inl (by simpa [ht] using h)
  | @skip t' kept₀ s a todo' hcall hnone =>
    by_cases ht : t = t'
    · subst ht
      obtain ⟨rfl, rfl⟩ : kept₀ = kept ∧ todo' = todo := by simpa using h
      refine .inr (.inr ⟨kept₀, s, a, hcall, fun w' hw' => ?_⟩)
      rw [worker?_setCaller, hnone] at hw'
      cases hw'
    · exact .inl (by simpa [ht] using h)
  | fail => exact .inl h
  | _ =>
    -- nobody else moves a caller into a reset
    left
    simp at h
    grind

theorem ResetInOrder.paired_move (hr : m.ResetInOrder) (hm : Move work m e m') :
    ∀ t kept todo, (m'.caller t).call = .resetting kept todo → todo.IsChain Checks := by
  intro t kept todo h
  rcases hm.before_resetting h with h | ⟨-, rfl⟩ | ⟨kept₀, s, a, h, -⟩
  · exact hr.paired t kept todo h
  · exact m.isChain_resetScript
  · exact (hr.paired t kept₀ _ h).tail

/-- The quota that a reset has read is reached: it was when it was read, and nothing is done on the
block in between. -/
theorem ResetInOrder.checked_move (hr : m.ResetInOrder) (hc : m.Coherent)
    (ho : ∀ s w, m.worker? s = some w → (m.view s w).Orderly) (hm : Move work m e m') :
    ∀ t kept s todo, (m'.caller t).call = .resetting kept ((s, .requireIdle) :: todo) →
      ∀ w, m'.worker? s = some w → kept ≤ w.control.completed := by
  intro t kept s todo h w' hw'
  have hc' := hc.move hm
  rcases hm.before_resetting h with hbefore | ⟨-, hscript⟩ | ⟨kept₀, s₀, a, hbefore, hread⟩
  · -- the reset stays where it is, and so does what is done on the block
    have hu := hc.underLock_eq hbefore rfl
    have hu' := hc'.underLock_eq h rfl
    rcases hc.projects hm s w' hw' with ⟨w, hw, hstep⟩ | ⟨-, hl, -⟩
    · have hcl : (m.view s w).clearing = some (.requireIdle :: forSlot s todo) := by
        simp [view, hu, Call.clearing?]
      have hcl' : (m'.view s w').clearing = some (.requireIdle :: forSlot s todo) := by
        simp [view, hu', Call.clearing?]
      have hsame := (ho s w hw).completed_of_clearing hstep hcl hcl'
      have hle := hr.checked t kept s todo hbefore w hw
      calc kept ≤ w.control.completed := hle
        _ = w'.control.completed := hsame.symm
    · rw [hc'.launched_of_call (t := t) (by rw [h]; rfl)] at hl
      cases hl
  · -- a reset that has just begun is not at a check
    exact absurd rfl (head?_resetScript hscript.symm)
  · -- the access before a check is the reading of the quota of the same worker
    have hpair := hr.paired t kept₀ _ hbefore
    rw [List.isChain_cons_cons] at hpair
    obtain ⟨rfl, rfl⟩ := Prod.mk.inj (hpair.1 rfl)
    obtain ⟨w, hw, rfl, hcontrol⟩ := hread w' hw'
    have hu := hc.underLock_eq hbefore rfl
    have hcl : (m.view s₀ w).clearing =
        some (.readQuota :: .requireIdle :: forSlot s₀ todo) := by
      simp [view, hu, Call.clearing?]
    have hph := ((ho s₀ w hw).clearing _ hcl).1
    rw [hcontrol]
    exact (ho s₀ w hw).idle fun howes => hph howes.1

theorem ResetInOrder.releasing_move (hr : m.ResetInOrder) (hm : Move work m e m') :
    ∀ t a, (m'.caller t).call = .releasing a → ¬ IsBusy a := by
  intro t' a h
  have hbefore := hr.releasing t' a
  cases hm with
  | @ask t _ c _ _ hh =>
    by_cases ht : t' = t
    · subst ht
      rw [caller_setCaller, if_pos rfl] at h
      rw [h] at hh
      cases hh
    · exact hbefore (by simpa [ht] using h)
  | @runRefused t total err hcall hnot =>
    by_cases ht : t' = t
    · obtain rfl : .error err = a := by simpa [ht] using h
      exact hnot
    · exact hbefore (by simpa [ht] using h)
  | @resetRefused t hcall =>
    by_cases ht : t' = t
    · obtain rfl : .error (.inFlight m.tally.trial) = a := by simpa [ht] using h
      simp [IsBusy]
    · exact hbefore (by simpa [ht] using h)
  | @busy t kept s w todo hcall hw hlt =>
    -- a reset never comes here
    have hle := hr.checked t kept s todo hcall w hw
    omega
  | fail => exact hbefore h
  | _ =>
    simp at h
    grind

theorem ResetInOrder.answered_move (hr : m.ResetInOrder) (hm : Move work m e m') :
    ∀ t a, (m'.caller t).answer = some a → ¬ IsBusy a := by
  intro t' a h
  have hbefore := hr.answered t' a
  -- A thread that gets an answer is let go, with what it was about to be told.
  cases hm with
  | @ask t _ c _ _ _ _ _ _ _ _ hnot =>
    by_cases ht : t' = t
    · exact hnot a (by simpa [ht] using h)
    · exact hbefore (by simpa [ht] using h)
  | @unlock t a' hcall =>
    by_cases ht : t' = t
    · obtain rfl : a' = a := by simpa [ht] using h
      exact hr.releasing t a' hcall
    · exact hbefore (by simpa [ht] using h)
  | @endRun t quota hcall =>
    by_cases ht : t' = t
    · obtain rfl : .ok (.quota quota) = a := by simpa [ht] using h
      simp [IsBusy]
    · exact hbefore (by simpa [ht] using h)
  | @endReset t kept hcall =>
    by_cases ht : t' = t
    · obtain rfl : .ok .done = a := by simpa [ht] using h
      simp [IsBusy]
    · exact hbefore (by simpa [ht] using h)
  | fail => exact hbefore h
  | _ =>
    simp at h
    grind

theorem ResetInOrder.empty (freeze : FreezeScope) (shared : S) :
    (Machine.empty freeze shared : Machine U S).ResetInOrder where
  paired t _ _ h := by cases t <;> simp [Machine.empty, caller] at h
  checked t _ _ _ h := by cases t <;> simp [Machine.empty, caller] at h
  releasing t _ h := by cases t <;> simp [Machine.empty, caller] at h
  answered t _ h := by cases t <;> simp [Machine.empty, caller] at h

end Machine

/-! ## Resets in runs -/

variable {U S : Type} {work : U → S → U × S} {freeze : FreezeScope} {shared : S}
  {h : History U S} {m m' : Machine U S} {e : Machine.Event U}

theorem Run.resetInOrder (run : Run work (.empty freeze shared) h m) : m.ResetInOrder := by
  induction run with
  | start => exact .empty freeze shared
  | next run hs ih =>
    have hm := Machine.Move.of_step hs
    exact ⟨ih.paired_move hm, ih.checked_move run.coherent run.orderly hm, ih.releasing_move hm,
      ih.answered_move hm⟩

/-- No answer says that a worker was busy. -/
theorem Run.not_busy (run : Run work (.empty freeze shared) h m) {x : Moment U S} (hx : x ∈ h)
    {t : Thread} {a : Except TrialError Answer} (ha : x.Answers t a) : ¬ IsBusy a := by
  obtain ⟨h', run', hs⟩ := run.of_mem hx
  apply (run'.next hs).resetInOrder.answered t
  rw [ha.2]

/-- After a reset there is no trial until one begins. -/
theorem Run.ready_after_reset {h₁ h₂ : History U S} {x : Moment U S}
    (run : Run work (.empty freeze shared) (h₁ ++ x :: h₂) m) (hx : x.Resets)
    (hb : ∀ y ∈ h₁, y.begins? = none) :
    m.tally.phase = .ready ∧ (∀ y ∈ h₁, y.before.tally.phase = .ready) ∧
      ∀ y ∈ h₁ ++ [x], y.after.tally.phase = .ready := by
  induction h₁ generalizing m with
  | nil =>
    obtain ⟨run₀, hs, rfl⟩ := run.next_inv
    simpa using phase_of_resets hs hx
  | cons y h₁ ih =>
    obtain ⟨run₀, hs, rfl⟩ := run.next_inv
    obtain ⟨hph, hbefore, hafter⟩ := ih run₀ fun z hz => hb z (List.mem_cons_of_mem _ hz)
    -- No beginning, so the tally stays ready from one moment to the next.
    have hready := phase_of_ready run₀.coherent hs (hb y (List.mem_cons_self ..)) hph
    refine ⟨hready, ?_, ?_⟩
    · intro z hz
      rcases List.mem_cons.mp hz with rfl | hz
      · exact hph
      · exact hbefore z hz
    · intro z hz
      rcases List.mem_cons.mp hz with rfl | hz
      · exact hready
      · exact hafter z hz

/-- Outside a trial every worker has used up its quota and is not at work.  So no reset fails
because a worker is busy, and after a reset no worker has anything done or calls its unit until the
next trial begins, whatever it had read before. -/
theorem idle_unless_running (run : Run work (.empty freeze shared) h m) :
    (m.tally.phase ≠ .running → ∀ s w, m.worker? s = some w →
      w.control.quota ≤ w.control.completed ∧ w.point.isWorking = false) ∧
    (∀ x ∈ h, ∀ t a, x.Answers t a → ¬ IsBusy a) ∧
    ∀ h₁ x h₂, h = h₁ ++ x :: h₂ → x.Resets → (∀ y ∈ h₁, y.begins? = none) →
      (∀ y ∈ h₁ ++ [x], ∀ s w, y.after.worker? s = some w → w.control.completed = 0) ∧
      ∀ y ∈ h₁, ∀ s, y.at s ≠ .called := by
  refine ⟨?_, fun x hx t a ha => run.not_busy hx ha, ?_⟩
  · -- outside a trial no report is expected of anybody
    intro hph s w hw
    have ho := run.orderly s w hw
    have hno : ¬ (m.view s w).Owes := fun howes => hph howes.1
    exact ⟨ho.idle hno, ho.not_working hno⟩
  · -- after a reset and before the next trial all blocks are clear
    rintro h₁ x h₂ rfl hx hb
    obtain ⟨-, hbefore, hafter⟩ := run.ready_after_reset hx hb
    refine ⟨fun y hy s w hw => ?_, fun y hy s hcalled => ?_⟩
    · have hmem : y ∈ h₁ ++ x :: h₂ := by simp at hy ⊢; tauto
      obtain ⟨h', run', hs⟩ := run.of_mem hmem
      exact (((run'.next hs).orderly s w hw).ready (hafter y hy)).2.1
    · have hmem : y ∈ h₁ ++ x :: h₂ := List.mem_append_left _ hy
      obtain ⟨h', run', hs⟩ := run.of_mem hmem
      obtain ⟨w, hw, howes⟩ := run'.owes_of_called hcalled
      have hrunning : y.before.tally.phase = .running := howes.1
      rw [hbefore y hy] at hrunning
      cases hrunning

/-- After its trial the single writer is reset and goes on looking for quota. -/
def soloReset : List (Machine.Event Unit) := List.flatten [
  soloTrial,
  [.invoke .controlling .reset],
  .replicate 9 (.call .controlling),
  .replicate 4 (.worker ⟨.writer, 0⟩)]

theorem idle_unless_running_soloReset :
    let h := (Machine.empty .everyone ()).historyFrom idleWork [] soloReset
    ∃ m h₁ x h₂, Run idleWork (.empty .everyone ()) h m ∧ h = h₁ ++ x :: h₂ ∧ x.Resets ∧
      (∀ y ∈ h₁, y.begins? = none) ∧ (∀ y ∈ h₁, ∀ s, y.at s ≠ .called) ∧
      m.tally.phase ≠ .running ∧
      ∀ s w, m.worker? s = some w → w.control.quota ≤ w.control.completed := by
  intro h
  have hend : ((Machine.empty .everyone ()).steps idleWork soloReset).map
      (fun m => m.tally.phase) = some .ready := rfl
  obtain ⟨m, run, hph⟩ := Run.exists_of_map hend
  have hrunning : m.tally.phase ≠ .running := by simp [hph]
  -- four steps of the writer follow the end of the reset
  have hlen : 4 < h.length := by decide
  have hsplit : h = h.take 4 ++ h[4] :: h.drop 5 := by
    rw [← List.drop_eq_getElem_cons, List.take_append_drop]
  have hresets : h[4].Resets := ⟨.controlling, 1, rfl, .inl rfl, rfl⟩
  have hnone : ∀ y ∈ h.take 4, y.begins? = none := by decide
  obtain ⟨hidle, -, hafter⟩ := idle_unless_running run
  obtain ⟨-, hcalled⟩ := hafter _ _ _ hsplit hresets hnone
  exact ⟨m, _, _, _, run, hsplit, hresets, hnone, hcalled, hrunning,
    fun s w hw => (hidle hrunning s w hw).1⟩

end SpeedTrial.Trial
