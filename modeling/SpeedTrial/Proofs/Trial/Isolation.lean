import SpeedTrial.Proofs.Trial.Ledger

/-!
# Units and trials

Every unit that a worker performs is counted once, in the trial in which it is performed: a report
is counted for the units that returned since the trial began, and after its report a worker does not
call its unit before the next trial begins.

Main statement: `units_counted_once`.
-/

namespace SpeedTrial.Trial

variable {U S : Type} {work : U → S → U × S} {freeze : FreezeScope} {shared : S}
  {h : History U S} {m m' : Machine U S} {e : Machine.Event U}

/-! ## What a report is counted for -/

/-- A report is counted for the trial that began last, and for all units of its worker that
returned since; nothing was counted for the worker before. -/
theorem Run.counted (run : Run work (.empty freeze shared) h m) {s : Slot} {trial n : Nat}
    (hx : Moment.at ⟨m, e, m'⟩ s = .counted trial n) :
    (∃ b, latest? h = some b ∧ b.trial = trial) ∧ n = returned s h ∧ contributions s h = [] := by
  obtain ⟨w, -, hw, hp⟩ := Moment.cause_of hx
  have hpt := (run.orderly s w hw).point
  rw [show (m.view s w).point = .freezing trial n [] from hp] at hpt
  obtain ⟨htrial, hrun, -, -⟩ := hpt
  have hne : m.tally.phase ≠ .ready := by
    rw [show m.tally.phase = .running from hrun]
    simp
  obtain ⟨b, hb, hbt, -, -⟩ := (run.ledger hne).latest
  obtain ⟨hcounts, hsettles⟩ := (run.accounted s w hw).delivering trial n [] hp
  refine ⟨⟨b, hb, hbt.trans htrial.symm⟩, ?_, ?_⟩
  · rw [hsettles.units, account_units]
  · rw [← account_counts, hcounts]

/-! ## After a report -/

/-- Once its report is accepted, none is expected of a worker until a trial begins. -/
theorem Run.not_owes_of_accepted {h₁ h₂ : History U S} {x : Moment U S} {s : Slot}
    (run : Run work (.empty freeze shared) (h₁ ++ x :: h₂) m) (hx : x.accepted? = some s)
    (hb : ∀ y ∈ h₁, y.begins? = none) :
    (∀ w, m.worker? s = some w → ¬ (m.view s w).Owes) ∧
      ∀ y ∈ h₁, ∀ w, y.before.worker? s = some w → ¬ (y.before.view s w).Owes := by
  -- by induction on what happened since: what accepts the report marks it, and after that only the
  -- beginning of a trial makes one expected
  induction h₁ generalizing m with
  | nil =>
    obtain ⟨run₀, hs, rfl⟩ := run.next_inv
    obtain ⟨-, htally, -⟩ := tally_of_accepted hs hx
    refine ⟨fun w _ howes => ?_, by simp⟩
    have hrep : x.after.tally.hasReported s = false := howes.2
    rw [htally, Tally.hasReported_mark] at hrep
    simp at hrep
  | cons y h₁ ih =>
    obtain ⟨run₀, hs, rfl⟩ := run.next_inv
    obtain ⟨hnow, hbefore⟩ := ih run₀ fun z hz => hb z (List.mem_cons_of_mem _ hz)
    constructor
    · intro w' hw' howes
      -- a worker that has just been registered owes nothing, as no trial is running
      rcases run₀.step_view hs hw' with ⟨w, hw, hstep⟩ | ⟨-, hl, -⟩
      · have hne := Moment.at_ne_begun (hb y (List.mem_cons_self ..)) s
        exact hnow w hw (hstep.owes_of_owes hne howes)
      · have hph : y.after.tally.phase = .running := howes.1
        rw [(run.coherent.unborn hl).1] at hph
        cases hph
    · intro z hz
      rcases List.mem_cons.mp hz with rfl | hz
      · exact hnow
      · exact hbefore z hz

/-! ## Units and trials -/

/-- Every unit is counted once, in the trial in which it is performed. -/
theorem units_counted_once (run : Run work (.empty freeze shared) h m) :
    (∀ h₁ x h₂, h = h₁ ++ x :: h₂ → ∀ s trial n, x.at s = .counted trial n →
      (∃ b, latest? h₂ = some b ∧ b.trial = trial) ∧
      n = returned s h₂ ∧ contributions s h₂ = [] ∧
      ∀ r, x.after.tally.opsOf r = x.before.tally.opsOf r + if r = s.role then n else 0) ∧
    (∀ x ∈ h, (∀ s trial n, x.at s ≠ .counted trial n) → ∀ r,
      x.after.tally.opsOf r = x.before.tally.opsOf r ∨
        x.after.tally.opsOf r = 0 ∧ (x.begins? ≠ none ∨ x.Resets)) ∧
    (∀ h₁ x h₂ s, h = h₁ ++ x :: h₂ → x.accepted? = some s → (∀ y ∈ h₁, y.begins? = none) →
      ∀ y ∈ h₁, y.at s ≠ .called) ∧
    (∀ x ∈ h, ∀ s, x.at s = .called → x.before.tally.phase = .running) ∧
    (m.tally.phase = .complete → ∀ r,
      m.tally.opsOf r = ∑ i ∈ Finset.range (m.workers r).length, returned ⟨r, i⟩ h) := by
  refine ⟨?_, ?_, ?_, ?_, ?_⟩
  · rintro h₁ x h₂ rfl s trial n hx
    obtain ⟨run₂, hs⟩ := run.of_append
    obtain ⟨hb, hn, hnone⟩ := run₂.counted hx
    exact ⟨hb, hn, hnone, opsOf_of_counted hs hx⟩
  · intro x hx hno
    obtain ⟨h', run', hs⟩ := run.of_mem hx
    exact opsOf_eq_or_zero run'.coherent hs hno
  · -- a worker calls its unit only while a report of it is expected
    rintro h₁ x h₂ s rfl hx hb y hy hcalled
    obtain ⟨-, hbefore⟩ := run.not_owes_of_accepted hx hb
    obtain ⟨h', run', -⟩ := run.of_mem (List.mem_append_left _ hy)
    obtain ⟨w, hw, howes⟩ := run'.owes_of_called hcalled
    exact hbefore y hy w hw howes
  · intro x hx s hcalled
    obtain ⟨h', run', -⟩ := run.of_mem hx
    obtain ⟨w, -, howes⟩ := run'.owes_of_called hcalled
    exact howes.1
  · intro hph r
    rw [(run.ledger (by rw [hph]; simp)).ops r]
    refine Finset.sum_congr rfl fun i hi => ?_
    -- each worker was counted once, for all that it did
    obtain ⟨w, hw⟩ := Machine.worker?_of_lt (Finset.mem_range.mp hi)
    obtain ⟨n, hn, hsettles⟩ := run.settled hph hw
    rw [hn, ← account_units, ← hsettles.units]
    rfl

theorem units_counted_once_solo :
    let h := (Machine.empty .everyone ()).historyFrom idleWork [] soloTrial
    ∃ m h₁ x h₂, Run idleWork (.empty .everyone ()) h m ∧ h = h₁ ++ x :: h₂ ∧
      x.at ⟨.writer, 0⟩ = .counted 1 1 ∧ returned ⟨.writer, 0⟩ h₂ = 1 ∧
      x.after.tally.opsOf .writer = x.before.tally.opsOf .writer + 1 := by
  intro h
  have hend : ((Machine.empty .everyone ()).steps idleWork soloTrial).map
      (fun m => m.tally.phase) = some .complete := rfl
  obtain ⟨m, run, -⟩ := Run.exists_of_map hend
  -- the last step of the writer delivers its report
  have hlen : 0 < h.length := by decide
  have hsplit : h = h.take 0 ++ h[0] :: h.drop 1 := by
    rw [← List.drop_eq_getElem_cons, List.take_append_drop]
  have hcounted : h[0].at ⟨.writer, 0⟩ = .counted 1 1 := rfl
  obtain ⟨hcount, -⟩ := units_counted_once run
  obtain ⟨-, hn, -, hops⟩ := hcount _ _ _ hsplit _ _ _ hcounted
  exact ⟨m, _, _, _, run, hsplit, hcounted, hn.symm, hops .writer⟩

end SpeedTrial.Trial
