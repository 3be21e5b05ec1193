import SpeedTrial.Proofs.Trial.Delivery
import SpeedTrial.Proofs.Trial.History
import SpeedTrial.Proofs.Trial.Requests

/-!
# One call

What happens from the moment at which a thread calls an operation, as long as nobody else calls
anything: the thread takes its steps, workers act, and time passes, in any order.

* `Machine.Calls` is such a stretch of a run, with its history.
* `Machine.board` is what a machine shows of the coordinator and of the workers: everything but the
  lock, the calling threads and the clock.
-/

namespace SpeedTrial.Trial

variable {U S : Type} {work : U → S → U × S} {m₀ m m' : Machine U S} {h h' : History U S}
  {t : Thread} {op : Operation} {e : Machine.Event U}

/-! ## The course of a call -/

/-- An event that is a step of a worker. -/
def Machine.Event.isWorkers : Machine.Event U → Bool
  | .worker _ => true
  | .finish _ => true
  | .panic _ => true
  | _ => false

/-- What can happen while a thread is in a call and nobody else calls anything. -/
def Machine.Event.During (t : Thread) (e : Machine.Event U) : Prop :=
  e = .call t ∨ e.isWorkers = true ∨ ∃ nanos, e = .tick nanos

/-- A thread does not move while others do. -/
theorem Machine.caller_of_others (hs : m.step work e = some m')
    (he : e.isWorkers = true ∨ ∃ nanos, e = .tick nanos) : m'.caller t = m.caller t := by
  apply Machine.caller_of_step hs
  · rintro rfl
    simp [Machine.Event.isWorkers] at he
  · rintro op rfl
    simp [Machine.Event.isWorkers] at he

/-- What has happened since a thread called an operation. -/
inductive Machine.Calls (work : U → S → U × S) (m : Machine U S) (t : Thread) (op : Operation) :
    History U S → Machine U S → Prop where
  | begin {m' : Machine U S} : m.step work (.invoke t op) = some m' →
      Calls work m t op [⟨m, .invoke t op, m'⟩] m'
  | next {h : History U S} {m₁ m₂ : Machine U S} {e : Machine.Event U} :
      Calls work m t op h m₁ → e.During t → m₁.step work e = some m₂ →
      Calls work m t op (⟨m₁, e, m₂⟩ :: h) m₂

/-- A call is a run. -/
theorem Machine.Calls.run (hcalls : m.Calls work t op h m') : Run work m h m' := by
  induction hcalls with
  | begin hs => exact .next .start hs
  | next _ _ hs ih => exact ih.next hs

/-- A call goes on with a sequence of events that is possible. -/
theorem Machine.Calls.of_steps {m₁ : Machine U S} {es : List (Machine.Event U)}
    (hcalls : m.Calls work t op h m₁) (hes : ∀ e ∈ es, e.During t)
    (hsteps : m₁.steps work es = some m') :
    m.Calls work t op (m₁.historyFrom work h es) m' := by
  -- by induction on the events that are still to come
  induction es generalizing m₁ h with
  | nil =>
    obtain rfl : m₁ = m' := Option.some.inj hsteps
    exact hcalls
  | cons e es ih =>
    cases hs : m₁.step work e with
    | none => simp [Machine.steps, hs] at hsteps
    | some m₂ =>
      simp only [Machine.historyFrom, hs]
      exact ih (hcalls.next (hes e (List.mem_cons_self ..)) hs)
        (fun e' he' => hes e' (List.mem_cons_of_mem _ he'))
        (by rwa [Machine.steps_cons hs] at hsteps)

/-! ## Steps of one thread -/

namespace Machine

/-- A thread comes from one machine to another by steps of its own. -/
def Advances (work : U → S → U × S) (t : Thread) (m m' : Machine U S) : Prop :=
  ∃ n, m.steps work (List.replicate n (.call t)) = some m'

theorem Advances.refl (m : Machine U S) : Advances work t m m := ⟨0, rfl⟩

theorem Advances.step {m₁ : Machine U S} (hs : m.step work (.call t) = some m₁)
    (hrest : Advances work t m₁ m') : Advances work t m m' := by
  obtain ⟨n, hn⟩ := hrest
  exact ⟨n + 1, by rw [List.replicate_succ, steps_cons hs, hn]⟩

theorem Advances.trans {m₁ : Machine U S} (hfirst : Advances work t m m₁)
    (hrest : Advances work t m₁ m') : Advances work t m m' := by
  obtain ⟨k, hk⟩ := hfirst
  obtain ⟨n, hn⟩ := hrest
  exact ⟨k + n, by rw [List.replicate_add, steps_append hk, hn]⟩

end Machine

/-- A call goes on with steps of its own. -/
theorem Machine.Calls.advances {m₁ : Machine U S} (hcalls : m.Calls work t op h m₁)
    (hadv : Machine.Advances work t m₁ m') : ∃ h', m.Calls work t op h' m' := by
  obtain ⟨n, hn⟩ := hadv
  exact ⟨_, hcalls.of_steps (fun e he => .inl (List.eq_of_mem_replicate he)) hn⟩

/-! ## The board -/

/-- What a machine shows of the coordinator and of the workers. -/
structure Board (U S : Type) where
  freeze : FreezeScope
  launched : Bool
  stopped : Bool
  tally : Tally
  writers : List (Worker U)
  readers : List (Worker U)
  shared : S

namespace Machine

/-- Everything but the lock, the calling threads and the clock. -/
def board (m : Machine U S) : Board U S :=
  ⟨m.freeze, m.launched, m.stopped, m.tally, m.writers, m.readers, m.shared⟩

@[simp] theorem board_setCaller (m : Machine U S) (t : Thread) (c : Caller) :
    (m.setCaller t c).board = m.board := by
  cases t <;> rfl

@[simp] theorem board_goOn (m : Machine U S) (t : Thread) (c : Call) :
    (m.goOn t c).board = m.board :=
  m.board_setCaller t _

@[simp] theorem board_reply (m : Machine U S) (t : Thread) (a : Except TrialError Answer) :
    (m.reply t a).board = m.board :=
  m.board_setCaller t _

/-- Calling an operation does nothing but move the thread. -/
theorem board_of_invoke (hs : m.step work (.invoke t op) = some m') : m'.board = m.board := by
  simp only [step, invoke] at hs
  split at hs
  · obtain rfl := Option.some.inj hs
    cases op <;> simp only [apply_ite board, board_goOn, board_reply, ite_self]
  · cases hs

end Machine

end SpeedTrial.Trial
