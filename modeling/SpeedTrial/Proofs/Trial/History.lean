import SpeedTrial.Proofs.Trial.Roster

/-!
# Runs and what they tell

A `Run` is a sequence of events of a machine, in any order that the machine allows, together
with its history: every event with the machine before and after it, newest first.  All that is
said of the past is read off the history.

* `latest?` is how the current trial began, and `current` is what happened since.
* `Moment.at` is what one event means to the worker in one slot, and `account` collects this for
  the current trial: the quota that the worker was given, and what happened to it since.
* `acceptances` are the reports that the coordinator accepted in the current trial.

Nothing here looks at a tally to find out what was counted, so that the statements about tallies
compare two different things.
-/

namespace SpeedTrial.Trial

/-! ## Runs -/

/-- One event of a run, with the machine before and after it. -/
structure Moment (U S : Type) where
  before : Machine U S
  event : Machine.Event U
  after : Machine U S

/-- What happened in a run, newest first. -/
abbrev History (U S : Type) := List (Moment U S)

variable {U S : Type}

/-- The runs of a machine, each with its history. -/
inductive Run (work : U → S → U × S) (m₀ : Machine U S) : History U S → Machine U S → Prop where
  /-- Nothing has happened. -/
  | start : Run work m₀ [] m₀
  /-- One more event that is possible. -/
  | next {h : History U S} {m m' : Machine U S} {e : Machine.Event U} :
      Run work m₀ h m → m.step work e = some m' → Run work m₀ (⟨m, e, m'⟩ :: h) m'

/-- The history of a sequence of events, put before what happened already. -/
def Machine.historyFrom (work : U → S → U × S) (h : History U S) (m : Machine U S) :
    List (Machine.Event U) → History U S
  | [] => h
  | e :: es =>
    match m.step work e with
    | none => h
    | some m' => m'.historyFrom work (⟨m, e, m'⟩ :: h) es

/-- A sequence of events that is possible is a run. -/
theorem Run.of_steps {work : U → S → U × S} {m₀ m m' : Machine U S} {h : History U S}
    (run : Run work m₀ h m) {es : List (Machine.Event U)} (hes : m.steps work es = some m') :
    Run work m₀ (m.historyFrom work h es) m' := by
  -- by induction on the events that are still to come, for every run that leads to them
  induction es generalizing m h with
  | nil =>
    obtain rfl : m = m' := Option.some.inj hes
    exact run
  | cons e es ih =>
    cases hs : m.step work e with
    | none => simp [Machine.steps, hs] at hes
    | some m₁ =>
      simp only [Machine.historyFrom, hs]
      exact ih (run.next hs) (by simpa [Machine.steps, hs] using hes)

/-- What is found after a sequence of events holds where its run ends. -/
theorem Run.exists_of_map {α : Type} {work : U → S → U × S} {m₀ : Machine U S}
    {es : List (Machine.Event U)} {f : Machine U S → α} {a : α}
    (hes : (m₀.steps work es).map f = some a) :
    ∃ m, Run work m₀ (m₀.historyFrom work [] es) m ∧ f m = a := by
  obtain ⟨m, hm, hf⟩ := Option.map_eq_some_iff.mp hes
  exact ⟨m, .of_steps .start hm, hf⟩

/-- Work that does nothing, for runs of which only the coordination matters. -/
def idleWork (u s : Unit) : Unit × Unit := (u, s)

/-- A single writer performs a trial of one unit: it is registered and launched, five steps of the
caller begin the trial, and the writer performs the unit and reports. -/
def soloTrial : List (Machine.Event Unit) := List.flatten [
  [.register .writer .writer (), .launch, .invoke .controlling (.run 1)],
  .replicate 5 (.call .controlling),
  .replicate 5 (.worker ⟨.writer, 0⟩),
  [.finish ⟨.writer, 0⟩],
  .replicate 8 (.worker ⟨.writer, 0⟩)]

theorem Run.next_inv {work : U → S → U × S} {m₀ m : Machine U S} {x : Moment U S} {h : History U S}
    (run : Run work m₀ (x :: h) m) :
    Run work m₀ h x.before ∧ x.before.step work x.event = some x.after ∧ x.after = m := by
  cases run with
  | next run hs => exact ⟨run, hs, rfl⟩

/-- What happened before a moment of a run is a run. -/
theorem Run.of_append {work : U → S → U × S} {m₀ m : Machine U S} {h₁ h₂ : History U S}
    {x : Moment U S} (run : Run work m₀ (h₁ ++ x :: h₂) m) :
    Run work m₀ h₂ x.before ∧ x.before.step work x.event = some x.after := by
  -- the events after the moment are taken back one by one
  induction h₁ generalizing m with
  | nil =>
    obtain ⟨run₀, hs, -⟩ := run.next_inv
    exact ⟨run₀, hs⟩
  | cons y h₁ ih => exact ih run.next_inv.1

/-- Every moment of a run ends a shorter run. -/
theorem Run.of_mem {work : U → S → U × S} {m₀ m : Machine U S} {x : Moment U S} {h : History U S}
    (run : Run work m₀ h m) (hx : x ∈ h) :
    ∃ h', Run work m₀ h' x.before ∧ x.before.step work x.event = some x.after := by
  induction run with
  | start => cases hx
  | next run hs ih =>
    rcases List.mem_cons.mp hx with rfl | hx
    · exact ⟨_, run, hs⟩
    · exact ih hx

/-- A run that goes on from where another one ends. -/
theorem Run.trans {work : U → S → U × S} {m₀ m m' : Machine U S} {h h' : History U S}
    (run : Run work m₀ h m) (rest : Run work m h' m') : Run work m₀ (h' ++ h) m' := by
  induction rest with
  | start => exact run
  | next _ hs ih => exact ih.next hs

/-- A run is one to any moment of it and one from there on. -/
theorem Run.split {work : U → S → U × S} {m₀ m : Machine U S} {h₁ h₂ : History U S}
    (run : Run work m₀ (h₁ ++ h₂) m) : ∃ m₁, Run work m₀ h₂ m₁ ∧ Run work m₁ h₁ m := by
  induction h₁ generalizing m with
  | nil => exact ⟨m, run, .start⟩
  | cons x h₁ ih =>
    obtain ⟨before, hs, rfl⟩ := run.next_inv
    obtain ⟨m₁, run₂, run₁⟩ := ih before
    exact ⟨m₁, run₂, run₁.next hs⟩

/-! ## Trials -/

/-- How a trial began. -/
structure Beginning where
  thread : Thread
  trial : Nat
  /-- The writer units asked for. -/
  total : Nat
  /-- The units of each writer. -/
  quota : Nat
  deriving DecidableEq, Repr

/-- The quota that a worker of a role is given. -/
def Beginning.given (b : Beginning) : Role → Nat
  | .writer => b.quota
  | .reader => Machine.unbounded

/-- How a trial begins at a moment, if one does: a thread that holds the lock goes on to hand
out quota. -/
def Moment.begins? (x : Moment U S) : Option Beginning :=
  match x.event with
  | .call t =>
    match (x.before.caller t).call, (x.after.caller t).call with
    | .runAtFlag total, .resuming quota _ => some ⟨t, x.after.tally.trial, total, quota⟩
    | _, _ => none
  | _ => none

/-- How the current or last trial began. -/
def latest? (h : History U S) : Option Beginning := h.findSome? Moment.begins?

/-- What happened since the current or last trial began. -/
def current (h : History U S) : History U S := h.takeWhile fun x => x.begins?.isNone

section

variable {x : Moment U S} {b : Beginning} (h : History U S)

theorem latest?_cons_of_some (hb : x.begins? = some b) : latest? (x :: h) = some b := by
  simp [latest?, hb]

theorem latest?_cons_of_none (hb : x.begins? = none) : latest? (x :: h) = latest? h := by
  simp [latest?, hb]

theorem current_cons_of_some (hb : x.begins? = some b) : current (x :: h) = [] := by
  simp [current, hb]

theorem current_cons_of_none (hb : x.begins? = none) : current (x :: h) = x :: current h := by
  simp [current, hb]

end

/-- A thread gets its answer at a moment. -/
def Moment.Answers (x : Moment U S) (t : Thread) (a : Except TrialError Answer) : Prop :=
  (x.event = .call t ∨ ∃ op, x.event = .invoke t op) ∧ x.after.caller t = ⟨.idle, some a⟩

/-- A reset ends at a moment, with all workers and the tally taken back. -/
def Moment.Resets (x : Moment U S) : Prop :=
  ∃ t kept, (x.before.caller t).call = .resetting kept [] ∧ x.Answers t (.ok .done)

/-- A thread begins to stop all workers at a moment. -/
def Moment.stops (x : Moment U S) : Bool :=
  match x.event with
  | .invoke _ .stop => true
  | _ => false

/-! ## What happens to a worker -/

/-- The units that a worker has performed, given what it has published. -/
def Point.performed (completed : Nat) : Point → Nat
  | .publish done => done
  | _ => completed

/-- The units that a worker has performed or will perform before it reads its quota again. -/
def Point.committed (completed : Nat) : Point → Nat
  | .calling done => done + 1
  | .inUnit done => done + 1
  | .publish done => done
  | _ => completed

/-- A worker would perform more units than those it is committed to. -/
def Worker.hasUnitsLeft (w : Worker U) : Bool :=
  decide (w.point.committed w.control.completed < w.control.quota)

/-- What a moment means to one worker. -/
inductive Happening where
  /-- Nothing that an account keeps. -/
  | quiet
  /-- A trial began in which the worker is given so many units. -/
  | begun (quota : Nat)
  /-- The worker called its unit of work. -/
  | called
  /-- The unit of work returned. -/
  | returned
  /-- The unit of work panicked. -/
  | panicked
  /-- The first writer that reported took the quota of the worker away. -/
  | frozen
  /-- A stop took the quota of the worker away while it had units left. -/
  | cut
  /-- A report of the worker was accepted, and so many units were counted for a trial. -/
  | counted (trial units : Nat)
  deriving DecidableEq, Repr

/-- The units counted. -/
def Happening.units? : Happening → Option Nat
  | .counted _ units => some units
  | _ => none

/-- What a step of the worker in slot `t` from a point means to the worker in slot `s`. -/
def Point.meaning (t s : Slot) : Point → Happening
  | .calling _ => if t = s then .called else .quiet
  | .freezing trial units [] => if t = s then .counted trial units else .quiet
  | .freezing _ _ ((t', .setQuota _) :: _) => if t' = s then .frozen else .quiet
  | _ => .quiet

/-- What a step of a stop means to the worker in a slot. -/
def Machine.stopMeaning (m : Machine U S) (s : Slot) : List (Slot × Access) → Happening
  | (t, .setQuota _) :: _ =>
    if t = s ∧ (m.worker? s).any Worker.hasUnitsLeft then .cut else .quiet
  | _ => .quiet

/-- What a moment means to the worker in a slot. -/
def Moment.at (x : Moment U S) (s : Slot) : Happening :=
  match x.begins? with
  | some b => .begun (b.given s.role)
  | none =>
    match x.event with
    | .worker t => ((x.before.worker? t).map fun w => w.point.meaning t s).getD .quiet
    | .finish t => if t = s then .returned else .quiet
    | .panic t => if t = s then .panicked else .quiet
    | .call t =>
      match (x.before.caller t).call with
      | .stopping todo => x.before.stopMeaning s todo
      | _ => .quiet
    | _ => .quiet

/-- What a history tells of one worker in the current or last trial. -/
structure Account where
  /-- The units that the worker was given. -/
  quota : Nat := 0
  /-- What happened since then, newest first. -/
  episode : List Happening := []
  deriving Repr

namespace Account

/-- The account after one more happening; a new trial begins a new account. -/
def note (a : Account) : Happening → Account
  | .begun quota => ⟨quota, []⟩
  | x => { a with episode := x :: a.episode }

/-- The units that returned in the trial. -/
def units (a : Account) : Nat := a.episode.count .returned

/-- The amounts counted in the trial, newest first. -/
def counts (a : Account) : List Nat := a.episode.filterMap Happening.units?

end Account

/-- What a history tells of the worker in a slot. -/
def account (s : Slot) : History U S → Account
  | [] => {}
  | x :: h => (account s h).note (x.at s)

/-- The units of the worker in a slot that returned since the current or last trial began. -/
def returned (s : Slot) (h : History U S) : Nat :=
  (current h).countP fun x => x.at s = .returned

/-- The amounts counted for the worker in a slot since then, newest first. -/
def contributions (s : Slot) (h : History U S) : List Nat :=
  (current h).filterMap fun x => (x.at s).units?

/-! ## Reports -/

/-- The slot whose report is accepted at a moment, if one is. -/
def Moment.accepted? (x : Moment U S) : Option Slot :=
  match x.event with
  | .worker s =>
    match (x.before.worker? s).map Worker.point with
    | some (.report trial _) => if x.before.tally.accepts s trial then some s else none
    | _ => none
  | _ => none

/-- The slots of a role whose reports were accepted in the current or last trial, newest first. -/
def acceptances (r : Role) (h : History U S) : List Slot :=
  ((current h).filterMap Moment.accepted?).filter fun s => s.role = r

end SpeedTrial.Trial
