import SpeedTrial.Job.Legacy
import SpeedTrial.Proofs.Job.Properties
import Mathlib.Logic.Relation

/-!
# What a job takes from a property file

A job reads twelve keys, one after the other, and stops at the first one that is wrong.  Of a file it sees
no more than the last values of these keys.

* `jobKeys` lists the keys in the order in which they are read, and `Properties.fault?` is what is wrong
  with one of them.
* `Checks` relates a reading to the keys that it reads: it fails with the fault of the first wrong one.
  `checks_ofProperties` says so of a job, and `Fed` says what the job has from each key.
* `LastValue` is the value of a key in a text, and `Edit` a change to the lines of a file that keeps the last
  values of all keys of a job.
* `last_values_decide_job` puts these together.
-/

namespace SpeedTrial.Job

open SpeedTrial.Text SpeedTrial.Plan

/-! ## Keys -/

/-- A key that a job reads. -/
structure JobKey where
  name : String
  /-- Whether the key must be there. -/
  required : Bool
  /-- Why a value cannot be read, if it cannot. -/
  refused? : String → Option String

/-- Why a text cannot be read, if it cannot. -/
def refusal? {α : Type} (read : String → Except String α) (s : String) : Option String :=
  match read s with
  | .ok _ => none
  | .error reason => some reason

/-- A key that must be there. -/
def needed {α : Type} (name : String) (read : String → Except String α) : JobKey :=
  ⟨name, true, refusal? read⟩

/-- A key that may be missing. -/
def allowed {α : Type} (name : String) (read : String → Except String α) : JobKey :=
  ⟨name, false, refusal? read⟩

/-- The keys of a sweep, in the order in which they are read. -/
def planKeys : List JobKey :=
  [needed "Trials_lgMinT" readNarrow, needed "Trials_lgMaxT" readNarrow,
    needed "Trials_lgMinU" readNarrow, needed "Trials_lgMaxU" readNarrow,
    needed "Trials_UPPO" readNarrow, needed "Trials_lgMinBpU" readNarrow,
    needed "Trials_lgMaxBpU" readNarrow]

/-- The keys of the workers, in the order in which they are read. -/
def concurrencyKeys : List JobKey :=
  [allowed "CONCURRENT_THETA_numWriters" readWide, allowed "CONCURRENT_THETA_numReaders" readWide,
    allowed "CONCURRENT_THETA_writersRatio" readFraction,
    allowed "CONCURRENT_THETA_ThreadSafe" readFlag]

/-- The keys of a job, in the order in which they are read. -/
def jobKeys : List JobKey := needed "JobProfile" readProfile :: planKeys ++ concurrencyKeys

/-- What is wrong with a key, if anything. -/
def Properties.fault? (p : Properties) (k : JobKey) : Option PropertyError :=
  match p.get? k.name with
  | none => if k.required then some (.missingKey k.name) else none
  | some value => (k.refused? value).map (.invalidValue value k.name)

/-! ## Readings that stop at the first fault -/

/-- The reading fails with the fault of the first wrong key of the list; if there is none, it gives something
that fits. -/
def Checks {α : Type} (p : Properties) (keys : List JobKey) (Fits : α → Prop) :
    Except PropertyError α → Prop
  | .error e => keys.findSome? p.fault? = some e
  | .ok a => keys.findSome? p.fault? = none ∧ Fits a

section checks

variable {α β : Type} {p : Properties} {keys : List JobKey} {Fits : α → Prop} {Goes : β → Prop}
  {x : Except PropertyError α}

theorem checks_pure {a : α} (ha : Fits a) : Checks p [] Fits (pure a) := ⟨rfl, ha⟩

/-- What is read afterwards counts only if nothing was wrong before. -/
theorem Checks.bind {f : α → Except PropertyError β} (hx : Checks p keys Fits x) (more : List JobKey)
    (hf : ∀ a, Fits a → Checks p more Goes (f a)) : Checks p (keys ++ more) Goes (x >>= f) := by
  cases x with
  | error e =>
    have hfirst : keys.findSome? p.fault? = some e := hx
    show (keys ++ more).findSome? p.fault? = some e
    rw [List.findSome?_append, hfirst]
    rfl
  | ok a =>
    have hnone : (keys ++ more).findSome? p.fault? = more.findSome? p.fault? := by
      rw [List.findSome?_append, hx.1]
      rfl
    have ha := hf a hx.2
    show Checks p (keys ++ more) Goes (f a)
    cases hfa : f a with
    | error e =>
      rw [hfa] at ha
      exact hnone.trans ha
    | ok b =>
      rw [hfa] at ha
      exact ⟨hnone.trans ha.1, ha.2⟩

/-- The key has a value, which is read as this. -/
def Properties.Gives (p : Properties) (name : String) (read : String → Except String α) (a : α) : Prop :=
  ∃ value, p.get? name = some value ∧ read value = .ok a

/-- The key has a value, which is read as this, or there is no such key and this is the default. -/
def Properties.GivesOr (p : Properties) (name : String) (read : String → Except String α)
    (default a : α) : Prop :=
  p.get? name = none ∧ a = default ∨ p.Gives name read a

/-- The key has a value, which is read as this, or there is no such key and this is nothing. -/
def Properties.MayGive (p : Properties) (name : String) (read : String → Except String α)
    (o : Option α) : Prop :=
  p.get? name = none ∧ o = none ∨ ∃ a, o = some a ∧ p.Gives name read a

theorem Properties.MayGive.getD {read : String → Except String α} {name : String} {o : Option α}
    (h : p.MayGive name read o) (default : α) : p.GivesOr name read default (o.getD default) := by
  rcases h with ⟨hnone, rfl⟩ | ⟨a, rfl, ha⟩
  · exact .inl ⟨hnone, rfl⟩
  · exact .inr ha

theorem Properties.MayGive.map {read : String → Except String α} {name : String} {o : Option α}
    (h : p.MayGive name read o) (f : α → β) :
    p.MayGive name (fun s => (read s).map f) (o.map f) := by
  rcases h with ⟨hnone, rfl⟩ | ⟨a, rfl, value, hvalue, hread⟩
  · exact .inl ⟨hnone, rfl⟩
  · refine .inr ⟨f a, rfl, value, hvalue, ?_⟩
    show (read value).map f = _
    rw [hread]
    rfl

/-- A key that must be there is read from its value. -/
theorem checks_require (p : Properties) (read : String → Except String α) (name : String) :
    Checks p [needed name read] (p.Gives name read) (p.require read name) := by
  unfold Properties.require Properties.demand Properties.Gives
  cases hvalue : p.get? name with
  | none => simp [Checks, Properties.fault?, needed, hvalue]
  | some value =>
    cases hread : read value with
    | error reason => simp [Checks, Properties.fault?, needed, refusal?, hvalue, hread]
    | ok a => simp [Checks, Properties.fault?, needed, refusal?, hvalue, hread]

/-- A key that may be missing is read from its value if it has one. -/
theorem checks_optional (p : Properties) (read : String → Except String α) (name : String) :
    Checks p [allowed name read] (p.MayGive name read) (p.optional read name) := by
  unfold Properties.optional Properties.require Properties.demand Properties.MayGive Properties.Gives
  cases hvalue : p.get? name with
  | none => simp [Checks, Properties.fault?, allowed, hvalue]
  | some value =>
    cases hread : read value with
    | error reason => simp [Checks, Properties.fault?, allowed, refusal?, hvalue, hread, Except.map]
    | ok a => simp [Checks, Properties.fault?, allowed, refusal?, hvalue, hread, Except.map]

end checks

/-! ## Jobs -/

/-- How writers insert, by whether they need not share a lock. -/
def readMode (s : String) : Except String Sketch.Kind :=
  (readFlag s).map fun threadSafe => if threadSafe then .buffered else .locked

/-- A sweep has what its keys say. -/
structure FedPlan (p : Properties) (plan : SweepPlan) : Prop where
  lgMinTrials : p.Gives "Trials_lgMinT" readNarrow plan.lgMinTrials
  lgMaxTrials : p.Gives "Trials_lgMaxT" readNarrow plan.lgMaxTrials
  lgMinUpdates : p.Gives "Trials_lgMinU" readNarrow plan.lgMinUpdates
  lgMaxUpdates : p.Gives "Trials_lgMaxU" readNarrow plan.lgMaxUpdates
  perOctave : p.Gives "Trials_UPPO" readNarrow plan.perOctave
  lgSlopeStart : p.Gives "Trials_lgMinBpU" readNarrow plan.lgSlopeStart
  lgSlopeEnd : p.Gives "Trials_lgMaxBpU" readNarrow plan.lgSlopeEnd

/-- The workers have what their keys say, and what no key says has its default. -/
structure FedConcurrency (p : Properties) (k : Concurrency) : Prop where
  writers : p.GivesOr "CONCURRENT_THETA_numWriters" readWide 1 k.writers
  readers : p.GivesOr "CONCURRENT_THETA_numReaders" readWide 0 k.readers
  writesRatio : p.GivesOr "CONCURRENT_THETA_writersRatio" readFraction 0.0 k.writesRatio
  mode : p.GivesOr "CONCURRENT_THETA_ThreadSafe" readMode .locked k.mode
  rest : k = { writers := k.writers, readers := k.readers, writesRatio := k.writesRatio, mode := k.mode }

/-- A job has what its keys say, and what no key says has its default. -/
structure Fed (p : Properties) (c : Config) : Prop where
  profile : p.Gives "JobProfile" readProfile c.profile
  trials : FedPlan p c.trials
  concurrency : FedConcurrency p c.concurrency
  rest : c = { profile := c.profile, trials := c.trials, concurrency := c.concurrency }

section jobs

variable {p : Properties}

theorem checks_plan (p : Properties) : Checks p planKeys (FedPlan p) (planOfProperties p) := by
  unfold planOfProperties
  refine (checks_require p readNarrow _).bind (planKeys.drop 1) fun _ h1 => ?_
  refine (checks_require p readNarrow _).bind (planKeys.drop 2) fun _ h2 => ?_
  refine (checks_require p readNarrow _).bind (planKeys.drop 3) fun _ h3 => ?_
  refine (checks_require p readNarrow _).bind (planKeys.drop 4) fun _ h4 => ?_
  refine (checks_require p readNarrow _).bind (planKeys.drop 5) fun _ h5 => ?_
  refine (checks_require p readNarrow _).bind (planKeys.drop 6) fun _ h6 => ?_
  refine (checks_require p readNarrow _).bind [] fun _ h7 => ?_
  exact checks_pure ⟨h1, h2, h3, h4, h5, h6, h7⟩

theorem checks_concurrency (p : Properties) :
    Checks p concurrencyKeys (FedConcurrency p) (concurrencyOfProperties p) := by
  unfold concurrencyOfProperties
  refine (checks_optional p readWide _).bind (concurrencyKeys.drop 1) fun _ h1 => ?_
  refine (checks_optional p readWide _).bind (concurrencyKeys.drop 2) fun _ h2 => ?_
  refine (checks_optional p readFraction _).bind (concurrencyKeys.drop 3) fun _ h3 => ?_
  refine (checks_optional p readFlag _).bind [] fun flag h4 => ?_
  refine checks_pure ⟨h1.getD _, h2.getD _, h3.getD _, ?_, rfl⟩
  have hmode : p.GivesOr _ readMode _ _ := (h4.map _).getD .locked
  rcases flag with _ | _ | _ <;> exact hmode

theorem checks_ofProperties (p : Properties) : Checks p jobKeys (Fed p) (Config.ofProperties p) := by
  unfold Config.ofProperties
  refine (checks_require p readProfile _).bind (planKeys ++ concurrencyKeys) fun _ h1 => ?_
  refine (checks_plan p).bind concurrencyKeys fun _ h2 => ?_
  rw [← concurrencyKeys.append_nil]
  refine (checks_concurrency p).bind [] fun _ h3 => ?_
  exact checks_pure ⟨h1, h2, h3, rfl⟩

end jobs

/-! ## Last values -/

/-- The line is read and gives the key this value. -/
def Sets (line : List Char) (key value : String) : Prop :=
  3 ≤ (String.ofList (lineContent line)).utf8ByteSize ∧ Parts (lineContent line) (key, value)

/-- The last line that gives the key a value gives it this one. -/
def LastValue (ls : List (List Char)) (key value : String) : Prop :=
  ∃ front line back, ls = front ++ line :: back ∧ Sets line key value ∧
    ∀ later ∈ back, ∀ value, ¬ Sets later key value

/-- A change to the lines of a file that concerns no last value of a key of a job. -/
inductive Edit : List (List Char) → List (List Char) → Prop
  /-- Two neighbouring lines with distinct keys change places. -/
  | swap (front : List (List Char)) (x y : List Char) (back : List (List Char))
      (h : ∀ key v w, Sets x key v → ¬ Sets y key w) :
      Edit (front ++ x :: y :: back) (front ++ y :: x :: back)
  /-- A comment, a blank line or any other line that is too short to be read is added. -/
  | silent (front : List (List Char)) (x : List Char) (back : List (List Char))
      (h : (String.ofList (lineContent x)).utf8ByteSize < 3) : Edit (front ++ back) (front ++ x :: back)
  /-- A line with another key is added. -/
  | unknown (front : List (List Char)) (x : List Char) (back : List (List Char)) (key value : String)
      (h : Sets x key value) (hkey : ∀ k ∈ jobKeys, k.name ≠ key) :
      Edit (front ++ back) (front ++ x :: back)
  /-- A line is added before another one with its key. -/
  | overridden (front : List (List Char)) (x : List Char) (back : List (List Char)) (key value : String)
      (h : Sets x key value) (hlater : ∃ later ∈ back, ∃ value, Sets later key value) :
      Edit (front ++ back) (front ++ x :: back)

/-- The setting of a line that is read. -/
def setting? (line : List Char) : Option (String × String) :=
  if isRelevant (lineContent line) then parted? (lineContent line) else none

/-- The last value of a key, found from the end. -/
def lastValue? (ls : List (List Char)) (key : String) : Option String :=
  (ls.filterMap setting?).reverse.lookup key

section last

variable {ls ls' : List (List Char)} {line content : List Char} {key value : String}

theorem parted?_eq_some_iff {setting : String × String} :
    parted? content = some setting ↔ Parts content setting := by
  refine ⟨parts_of_parted?, ?_⟩
  rintro ⟨before, after, rfl, hno, rfl⟩
  have hbefore : ∀ c ∈ before, decide (c ≠ '=') = true :=
    fun c hc => decide_eq_true fun heq => hno (heq ▸ hc)
  unfold parted?
  rw [if_pos (by simp), List.takeWhile_append_of_pos hbefore, List.dropWhile_append_of_pos hbefore]
  simp

theorem setting?_eq_some_iff : setting? line = some (key, value) ↔ Sets line key value := by
  unfold setting? Sets
  rw [← isRelevant_iff, ← parted?_eq_some_iff]
  split
  · next h => simp [h]
  · next h => simp [h]

theorem lastValue?_eq_some_iff : lastValue? ls key = some value ↔ LastValue ls key value := by
  unfold lastValue? LastValue
  rw [List.lookup_eq_some_iff]
  constructor
  · rintro ⟨back, front, hsplit, hback⟩
    -- The list is searched from its end, so the split is that of the lines read backwards.
    have hsettings : ls.filterMap setting? = front.reverse ++ (key, value) :: back.reverse := by
      rw [← (ls.filterMap setting?).reverse_reverse, hsplit]
      simp
    obtain ⟨ls₁, ls₂, rfl, -, h₂⟩ := List.filterMap_eq_append_iff.mp hsettings
    obtain ⟨between, line, rest, rfl, -, hline, hrest⟩ := List.filterMap_eq_cons_iff.mp h₂
    refine ⟨ls₁ ++ between, line, rest, by simp, setting?_eq_some_iff.mp hline,
      fun later hlater v hsets => ?_⟩
    have hmem : (key, v) ∈ back.reverse := by
      rw [← hrest]
      exact List.mem_filterMap.mpr ⟨later, hlater, setting?_eq_some_iff.mpr hsets⟩
    exact absurd (beq_self_eq_true key) (by simpa using hback _ (List.mem_reverse.mp hmem))
  · rintro ⟨front, line, back, rfl, hline, hback⟩
    refine ⟨(back.filterMap setting?).reverse, (front.filterMap setting?).reverse, ?_, fun s hs => ?_⟩
    · rw [List.filterMap_append, List.filterMap_cons_some (setting?_eq_some_iff.mpr hline)]
      simp
    · obtain ⟨later, hlater, hsetting⟩ := List.mem_filterMap.mp (List.mem_reverse.mp hs)
      have hne : s.1 ≠ key := by
        rintro rfl
        exact hback later hlater s.2 (setting?_eq_some_iff.mp hsetting)
      simpa using hne.symm

/-- The settings that are collected from lines are those of the lines one by one. -/
theorem collect_eq_filterMap {number : Nat} {settings : List (String × String)}
    (h : collect (relevantFrom number ls) = .ok settings) : settings = ls.filterMap setting? := by
  induction ls generalizing number settings with
  | nil =>
    cases h
    rfl
  | cons line ls ih =>
    -- a line that says nothing has no setting, and with a separator the line gives one
    by_cases hrelevant : isRelevant (lineContent line) = true
    · have hsetting : setting? line = parted? (lineContent line) := if_pos hrelevant
      rw [relevantFrom_cons_of_relevant hrelevant, collect] at h
      cases hparted : parted? (lineContent line) with
      | none =>
        rw [hparted] at h
        cases h
      | some setting =>
        rw [hparted] at h
        cases hrest : collect (relevantFrom (number + 1) ls) with
        | error e =>
          simp only [hrest] at h
          cases h
        | ok rest =>
          simp only [hrest] at h
          cases h
          rw [List.filterMap_cons_some (hsetting.trans hparted), ← ih hrest]
    · have hsetting : setting? line = none := if_neg hrelevant
      rw [relevantFrom_cons_of_not hrelevant] at h
      rw [List.filterMap_cons_none hsetting]
      exact ih h

/-- A file that was read gives every key its last value. -/
theorem get?_eq_lastValue? {text : String} {p : Properties} (h : Properties.ofText text = .ok p) :
    p.get? key = lastValue? (lines text.toList) key := by
  rw [Properties.ofText_eq] at h
  cases hcollect : collect (relevantLines text) with
  | error e =>
    rw [hcollect] at h
    cases h
  | ok settings =>
    rw [hcollect] at h
    cases h
    have hnone : ({} : Properties).get? key = none := rfl
    rw [Properties.get?_insertAll, hnone, Option.or_none, collect_eq_filterMap hcollect]
    rfl

/-! ## Changes that make no difference -/

theorem lastValue?_append (ls ls' : List (List Char)) (key : String) :
    lastValue? (ls ++ ls') key = (lastValue? ls' key).or (lastValue? ls key) := by
  unfold lastValue?
  rw [List.filterMap_append, List.reverse_append, List.lookup_append]

theorem lastValue?_cons (line : List Char) (ls : List (List Char)) (key : String) :
    lastValue? (line :: ls) key = (lastValue? ls key).or (lastValue? [line] key) :=
  lastValue?_append [line] ls key

theorem lastValue?_singleton_eq_some_iff : lastValue? [line] key = some value ↔ Sets line key value := by
  rw [lastValue?_eq_some_iff]
  constructor
  · rintro ⟨front, line', back, hsplit, hsets, -⟩
    have hmem : line' ∈ [line] := hsplit ▸ List.mem_append_right _ List.mem_cons_self
    rwa [List.mem_singleton.mp hmem] at hsets
  · exact fun hsets => ⟨[], line, [], rfl, hsets, by simp⟩

/-- A line sets no more than one key. -/
theorem Sets.key_eq {key' value' : String} (h : Sets line key value) (h' : Sets line key' value') :
    key' = key :=
  congrArg Prod.fst (Option.some.inj
    ((setting?_eq_some_iff.mpr h').symm.trans (setting?_eq_some_iff.mpr h)))

theorem lastValue?_singleton_eq_none (h : ∀ value, ¬ Sets line key value) :
    lastValue? [line] key = none := by
  rw [Option.eq_none_iff_forall_ne_some]
  exact fun value hvalue => h value (lastValue?_singleton_eq_some_iff.mp hvalue)

/-- A line makes no difference to a key that it does not set, or that is set again behind it. -/
theorem lastValue?_insert {front back : List (List Char)}
    (h : (∀ value, ¬ Sets line key value) ∨ ∃ later ∈ back, ∃ value, Sets later key value) :
    lastValue? (front ++ line :: back) key = lastValue? (front ++ back) key := by
  rw [lastValue?_append, lastValue?_append, lastValue?_cons]
  rcases h with h | ⟨later, hlater, value, hsets⟩
  · rw [lastValue?_singleton_eq_none h, Option.or_none]
  · cases hback : lastValue? back key with
    | some v => rfl
    | none =>
      have hmem : (key, value) ∈ back.filterMap setting? :=
        List.mem_filterMap.mpr ⟨later, hlater, setting?_eq_some_iff.mpr hsets⟩
      have hno := List.lookup_eq_none_iff.mp hback _ (List.mem_reverse.mpr hmem)
      simp at hno

/-- Two neighbouring lines of which only one sets a key may change places. -/
theorem lastValue?_swap {front back : List (List Char)} {x y : List Char}
    (h : ∀ v w, Sets x key v → ¬ Sets y key w) :
    lastValue? (front ++ x :: y :: back) key = lastValue? (front ++ y :: x :: back) key := by
  have htwo (x y : List Char) : lastValue? (x :: y :: back) key =
      (lastValue? back key).or ((lastValue? [y] key).or (lastValue? [x] key)) := by
    rw [lastValue?_cons, lastValue?_cons y back, Option.or_assoc]
  rw [lastValue?_append, lastValue?_append, htwo, htwo]
  cases hx : lastValue? [x] key with
  | none => simp
  | some v =>
    have hy : lastValue? [y] key = none :=
      lastValue?_singleton_eq_none fun w => h v w (lastValue?_singleton_eq_some_iff.mp hx)
    simp [hy]

/-- A change leaves the last values of a job's keys as they are. -/
theorem Edit.lastValue?_eq {k : JobKey} (h : Edit ls ls') (hk : k ∈ jobKeys) :
    lastValue? ls k.name = lastValue? ls' k.name := by
  cases h with
  | swap front x y back h => exact lastValue?_swap (h k.name)
  | silent front x back h =>
    exact (lastValue?_insert (.inl fun _ hsets => absurd hsets.1 h.not_ge)).symm
  | unknown front x back key value h hkey =>
    exact (lastValue?_insert (.inl fun _ hsets => hkey k hk (h.key_eq hsets))).symm
  | overridden front x back key value h hlater =>
    refine (lastValue?_insert ?_).symm
    by_cases hkey : k.name = key
    · exact .inr (hkey ▸ hlater)
    · exact .inl fun _ hsets => hkey (h.key_eq hsets)

/-- So do any number of changes, made or undone. -/
theorem lastValue?_eq_of_edits {k : JobKey} (h : Relation.EqvGen Edit ls ls') (hk : k ∈ jobKeys) :
    lastValue? ls k.name = lastValue? ls' k.name := by
  induction h with
  | rel _ _ h => exact h.lastValue?_eq hk
  | refl => rfl
  | symm _ _ _ ih => exact ih.symm
  | trans _ _ _ _ _ ih ih' => exact ih.trans ih'

end last

/-! ## What decides a job -/

/-- The error is about this key, which is missing or has a value that cannot be read. -/
def Properties.Blames (p : Properties) (k : JobKey) (e : PropertyError) : Prop :=
  k.required = true ∧ p.get? k.name = none ∧ e = .missingKey k.name ∨
    ∃ value reason, p.get? k.name = some value ∧ k.refused? value = some reason ∧
      e = .invalidValue value k.name reason

/-- The key must be there and is missing, or it is there and cannot be read. -/
def Properties.Wrong (p : Properties) (k : JobKey) : Prop := ∃ e, p.Blames k e

/-- The user is told the key. -/
def PropertyError.Names (e : PropertyError) (key : String) : Prop :=
  ∃ before after, e.message = before ++ "property '" ++ key ++ "'" ++ after

section decides

variable {p q : Properties} {k : JobKey} {e : PropertyError}

theorem fault?_eq_some_iff : p.fault? k = some e ↔ p.Blames k e := by
  unfold Properties.fault? Properties.Blames
  cases hvalue : p.get? k.name with
  | none =>
    by_cases hrequired : k.required = true
    · simp [hrequired, @eq_comm _ e]
    · simp [hrequired]
  | some value => simp [@eq_comm _ e]

theorem fault?_eq_none_iff : p.fault? k = none ↔ ¬ p.Wrong k := by
  rw [Option.eq_none_iff_forall_ne_some]
  simp only [Properties.Wrong, ← fault?_eq_some_iff, not_exists, ne_eq]

theorem Properties.Blames.names (h : p.Blames k e) : e.Names k.name := by
  rcases h with ⟨-, -, rfl⟩ | ⟨value, reason, -, -, rfl⟩
  · refine ⟨"Missing required ", "", ?_⟩
    have hlead : "Missing required property '" = "Missing required " ++ "property '" := by decide
    show "Missing required property '" ++ k.name ++ "'" = _
    rw [hlead, String.append_empty]
  · refine ⟨"Invalid value '" ++ value ++ "' for ", ": " ++ reason, ?_⟩
    have hlead : "' for property '" = "' for " ++ "property '" := by decide
    have htail : "': " = "'" ++ ": " := by decide
    show "Invalid value '" ++ value ++ "' for property '" ++ k.name ++ "': " ++ reason = _
    rw [hlead, htail]
    simp only [String.append_assoc]

theorem require_congr {α : Type} {name : String} (read : String → Except String α)
    (hsame : ∀ k ∈ jobKeys, p.get? k.name = q.get? k.name) (hname : ∃ k ∈ jobKeys, k.name = name) :
    p.require read name = q.require read name := by
  obtain ⟨k, hk, rfl⟩ := hname
  unfold Properties.require Properties.demand
  rw [hsame k hk]

theorem optional_congr {α : Type} {name : String} (read : String → Except String α)
    (hsame : ∀ k ∈ jobKeys, p.get? k.name = q.get? k.name) (hname : ∃ k ∈ jobKeys, k.name = name) :
    p.optional read name = q.optional read name := by
  unfold Properties.optional
  rw [require_congr read hsame hname]
  obtain ⟨k, hk, rfl⟩ := hname
  rw [hsame k hk]

/-- Nothing else than the values of its keys is read of a job. -/
theorem ofProperties_congr (hsame : ∀ k ∈ jobKeys, p.get? k.name = q.get? k.name) :
    Config.ofProperties p = Config.ofProperties q := by
  simp (disch := decide) only [Config.ofProperties, planOfProperties, concurrencyOfProperties,
    require_congr _ hsame, optional_congr _ hsame]

/-- Of a property file a job takes the last values of its twelve keys.  The job is read if every key that
must be there is there and every key that is there can be read; then each field has what its key says, or
its default.  Otherwise the user is told the first key that is wrong, in the order of the keys and not of the
file. -/
theorem last_values_decide_job {a b : String} (ha : Properties.ofText a = .ok p)
    (hb : Properties.ofText b = .ok q) :
    (∀ key value, p.get? key = some value ↔ LastValue (lines a.toList) key value) ∧
      ((∀ k ∈ jobKeys, ∀ value,
          LastValue (lines a.toList) k.name value ↔ LastValue (lines b.toList) k.name value) →
        Config.ofProperties p = Config.ofProperties q) ∧
      (Relation.EqvGen Edit (lines a.toList) (lines b.toList) →
        Config.ofProperties p = Config.ofProperties q) ∧
      ((∃ c, Config.ofProperties p = .ok c) ↔ ∀ k ∈ jobKeys, ¬ p.Wrong k) ∧
      (∀ c, Config.ofProperties p = .ok c → Fed p c) ∧
      ∀ e, Config.ofProperties p = .error e →
        ∃ front k back, jobKeys = front ++ k :: back ∧ (∀ earlier ∈ front, ¬ p.Wrong earlier) ∧
          p.Blames k e ∧ e.Names k.name := by
  have hchecks := checks_ofProperties p
  refine ⟨fun key value => ?_, fun hlast => ?_, fun hedits => ?_, ⟨?_, fun hright => ?_⟩, fun c hc => ?_,
    fun e he => ?_⟩
  · rw [get?_eq_lastValue? ha, lastValue?_eq_some_iff]
  · refine ofProperties_congr fun k hk => Option.ext fun value => ?_
    rw [get?_eq_lastValue? ha, get?_eq_lastValue? hb, lastValue?_eq_some_iff, lastValue?_eq_some_iff]
    exact hlast k hk value
  · refine ofProperties_congr fun k hk => ?_
    rw [get?_eq_lastValue? ha, get?_eq_lastValue? hb]
    exact lastValue?_eq_of_edits hedits hk
  · rintro ⟨c, hc⟩ k hk
    rw [hc] at hchecks
    exact fault?_eq_none_iff.mp (List.findSome?_eq_none_iff.mp hchecks.1 k hk)
  · have hnone : jobKeys.findSome? p.fault? = none :=
      List.findSome?_eq_none_iff.mpr fun k hk => fault?_eq_none_iff.mpr (hright k hk)
    cases hread : Config.ofProperties p with
    | ok c => exact ⟨c, rfl⟩
    | error e =>
      rw [hread] at hchecks
      cases hnone.symm.trans hchecks
  · rw [hc] at hchecks
    exact hchecks.2
  · rw [he] at hchecks
    obtain ⟨front, k, back, hsplit, hfault, hfront⟩ := List.findSome?_eq_some_iff.mp hchecks
    have hblames := fault?_eq_some_iff.mp hfault
    exact ⟨front, k, back, hsplit, fun earlier h => fault?_eq_none_iff.mp (hfront earlier h), hblames,
      hblames.names⟩

end decides

/-- A property file with what a job must have. -/
def plainText : String :=
  "JobProfile=update\nTrials_lgMinT=4\nTrials_lgMaxT=9\nTrials_lgMinU=2\nTrials_lgMaxU=18\n" ++
    "Trials_UPPO=3\nTrials_lgMinBpU=5\nTrials_lgMaxBpU=16\n"

/-- The same job in another order, with a comment, a blank line, a key that does not count and a key that
comes twice. -/
def rearrangedText : String :=
  "# a job\nTrials_UPPO=oct\nTrials_lgMinU=2\nTrials_lgMaxU=18\n\nTrials_UPPO=3\nTitle=x\n" ++
    "Trials_lgMinBpU=5\nTrials_lgMaxBpU=16\nTrials_lgMinT=4\nTrials_lgMaxT=9\nJobProfile=update # last\n"

theorem last_values_decide_job_rearranged : ∃ p q,
    Properties.ofText plainText = .ok p ∧ Properties.ofText rearrangedText = .ok q ∧
      Config.ofProperties p = Config.ofProperties q ∧ ∃ c, Config.ofProperties p = .ok c ∧ Fed p c := by
  have hread : ∃ p q, Properties.ofText plainText = .ok p ∧ Properties.ofText rearrangedText = .ok q ∧
      (∀ k ∈ jobKeys, p.get? k.name = q.get? k.name) ∧ ∀ k ∈ jobKeys, p.fault? k = none :=
    ⟨⟨[("JobProfile", "update"), ("Trials_lgMinT", "4"), ("Trials_lgMaxT", "9"), ("Trials_lgMinU", "2"),
        ("Trials_lgMaxU", "18"), ("Trials_UPPO", "3"), ("Trials_lgMinBpU", "5"), ("Trials_lgMaxBpU", "16")]⟩,
      ⟨[("Trials_UPPO", "3"), ("Trials_lgMinU", "2"), ("Trials_lgMaxU", "18"), ("Title", "x"),
        ("Trials_lgMinBpU", "5"), ("Trials_lgMaxBpU", "16"), ("Trials_lgMinT", "4"), ("Trials_lgMaxT", "9"),
        ("JobProfile", "update")]⟩, by decide +kernel⟩
  obtain ⟨p, q, hp, hq, hsame, hfault⟩ := hread
  obtain ⟨hlast, hequal, -, hok, hfed, -⟩ := last_values_decide_job hp hq
  have hlast' := (last_values_decide_job hq hp).1
  obtain ⟨c, hc⟩ := hok.mpr fun k hk => fault?_eq_none_iff.mp (hfault k hk)
  refine ⟨p, q, hp, hq, hequal fun k hk value => ?_, c, hc, hfed c hc⟩
  rw [← hlast, ← hlast', hsame k hk]

end SpeedTrial.Job
