import SpeedTrial.Job.Properties
import SpeedTrial.Proofs.Text.Lines
import Mathlib.Data.List.Induction
import Mathlib.Data.List.Nodup

/-!
# What a property file says

A line says something if it still has three bytes when everything from its first number sign on is
cut off and the blanks around the rest are trimmed.  It parts at its first equals sign into a key
and a value, and a line that says something without an equals sign is a fault.

* `Properties.keys_insertAll` and `get?_insertAll`: settings that are inserted one by one leave each
  key once, where it came first, with the value that came last.
* `insertAll_insertAll`: what was collected on its own may be inserted instead of what it was
  collected from.
* `ofLines_eq`: reading is collecting the settings of the relevant lines and inserting them.
* `reading_follows_lines`: what a property file means, and what two of them mean together.
-/

namespace SpeedTrial.Job

open SpeedTrial.Text

/-! ## Entries -/

section entries

variable {key value k : String} {l l' : List (String × String)}

theorem insertEntry_of_not_mem (hkey : key ∉ l.map Prod.fst) :
    insertEntry key value l = l ++ [(key, value)] := by
  induction l with
  | nil => rfl
  | cons entry rest ih =>
    obtain ⟨k, v⟩ := entry
    simp only [List.map_cons, List.mem_cons, not_or] at hkey
    rw [insertEntry, if_neg (Ne.symm hkey.1), ih hkey.2, List.cons_append]

/-- A key that has a value keeps its place. -/
theorem keys_insertEntry_of_mem (hkey : key ∈ l.map Prod.fst) (value : String) :
    (insertEntry key value l).map Prod.fst = l.map Prod.fst := by
  induction l with
  | nil => cases hkey
  | cons entry rest ih =>
    obtain ⟨k, v⟩ := entry
    by_cases hk : k = key
    · simp [insertEntry, hk]
    · have hrest : key ∈ rest.map Prod.fst := by
        simpa [Ne.symm hk] using hkey
      simp [insertEntry, hk, ih hrest]

theorem lookup_cons_eq :
    ((key, value) :: l).lookup k = if k = key then some value else l.lookup k := by
  by_cases hk : k = key
  · simp [hk]
  · simp [List.lookup_cons, beq_false_of_ne hk, hk]

theorem lookup_insertEntry :
    (insertEntry key value l).lookup k = if k = key then some value else l.lookup k := by
  induction l with
  | nil => exact lookup_cons_eq
  | cons entry rest ih =>
    obtain ⟨k', v⟩ := entry
    rw [insertEntry]
    split
    · next hkey =>
      rw [lookup_cons_eq, lookup_cons_eq, hkey]
      split <;> rfl
    · next hkey =>
      rw [lookup_cons_eq, lookup_cons_eq, ih]
      -- the two keys are not the same, so at most one of them is looked for
      split
      · next hk => rw [if_neg (hk ▸ hkey)]
      · rfl

theorem mem_iff_lookup (hnd : (l.map Prod.fst).Nodup) :
    (k, value) ∈ l ↔ l.lookup k = some value := by
  rw [List.lookup_eq_some_iff]
  constructor
  · intro hmem
    obtain ⟨front, back, rfl⟩ := List.append_of_mem hmem
    refine ⟨front, back, rfl, fun entry hentry => ?_⟩
    -- the key does not come twice
    rw [List.map_append, List.map_cons] at hnd
    have hne := (List.nodup_append.mp hnd).2.2 entry.1 (List.mem_map_of_mem hentry) k (by simp)
    simpa using Ne.symm hne
  · rintro ⟨front, back, rfl, -⟩
    simp

theorem lookup_reverse (hnd : (l.map Prod.fst).Nodup) : l.reverse.lookup k = l.lookup k := by
  have hnd' : (l.reverse.map Prod.fst).Nodup := by
    rw [List.map_reverse]
    exact List.nodup_reverse.mpr hnd
  apply Option.ext
  intro v
  rw [← mem_iff_lookup hnd', ← mem_iff_lookup hnd, List.mem_reverse]

/-- Entries are known from their keys and what is found under each. -/
theorem eq_of_lookup (hnd : (l.map Prod.fst).Nodup) (hkeys : l'.map Prod.fst = l.map Prod.fst)
    (hlookup : ∀ k, l'.lookup k = l.lookup k) : l' = l := by
  have hnd' : (l'.map Prod.fst).Nodup := by rwa [hkeys]
  apply List.ext_getElem (by simpa using congrArg List.length hkeys)
  intro i hi' hi
  have hkey : l'[i].1 = l[i].1 := by
    have hat := congrArg (fun ks => ks[i]?) hkeys
    simpa [hi, hi'] using hat
  have hfound' : l'.lookup l'[i].1 = some l'[i].2 := (mem_iff_lookup hnd').mp (List.getElem_mem hi')
  have hfound : l.lookup l[i].1 = some l[i].2 := (mem_iff_lookup hnd).mp (List.getElem_mem hi)
  rw [hlookup, hkey, hfound] at hfound'
  exact Prod.ext hkey (Option.some.inj hfound').symm

end entries

/-! ## Settings one after the other -/

namespace Properties

/-- The keys of a list of properties. -/
def keys (p : Properties) : List String := p.entries.map Prod.fst

/-- Gives several keys their values, one after the other. -/
def insertAll (p : Properties) (settings : List (String × String)) : Properties :=
  settings.foldl (fun p s => p.insert s.1 s.2) p

variable {p : Properties} {settings : List (String × String)} {k : String}

@[simp] theorem insertAll_nil (p : Properties) : p.insertAll [] = p := rfl

@[simp] theorem insertAll_cons (p : Properties) (s : String × String)
    (settings : List (String × String)) :
    p.insertAll (s :: settings) = (p.insert s.1 s.2).insertAll settings := rfl

theorem insertAll_append (p : Properties) (settings more : List (String × String)) :
    p.insertAll (settings ++ more) = (p.insertAll settings).insertAll more :=
  List.foldl_append

/-- Keys with one more of them, which is new or keeps its place. -/
def addKey (keys : List String) (key : String) : List String :=
  if key ∈ keys then keys else keys ++ [key]

theorem keys_insert (p : Properties) (key value : String) :
    (p.insert key value).keys = addKey p.keys key := by
  unfold addKey
  split
  · next hkey => exact keys_insertEntry_of_mem hkey value
  · next hkey => simp [insert, keys, insertEntry_of_not_mem hkey]

theorem get?_insert (p : Properties) (key value : String) :
    (p.insert key value).get? k = if k = key then some value else p.get? k :=
  lookup_insertEntry

theorem keys_insertAll (p : Properties) (settings : List (String × String)) :
    (p.insertAll settings).keys = (settings.map Prod.fst).foldl addKey p.keys := by
  induction settings generalizing p with
  | nil => rfl
  | cons s settings ih => rw [insertAll_cons, ih, keys_insert, List.map_cons, List.foldl_cons]

/-- Of the keys that come one after the other each is kept where it comes first. -/
theorem foldl_addKey (keys : List String) : keys.foldl addKey [] = keys.eraseDups := by
  induction keys using List.reverseRecOn with
  | nil => rfl
  | append_singleton keys key ih =>
    rw [List.foldl_append, List.foldl_cons, List.foldl_nil, ih, List.eraseDups_append, addKey]
    by_cases hkey : key ∈ keys <;>
      simp [List.mem_eraseDups, List.removeAll, List.eraseDups_cons, hkey]

theorem nodup_insertAll (hp : p.keys.Nodup) (settings : List (String × String)) :
    (p.insertAll settings).keys.Nodup := by
  induction settings generalizing p with
  | nil => exact hp
  | cons s settings ih =>
    apply ih
    rw [keys_insert, addKey]
    split
    · exact hp
    · next hkey =>
      refine List.nodup_append.mpr ⟨hp, List.nodup_singleton _, fun a ha b hb => ?_⟩
      rw [List.mem_singleton.mp hb]
      exact fun hab => hkey (hab ▸ ha)

theorem mem_keys_insertAll :
    k ∈ (p.insertAll settings).keys ↔ k ∈ p.keys ∨ k ∈ settings.map Prod.fst := by
  induction settings generalizing p with
  | nil => simp
  | cons s settings ih =>
    have hadd : k ∈ addKey p.keys s.1 ↔ k ∈ p.keys ∨ k = s.1 := by
      unfold addKey
      split
      · next hkey => exact ⟨.inl, fun h => h.elim id fun hk => hk ▸ hkey⟩
      · simp
    rw [insertAll_cons, ih, keys_insert, hadd, List.map_cons, List.mem_cons, or_assoc]

/-- What a key has in the end is the last value that it was given. -/
theorem get?_insertAll (p : Properties) (settings : List (String × String)) :
    (p.insertAll settings).get? k = (settings.reverse.lookup k).or (p.get? k) := by
  induction settings generalizing p with
  | nil => rfl
  | cons s settings ih =>
    rw [insertAll_cons, ih, get?_insert, List.reverse_cons, List.lookup_append, Option.or_assoc,
      lookup_cons_eq]
    split <;> rfl

/-- In a list made of settings alone a key has the value of its last setting. -/
theorem get?_insertAll_iff {value : String} :
    (({} : Properties).insertAll settings).get? k = some value ↔
      ∃ front back, settings = front ++ (k, value) :: back ∧ ∀ s ∈ back, s.1 ≠ k := by
  have hnone : ({} : Properties).get? k = none := rfl
  rw [get?_insertAll, hnone, Option.or_none, List.lookup_eq_some_iff]
  constructor
  · rintro ⟨back, front, hsettings, hback⟩
    refine ⟨front.reverse, back.reverse, ?_, fun s hs => ?_⟩
    · rw [← settings.reverse_reverse, hsettings]
      simp
    · simpa using Ne.symm (bne_iff_ne.mp (hback s (List.mem_reverse.mp hs)))
  · rintro ⟨front, back, rfl, hback⟩
    refine ⟨back.reverse, front.reverse, by simp, fun s hs => ?_⟩
    exact bne_iff_ne.mpr (Ne.symm (hback s (List.mem_reverse.mp hs)))

/-- It makes no difference whether a setting replaces another one before all are inserted, or comes
behind them. -/
theorem insertAll_insertEntry (hp : p.keys.Nodup) (hs : (settings.map Prod.fst).Nodup)
    (key value : String) :
    p.insertAll (insertEntry key value settings) = (p.insertAll settings).insert key value := by
  by_cases hkey : key ∈ settings.map Prod.fst
  · -- the key keeps its place on both sides, and has the same value there
    have hsame := keys_insertEntry_of_mem hkey value
    have hold : key ∈ (p.insertAll settings).keys := mem_keys_insertAll.mpr (.inr hkey)
    have hkeys : (p.insertAll (insertEntry key value settings)).keys =
        ((p.insertAll settings).insert key value).keys := by
      rw [keys_insertAll, hsame, ← keys_insertAll, keys_insert, addKey, if_pos hold]
    have hnd : ((p.insertAll settings).insert key value).keys.Nodup := by
      rw [← hkeys]
      exact nodup_insertAll hp _
    refine congrArg Properties.mk (eq_of_lookup hnd hkeys fun k => ?_)
    show (p.insertAll _).get? k = ((p.insertAll settings).insert key value).get? k
    rw [get?_insert, get?_insertAll, get?_insertAll, lookup_reverse (by rwa [hsame]),
      lookup_reverse hs, lookup_insertEntry]
    split <;> rfl
  · rw [insertEntry_of_not_mem hkey, insertAll_append]
    rfl

/-- What several settings make of a list without properties can be inserted in their place. -/
theorem insertAll_insertAll (hp : p.keys.Nodup) (settings : List (String × String)) :
    p.insertAll (({} : Properties).insertAll settings).entries = p.insertAll settings := by
  induction settings using List.reverseRecOn with
  | nil => rfl
  | append_singleton settings s ih =>
    rw [insertAll_append, insertAll_append, insertAll_cons, insertAll_nil, insertAll_cons,
      insertAll_nil, ← ih]
    exact insertAll_insertEntry hp (nodup_insertAll (p := {}) List.nodup_nil settings) s.1 s.2

end Properties

/-! ## Relevant lines -/

/-- The lines that say something, with their numbers from the given one on: what is left of a line
before its first number sign and without the blanks around it, if that has three bytes. -/
def relevantFrom (number : Nat) (ls : List (List Char)) : List (Nat × List Char) :=
  ((ls.zipIdx number).map fun x => (x.2, lineContent x.1)).filter fun x =>
    3 ≤ (String.ofList x.2).utf8ByteSize

/-- The lines of a text that say something, with their numbers from 1 on. -/
def relevantLines (text : String) : List (Nat × List Char) :=
  relevantFrom 1 (lines text.toList)

/-- A line parts into a key and a value: what stands before and after its first equals sign. -/
def Parts (content : List Char) (setting : String × String) : Prop :=
  ∃ before after, content = before ++ '=' :: after ∧ '=' ∉ before ∧
    setting = (String.ofList (trimmed before), String.ofList (trimmed after))

section relevant

variable {number : Nat} {content : List Char} {ls : List (List Char)} {setting : String × String}

theorem isRelevant_iff : isRelevant content = true ↔ 3 ≤ (String.ofList content).utf8ByteSize := by
  rw [isRelevant, byteLength_eq, decide_eq_true_iff]

theorem relevantFrom_cons_of_relevant {line : List Char}
    (h : isRelevant (lineContent line) = true) :
    relevantFrom number (line :: ls) =
      (number, lineContent line) :: relevantFrom (number + 1) ls := by
  simp [relevantFrom, isRelevant_iff.mp h]

theorem relevantFrom_cons_of_not {line : List Char} (h : ¬ isRelevant (lineContent line) = true) :
    relevantFrom number (line :: ls) = relevantFrom (number + 1) ls := by
  rw [isRelevant_iff] at h
  simp [relevantFrom, h]

theorem relevantFrom_append (number : Nat) (ls more : List (List Char)) :
    relevantFrom number (ls ++ more) =
      relevantFrom number ls ++ relevantFrom (number + ls.length) more := by
  simp [relevantFrom, List.zipIdx_append]

theorem relevantFrom_add (number k : Nat) (ls : List (List Char)) :
    relevantFrom (number + k) ls = (relevantFrom number ls).map fun x => (x.1 + k, x.2) := by
  induction ls generalizing number with
  | nil => rfl
  | cons line ls ih =>
    have hnext : relevantFrom (number + k + 1) ls =
        (relevantFrom (number + 1) ls).map fun x => (x.1 + k, x.2) := by
      rw [Nat.add_right_comm, ih]
    by_cases h : isRelevant (lineContent line) = true
    · rw [relevantFrom_cons_of_relevant h, relevantFrom_cons_of_relevant h, hnext, List.map_cons]
    · rw [relevantFrom_cons_of_not h, relevantFrom_cons_of_not h, hnext]

/-- A carriage return at the end of a line is a blank, or part of a comment. -/
theorem lineContent_withoutReturn (line : List Char) :
    lineContent (withoutReturn line) = lineContent line := by
  rcases withoutReturn_cases line with h | h
  · rw [h]
  · conv_rhs => rw [h]
    unfold lineContent
    rw [List.takeWhile_append]
    split
    · next hall =>
      have hno : (withoutReturn line).takeWhile (· ≠ '#') = withoutReturn line :=
        List.takeWhile_prefix _ |>.eq_of_length hall
      have hreturn : isBlank '\r' = true := rfl
      rw [hno]
      exact (trimmed_append (by simp [hreturn]) _).symm
    · rfl

theorem relevantFrom_withoutReturn (number : Nat) (ls : List (List Char)) :
    relevantFrom number (ls.map withoutReturn) = relevantFrom number ls := by
  induction ls generalizing number with
  | nil => rfl
  | cons line ls ih =>
    rw [List.map_cons]
    by_cases h : isRelevant (lineContent line) = true
    · rw [relevantFrom_cons_of_relevant (by rwa [lineContent_withoutReturn]),
        relevantFrom_cons_of_relevant h, ih, lineContent_withoutReturn]
    · rw [relevantFrom_cons_of_not (by rwa [lineContent_withoutReturn]),
        relevantFrom_cons_of_not h, ih]

/-- The lines of a text say what its pieces say. -/
theorem relevantFrom_lines (number : Nat) (cs : List Char) :
    relevantFrom number (lines cs) = relevantFrom number (pieces '\n' cs) := by
  obtain ⟨front, last, hps⟩ : ∃ front last, pieces '\n' cs = front ++ [last] :=
    ⟨_, _, (List.dropLast_append_getLast (pieces_ne_nil '\n' cs)).symm⟩
  rw [lines_eq hps, hps, relevantFrom_append, relevantFrom_append, relevantFrom_withoutReturn,
    List.length_map]
  split
  · next hempty =>
    -- an empty piece at the end is no line, and says nothing
    rw [List.isEmpty_iff.mp hempty]
    rfl
  · rfl

/-- Behind a line feed the lines of another text follow. -/
theorem relevantLines_append (a b : String) :
    relevantLines (a ++ "\n" ++ b) =
      relevantLines a ++ (relevantLines b).map fun x => (x.1 + (a.toList.count '\n' + 1), x.2) := by
  have hseam : (a ++ "\n" ++ b).toList = a.toList ++ '\n' :: b.toList := by
    simp [String.toList_append]
  unfold relevantLines
  rw [hseam, lines_append, relevantFrom_append, relevantFrom_withoutReturn, ← relevantFrom_lines,
    List.length_map, length_pieces, relevantFrom_add]

/-! ## Parting a line -/

theorem parted?_eq_none_iff : parted? content = none ↔ '=' ∉ content := by
  by_cases h : '=' ∈ content <;> simp [parted?, h]

theorem parts_of_parted? (h : parted? content = some setting) : Parts content setting := by
  unfold parted? at h
  split at h
  · next hmem =>
    obtain ⟨before, after, rfl, hno⟩ := List.eq_append_cons_of_mem (List.contains_iff_mem.mp hmem)
    have hbefore : ∀ c ∈ before, decide (c ≠ '=') = true :=
      fun c hc => decide_eq_true fun heq => hno (heq ▸ hc)
    refine ⟨before, after, rfl, hno, ?_⟩
    -- what is taken and what is dropped meet at the equals sign
    rw [List.takeWhile_append_of_pos hbefore, List.dropWhile_append_of_pos hbefore] at h
    simpa using h.symm
  · cases h

end relevant

/-! ## Reading -/

/-- The settings of relevant lines, up to the first line without an equals sign. -/
def collect : List (Nat × List Char) → Except PropertyError (List (String × String))
  | [] => .ok []
  | (number, content) :: rest =>
    match parted? content with
    | none => .error (.missingSeparator number (String.ofList content))
    | some setting => (collect rest).map (setting :: ·)

/-- A fault that is found so many lines further down. -/
def PropertyError.lowered (k : Nat) : PropertyError → PropertyError
  | .missingSeparator line text => .missingSeparator (line + k) text
  | e => e

theorem collect_append (xs ys : List (Nat × List Char)) :
    collect (xs ++ ys) = (collect xs).bind fun s => (collect ys).map (s ++ ·) := by
  induction xs with
  | nil => cases h : collect ys <;> simp [collect, h, Except.bind, Except.map]
  | cons x xs ih =>
    obtain ⟨number, content⟩ := x
    rw [List.cons_append, collect, collect]
    cases parted? content with
    | none => rfl
    | some setting =>
      simp only [ih]
      cases collect xs <;> cases collect ys <;> rfl

theorem collect_lowered (k : Nat) (xs : List (Nat × List Char)) :
    collect (xs.map fun x => (x.1 + k, x.2)) = (collect xs).mapError (.lowered k) := by
  induction xs with
  | nil => rfl
  | cons x xs ih =>
    obtain ⟨number, content⟩ := x
    rw [List.map_cons, collect, collect]
    cases parted? content with
    | none => rfl
    | some setting =>
      simp only [ih]
      cases collect xs <;> rfl

namespace Properties

/-- To read lines is to collect the settings of those that say something, and to insert them. -/
theorem ofLines_eq (number : Nat) (ls : List (List Char)) (p : Properties) :
    ofLines number ls p = (collect (relevantFrom number ls)).map p.insertAll := by
  induction ls generalizing number p with
  | nil => rfl
  | cons line ls ih =>
    by_cases h : isRelevant (lineContent line) = true
    · rw [relevantFrom_cons_of_relevant h, collect, ofLines]
      simp only [h, if_true]
      cases parted? (lineContent line) with
      | none => rfl
      | some setting =>
        simp only [ih]
        cases collect (relevantFrom (number + 1) ls) <;> rfl
    · rw [relevantFrom_cons_of_not h, ofLines]
      simp only [h, Bool.false_eq_true, if_false, ih]

/-- To read a text is to collect the settings of the lines that say something. -/
theorem ofText_eq (text : String) :
    ofText text = (collect (relevantLines text)).map ({} : Properties).insertAll :=
  ofLines_eq 1 _ _

end Properties

/-- Either a line without an equals sign is found, with all lines before it in order, or every line
parts into a setting. -/
theorem collect_spec (xs : List (Nat × List Char)) :
    match collect xs with
    | .error e => ∃ front number content back, xs = front ++ (number, content) :: back ∧
        (∀ x ∈ front, '=' ∈ x.2) ∧ '=' ∉ content ∧
        e = .missingSeparator number (String.ofList content)
    | .ok settings => List.Forall₂ (fun x s => Parts x.2 s) xs settings := by
  induction xs with
  | nil => exact .nil
  | cons x xs ih =>
    obtain ⟨number, content⟩ := x
    rw [collect]
    -- the first line without a separator ends the collection, whatever comes after it
    cases hparted : parted? content with
    | none => exact ⟨[], number, content, xs, rfl, by simp, parted?_eq_none_iff.mp hparted, rfl⟩
    | some setting =>
      have hparts := parts_of_parted? hparted
      cases hrest : collect xs with
      | error e =>
        rw [hrest] at ih
        obtain ⟨front, n, c, back, rfl, hfront, hc, he⟩ := ih
        refine ⟨(number, content) :: front, n, c, back, rfl, ?_, hc, he⟩
        obtain ⟨before, after, rfl, -⟩ := hparts
        simpa using hfront
      | ok settings =>
        rw [hrest] at ih
        exact .cons hparts ih

/-- What a property file means.  Reading it fails at the first line that says something and has no
equals sign, and says where that is and what it says.  Otherwise every line that says something
parts into a key and a value, each key is there once, where it came first, and has the value that
came last.

Of two files with a line feed between them the second is read on top of the first, as its entries
would be inserted one by one, and a fault in it is that many lines further down. -/
theorem reading_follows_lines (text : String) :
    (match Properties.ofText text with
      | .error e => ∃ front number content back,
          relevantLines text = front ++ (number, content) :: back ∧ (∀ x ∈ front, '=' ∈ x.2) ∧
          '=' ∉ content ∧ e = .missingSeparator number (String.ofList content) ∧
          e.message = "Missing valid key-value separator on line " ++ toString number ++ ": " ++
            String.ofList content
      | .ok p => ∃ settings, List.Forall₂ (fun x s => Parts x.2 s) (relevantLines text) settings ∧
          p.entries.map Prod.fst = (settings.map Prod.fst).eraseDups ∧
          (p.entries.map Prod.fst).Nodup ∧
          ∀ key value, ((key, value) ∈ p.entries ↔ p.get? key = some value) ∧
            (p.get? key = some value ↔ ∃ front back, settings = front ++ (key, value) :: back ∧
              ∀ s ∈ back, s.1 ≠ key)) ∧
    ∀ more : String, Properties.ofText (text ++ "\n" ++ more) =
      match Properties.ofText text with
      | .error e => .error e
      | .ok p =>
        match Properties.ofText more with
        | .error e => .error (e.lowered (text.toList.count '\n' + 1))
        | .ok q => .ok (q.entries.foldl (fun p s => p.insert s.1 s.2) p) := by
  have hspec := collect_spec (relevantLines text)
  have hnd : ∀ settings, (({} : Properties).insertAll settings).keys.Nodup :=
    Properties.nodup_insertAll List.nodup_nil
  constructor
  · rw [Properties.ofText_eq]
    cases hcollect : collect (relevantLines text) with
    | error e =>
      rw [hcollect] at hspec
      obtain ⟨front, number, content, back, hlines, hfront, hcontent, rfl⟩ := hspec
      exact ⟨front, number, content, back, hlines, hfront, hcontent, rfl, rfl⟩
    | ok settings =>
      rw [hcollect] at hspec
      refine ⟨settings, hspec, ?_, hnd settings, fun key value =>
        ⟨mem_iff_lookup (hnd settings), ?_⟩⟩
      · exact (Properties.keys_insertAll _ settings).trans (Properties.foldl_addKey _)
      · exact Properties.get?_insertAll_iff
  · intro more
    rw [Properties.ofText_eq, Properties.ofText_eq, Properties.ofText_eq, relevantLines_append,
      collect_append, collect_lowered]
    cases collect (relevantLines text) with
    | error e => rfl
    | ok settings =>
      cases collect (relevantLines more) with
      | error e => rfl
      | ok settings' =>
        -- the settings of the second text become its entries first
        refine congrArg Except.ok ?_
        rw [Properties.insertAll_append]
        exact (Properties.insertAll_insertAll (hnd settings) settings').symm

end SpeedTrial.Job
