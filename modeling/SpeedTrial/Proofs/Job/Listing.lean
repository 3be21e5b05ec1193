import SpeedTrial.Job.Arguments
import SpeedTrial.Job.Load
import SpeedTrial.Job.Validation
import SpeedTrial.Proofs.Json.Leaves

/-!
# What a job is listed with

A job is listed by way of its JSON value with the members of every object in order.  Which fields there are
does not depend on the job, only whether some of them are set.  A job with a path that is not a text has no
JSON value, and then nothing is listed.

* `Config.fields` are the fields by path, each with its text if it is set and finite.
* `Config.value?_data`, `Config.value?_data_eq_none`: which jobs have a value.
* `Config.properties_eq_fields`: the list of such a job is that table without what is missing from it.
* `Config.properties_of_file`: so it is for every job that is read from a file.
* `flattening_lists_every_leaf`: what flattening does to any value, and what it makes of a job.
* `job_with_raw_path_is_not_listed`: a command line for a job of which nothing is listed.
-/

namespace SpeedTrial.Job

open SpeedTrial.Json SpeedTrial.Text

/-! ## The fields of a job -/

/-- The fields of a job, each with the text it is listed with. -/
def Config.fields (c : Config) : List (String × Option String) :=
  let k := c.concurrency
  let p := c.trials
  let o := c.output
  [("concurrency.flush_every", some (toString k.flushEvery)),
    ("concurrency.freeze", some k.freeze.name),
    ("concurrency.mode", some k.mode.name),
    ("concurrency.poll_interval_us", some (toString k.pollIntervalMicros)),
    ("concurrency.reader_interval_us", k.readerIntervalMicros.map toString),
    ("concurrency.readers", some (toString k.readers)),
    ("concurrency.trial_timeout_secs", k.trialTimeoutSeconds.map toString),
    ("concurrency.writers", some (toString k.writers)),
    ("concurrency.writes_ratio", if k.writesRatio.isFinite then some (doubleText k.writesRatio) else none),
    ("output.json_output", o.jsonOutput.bind RawText.text?),
    ("output.quiet", some (toString o.quiet)),
    ("output.text_output", o.textOutput.bind RawText.text?),
    ("profile", some c.profile.name),
    ("runtime.debug", some (toString c.runtime.debug)),
    ("runtime.dry_run", some (toString c.runtime.dryRun)),
    ("trials.lg_max_bpu", some (toString p.lgSlopeEnd)),
    ("trials.lg_max_t", some (toString p.lgMaxTrials)),
    ("trials.lg_max_u", some (toString p.lgMaxUpdates)),
    ("trials.lg_min_bpu", some (toString p.lgSlopeStart)),
    ("trials.lg_min_t", some (toString p.lgMinTrials)),
    ("trials.lg_min_u", some (toString p.lgMinUpdates)),
    ("trials.u_ppo", some (toString p.perOctave)),
    ("values.mode", some c.values.mode.name),
    ("values.seed", some (toString c.values.seed.toNat))]

/-! ## The value of a job -/

/-- The paths that are set are texts. -/
def Output.HasTexts (o : Output) : Prop :=
  ∀ path, o.textOutput = some path ∨ o.jsonOutput = some path → path.text?.isSome = true

/-- The value of a job whose paths are texts. -/
def Config.json (c : Config) : Value :=
  .object
    [("profile", .text c.profile.name),
      ("trials", planJson c.trials),
      ("concurrency", concurrencyJson c.concurrency),
      ("values", .object
        [("mode", .text c.values.mode.name), ("seed", .integer c.values.seed.toNat)]),
      ("output", .object
        [("text_output", .optional .text (c.output.textOutput.bind RawText.text?)),
          ("json_output", .optional .text (c.output.jsonOutput.bind RawText.text?)),
          ("quiet", .bool c.output.quiet)]),
      ("runtime", .object
        [("debug", .bool c.runtime.debug), ("dry_run", .bool c.runtime.dryRun)])]

theorem value?_optional_path {o : Option RawText} (h : ∀ path, o = some path → path.text?.isSome = true) :
    (Data.optional .path o).value? = some (.optional .text (o.bind RawText.text?)) := by
  cases o with
  | none => rfl
  | some path =>
    obtain ⟨s, hs⟩ := Option.isSome_iff_exists.mp (h path rfl)
    simp [Data.optional, Data.value?, hs, Value.optional]

theorem Config.value?_data {c : Config} (h : c.output.HasTexts) : c.data.value? = some c.json := by
  have htext := value?_optional_path fun path hpath => h path (.inl hpath)
  have hjson := value?_optional_path fun path hpath => h path (.inr hpath)
  simp [data, Data.value?, valueMembers?, htext, hjson, json]

/-- A job with a path that is not a text has no value. -/
theorem Config.value?_data_eq_none {c : Config} (h : ¬ c.output.HasTexts) : c.data.value? = none := by
  simp only [Output.HasTexts, not_forall, Option.not_isSome_iff_eq_none, exists_prop] at h
  obtain ⟨path, hpath, hraw⟩ := h
  have hnone : (Data.optional .path (some path)).value? = none := by
    simp [Data.optional, Data.value?, hraw]
  rcases hpath with hpath | hpath <;> simp [data, Data.value?, valueMembers?, hpath, hnone]

/-! ## Jobs in files -/

/-- A key that always has a value has its default or is read. -/
theorem cases_of_setting {α : Type} {s : Section} {position : Nat} {key : String} {read : Toml.Node → Option α}
    {a default : α} (h : s.setting position key read default = some a) :
    a = default ∨ ∃ n, read n = some a := by
  unfold Section.setting at h
  simp only at h
  split at h
  · exact .inr ⟨_, h⟩
  · exact .inl (Option.some.inj h).symm

theorem exists_of_optional_path {s : Section} {position : Nat} {key : String} {path : RawText}
    (h : s.optional position key path? = some (some path)) : ∃ text, path = .ofText text := by
  unfold Section.optional at h
  split at h <;> split at h <;> simp only [Option.map_eq_some_iff, reduceCtorEq, Option.some.injEq] at h
  all_goals
    obtain ⟨read, hread, rfl⟩ := h
    obtain ⟨text, -, rfl⟩ := Option.map_eq_some_iff.mp hread
    exact ⟨text, rfl⟩

theorem Output.hasTexts_of_section {s : Section} {o : Output} (h : outputOfSection s = some o) :
    o.HasTexts := by
  simp only [outputOfSection, Option.bind_eq_bind, Option.bind_eq_some_iff, Option.pure_def,
    Option.some.injEq] at h
  obtain ⟨textOutput, htext, jsonOutput, hjson, quiet, -, rfl⟩ := h
  rintro path (rfl | rfl)
  · obtain ⟨text, rfl⟩ := exists_of_optional_path htext
    simp
  · obtain ⟨text, rfl⟩ := exists_of_optional_path hjson
    simp

theorem Output.hasTexts_default : ({} : Output).HasTexts := by
  rintro path (hpath | hpath) <;> cases hpath

/-- The paths of a job in a TOML document are texts, since the document is one. -/
theorem Config.hasTexts_of_toml {text : String} {c : Config} (h : Config.ofToml text = .ok c) :
    c.output.HasTexts := by
  obtain ⟨es, -, hc⟩ : ∃ es, Toml.document? text = some es ∧ configOfEntries es = some c := by
    unfold ofToml at h
    split at h
    · next hc =>
      cases h
      simpa [ofDocument?, Option.bind_eq_some_iff] using hc
    · cases h
  simp only [configOfEntries, Option.bind_eq_bind, Option.bind_eq_some_iff, Option.pure_def,
    Option.some.injEq] at hc
  obtain ⟨-, -, -, -, -, -, -, -, output, houtput, -, -, rfl⟩ := hc
  rcases cases_of_setting houtput with rfl | ⟨n, hn⟩
  · exact Output.hasTexts_default
  · obtain ⟨s, -, hs⟩ := Option.bind_eq_some_iff.mp hn
    exact Output.hasTexts_of_section hs

theorem Config.hasTexts_of_propertyFile {path : RawText} {text : String} {c : Config}
    (h : Config.ofPropertyFile path text = .ok c) : c.output.HasTexts := by
  have hdefault : c.output = {} := by
    unfold ofPropertyFile at h
    split at h
    · cases h
    split at h
    · cases h
    · next p _ _ c' hread =>
      cases h
      -- no key of a property file says where reports go
      simp only [ofProperties, Numeric.bind_eq_ok_iff] at hread
      obtain ⟨_, -, _, -, _, -, hread⟩ := hread
      cases hread
      rfl
  rw [hdefault]
  exact Output.hasTexts_default

/-! ## The list of a job -/

/-- The members of a job in the order of their keys. -/
theorem Config.sorted_json (c : Config) : c.json.sorted =
    let k := c.concurrency
    let p := c.trials
    .object
      [("concurrency", .object
        [("flush_every", .integer k.flushEvery), ("freeze", .text k.freeze.name), ("mode", .text k.mode.name),
          ("poll_interval_us", .integer k.pollIntervalMicros),
          ("reader_interval_us", (Value.optional (fun n : Nat => .integer n) k.readerIntervalMicros).sorted),
          ("readers", .integer k.readers),
          ("trial_timeout_secs", (Value.optional (fun n : Nat => .integer n) k.trialTimeoutSeconds).sorted),
          ("writers", .integer k.writers), ("writes_ratio", .double k.writesRatio)]),
      ("output", .object
        [("json_output", (Value.optional .text (c.output.jsonOutput.bind RawText.text?)).sorted),
          ("quiet", .bool c.output.quiet),
          ("text_output", (Value.optional .text (c.output.textOutput.bind RawText.text?)).sorted)]),
      ("profile", .text c.profile.name),
      ("runtime", .object
        [("debug", .bool c.runtime.debug), ("dry_run", .bool c.runtime.dryRun)]),
      ("trials", .object
        [("lg_max_bpu", .integer p.lgSlopeEnd), ("lg_max_t", .integer p.lgMaxTrials),
          ("lg_max_u", .integer p.lgMaxUpdates), ("lg_min_bpu", .integer p.lgSlopeStart),
          ("lg_min_t", .integer p.lgMinTrials), ("lg_min_u", .integer p.lgMinUpdates),
          ("u_ppo", .integer p.perOctave)]),
      ("values", .object
        [("mode", .text c.values.mode.name), ("seed", .integer c.values.seed.toNat)])] := by
  simp only [Config.json, Config.planJson, Config.concurrencyJson, Value.sorted, sortedMembers]
  simp [List.mergeSort, List.MergeSort.Internal.splitInTwo]

section properties

theorem entries_sorted_optional {α : Type} {f : α → Value} {text : α → String}
    (h : ∀ a, (f a).sorted.entries = [([], text a)]) (o : Option α) :
    (Value.optional f o).sorted.entries = (o.map text).toList.map fun t => ([], t) := by
  cases o with
  | none => rfl
  | some a => exact h a

/-- A job whose paths are texts is listed with the fields that are set, as the table has them. -/
theorem Config.properties_eq_fields {c : Config} (h : c.output.HasTexts) :
    c.properties = c.fields.filterMap fun field => field.2.map fun text => (field.1, text) := by
  have htext (o : Option String) :
      (Value.optional .text o).sorted.entries = o.toList.map fun t => ([], t) := by
    rw [entries_sorted_optional fun _ => rfl, Option.map_id']
  have hcount (o : Option Nat) : (Value.optional (fun n : Nat => .integer n) o).sorted.entries =
      (o.map toString).toList.map fun t => ([], t) := entries_sorted_optional (fun _ => rfl) o
  have hflag (b : Bool) : (Value.bool b).compact = toString b := by cases b <;> rfl
  simp only [properties, value?_data h]
  rw [Value.flatten_eq, sorted_json, List.filterMap_eq_flatMap_toList]
  -- both sides are joined from one piece for each field
  simp only [Value.entries, Value.leafText?, memberEntries, htext, hcount, hflag, fields, List.map_append,
    List.map_map, List.nil_append, List.append_assoc, List.append_nil, Option.toList_map,
    List.flatMap_cons, List.flatMap_nil]
  rfl

/-- A job that is read from a file is listed with all that is set in it. -/
theorem Config.properties_of_file {path : RawText} {text : String} {c : Config}
    (h : Config.ofToml text = .ok c ∨ Config.ofPropertyFile path text = .ok c) :
    c.properties = c.fields.filterMap fun field => field.2.map fun text => (field.1, text) :=
  properties_eq_fields (h.elim hasTexts_of_toml hasTexts_of_propertyFile)

/-- Nothing is listed of a job with a path that is not a text. -/
theorem Config.properties_eq_nil {c : Config} (h : ¬ c.output.HasTexts) : c.properties = [] := by
  rw [properties, value?_data_eq_none h]

theorem Config.fields_ascending (c : Config) : (c.fields.map Prod.fst).Pairwise (· < ·) := by
  simp only [fields, List.map_cons, List.map_nil]
  decide

/-- What is listed stands in the order of the table. -/
theorem Config.properties_ascending (c : Config) : (c.properties.map Prod.fst).Pairwise (· < ·) := by
  by_cases h : c.output.HasTexts
  case neg => simp [properties_eq_nil h]
  have hsublist : (c.properties.map Prod.fst).Sublist (c.fields.map Prod.fst) := by
    rw [properties_eq_fields h]
    generalize c.fields = l
    induction l with
    | nil => exact .slnil
    | cons field l ih =>
      obtain ⟨key, _ | text⟩ := field
      · exact ih.cons key
      · exact ih.cons_cons key
  exact c.fields_ascending.sublist hsublist

end properties

/-! ## Flattening -/

/-- Below different keys, none of them empty or with a point, flattening appends one pair for each leaf that is
neither null nor an object, in depth-first order.  Its key is the path to the leaf, and no path is another or
the beginning of another.  So a job is listed with each field that is set and finite, in ascending order,
if its paths are texts, and with nothing if they are not. -/
theorem flattening_lists_every_leaf (c : Config) :
    (∀ (v : Value) (out : List (String × String)), v.Keyed →
      let listed := v.entries.map fun entry => (".".intercalate entry.1, entry.2)
      v.flatten "" out = out ++ listed ∧
      (v.entries.map Prod.fst).Nodup ∧
      (∀ keys text, (keys, text) ∈ v.entries ↔ ∃ leaf, v.At keys leaf ∧ leaf.leafText? = some text) ∧
      (listed.map Prod.fst).Nodup ∧
      ∀ path ∈ listed.map Prod.fst, ∀ path' ∈ listed.map Prod.fst, ∀ rest, path' ≠ path ++ "." ++ rest) ∧
    (c.output.HasTexts →
      c.properties = c.fields.filterMap fun field => field.2.map fun text => (field.1, text)) ∧
    (¬ c.output.HasTexts → c.properties = []) ∧
    (c.properties.map Prod.fst).Pairwise (· < ·) := by
  refine ⟨fun v out hkeyed => ?_, c.properties_eq_fields, c.properties_eq_nil,
    c.properties_ascending⟩
  intro listed
  have hpaths : listed.map Prod.fst = (v.entries.map Prod.fst).map (".".intercalate ·) := by
    rw [List.map_map, List.map_map]
    rfl
  -- all that is said of paths is said of keys first, which can be read off them
  have hkeys : ∀ keys ∈ v.entries.map Prod.fst, ∀ key ∈ keys, key ≠ "" ∧ '.' ∉ key.toList := by
    rintro _ hkeys
    obtain ⟨⟨keys, text⟩, hmem, rfl⟩ := List.mem_map.mp hkeys
    exact hkeyed.keys_of_mem hmem
  refine ⟨?flatten, hkeyed.nodup_entries, v.mem_entries_iff, ?distinct, ?apart⟩
  case flatten =>
    rw [Value.flatten_eq]
    refine congrArg (out ++ ·) (List.map_congr_left fun entry hentry => ?_)
    rw [foldl_memberPath fun key hkey => (hkeys _ (List.mem_map_of_mem hentry) key hkey).1]
  case distinct =>
    rw [hpaths]
    exact hkeyed.nodup_entries.map_on fun keys hk keys' hk' =>
      eq_of_intercalate_eq (hkeys keys hk) (hkeys keys' hk')
  case apart =>
    -- the keys of the longer path would lead on from the leaf at the shorter one
    rw [hpaths]
    intro path hpath path' hpath' rest heq
    obtain ⟨keys, hk, rfl⟩ := List.mem_map.mp hpath
    obtain ⟨keys', hk', rfl⟩ := List.mem_map.mp hpath'
    obtain ⟨hle, hne⟩ := isPrefix_of_intercalate_append (hkeys keys hk) (hkeys keys' hk') heq
    obtain ⟨⟨_, text⟩, hmem, rfl⟩ := List.mem_map.mp hk
    obtain ⟨⟨_, text'⟩, hmem', rfl⟩ := List.mem_map.mp hk'
    exact hne (hkeyed.eq_of_isPrefix hmem hmem' hle)

/-- A value with an object below two keys, of which one goes on like the other. -/
def nested : Value :=
  .object
    [("a", .object [("b", .array [.bool true]), ("c", .object [])]), ("ab", .text "x"), ("b", .null)]

/-- The pairs of `nested` are appended to what is there, and the job in which nothing is set is listed with its
defaults. -/
theorem flattening_lists_every_leaf_nested :
    nested.Keyed ∧
    nested.flatten "" [("kept", "1")] = [("kept", "1"), ("a.b", "[true]"), ("ab", "x")] ∧
    ({} : Config).output.HasTexts ∧ ("values.mode", "sequential") ∈ ({} : Config).properties := by
  have hkeyed : nested.Keyed := by
    simp [nested, Value.keyed_object_iff, Value.keyed_of_leaf]
  have htexts : ({} : Config).output.HasTexts := Output.hasTexts_default
  obtain ⟨hflatten, hlisted, -⟩ := flattening_lists_every_leaf {}
  refine ⟨hkeyed, (hflatten nested _ hkeyed).1, htexts, ?_⟩
  rw [hlisted htexts, List.mem_filterMap]
  exact ⟨("values.mode", some "sequential"), by simp [Config.fields]; rfl, rfl⟩

/-- A path with a byte in it that no text has, and a slash at its end. -/
def rawPath : RawText := ⟨[0x72, 0xFF, 0x2F]⟩

/-- Nothing is listed of the job that asks for a JSON report at a path which is not a text, although the job
is in order and most of its fields are set. -/
theorem job_with_raw_path_is_not_listed :
    ∃ a, Arguments.read [.ofText "--json-output", rawPath] none = .ok a ∧
      let c := a.applyTo {};
      c.fault? = none ∧ ("profile", some "multithreaded") ∈ c.fields ∧ c.properties = [] := by
  have hraw : rawPath.text? = none := by decide +kernel
  refine ⟨{ jsonOutput := some rawPath }, rfl, rfl, by simp [Config.fields]; rfl, ?_⟩
  refine Config.properties_eq_nil fun h => ?_
  have hset := h rawPath (.inr rfl)
  rw [hraw] at hset
  cases hset

end SpeedTrial.Job
