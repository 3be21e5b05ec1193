import SpeedTrial.Json
import Mathlib.Data.List.Nodup
import Mathlib.Data.List.Flatten

/-!
# The leaves of a JSON value

A value is a tree whose branches are named by keys, so that a leaf is known by the keys that lead to it.  The
list of leaves names each by its path, the keys with a point between two of them.  As long as no key is empty
or has a point in it, nothing is lost by this: the keys can be read off the path again.

* `Value.At` says which value is found below some keys, and `Value.entries` are the leaves in order.
* `Value.flatten_eq` says that flattening appends the entries, each at its path.
* `eq_of_intercalate_eq` and `isPrefix_of_intercalate_append` are what a path tells about its keys.
-/

namespace SpeedTrial.Json

/-! ## Induction on values -/

mutual

/-- What holds of all values but objects, and of an object if it holds of its members, holds of every value. -/
@[elab_as_elim]
theorem Value.inductionOn {P : Value → Prop} (leaf : ∀ v, (∀ ms, v ≠ .object ms) → P v)
    (object : ∀ ms, (∀ m ∈ ms, P m.2) → P (.object ms)) : ∀ v : Value, P v
  | .object ms => object ms (forall_members leaf object ms)
  | .null => leaf _ nofun
  | .bool _ => leaf _ nofun
  | .integer _ => leaf _ nofun
  | .double _ => leaf _ nofun
  | .text _ => leaf _ nofun
  | .array _ => leaf _ nofun

theorem forall_members {P : Value → Prop} (leaf : ∀ v, (∀ ms, v ≠ .object ms) → P v)
    (object : ∀ ms, (∀ m ∈ ms, P m.2) → P (.object ms)) : ∀ ms : List (String × Value), ∀ m ∈ ms, P m.2
  | [], _, h => absurd h List.not_mem_nil
  | (_, v) :: ms, m, h => by
    rcases List.mem_cons.mp h with rfl | hm
    · exact Value.inductionOn leaf object v
    · exact forall_members leaf object ms m hm

end

/-! ## Leaves -/

/-- The second value is found in the first below these keys. -/
inductive Value.At : Value → List String → Value → Prop where
  | here (v : Value) : At v [] v
  | member {ms : List (String × Value)} {key : String} {v : Value} {keys : List String} {w : Value} :
      (key, v) ∈ ms → At v keys w → At (.object ms) (key :: keys) w

/-- Every object that is found in the value has members with different keys, and these can stand in a path. -/
def Value.Keyed (v : Value) : Prop :=
  ∀ keys ms, v.At keys (.object ms) →
    (ms.map Prod.fst).Nodup ∧ ∀ m ∈ ms, m.1 ≠ "" ∧ '.' ∉ m.1.toList

/-- What a leaf is listed with.  Null is no leaf, and neither is an object; what is not a finite number is
null. -/
def Value.leafText? : Value → Option String
  | .null => none
  | .object _ => none
  | .text s => some s
  | .double x => if x.isFinite then some (doubleText x) else none
  | v => some v.compact

mutual

/-- The leaves of a value, first those of its first member, each with the keys that lead to it. -/
def Value.entries : Value → List (List String × String)
  | .object ms => memberEntries ms
  | v => v.leafText?.toList.map fun text => ([], text)

/-- The leaves of the members of an object. -/
def memberEntries : List (String × Value) → List (List String × String)
  | [] => []
  | (k, v) :: ms => (v.entries.map fun e => (k :: e.1, e.2)) ++ memberEntries ms

end

section entries

variable {v w : Value} {ms : List (String × Value)} {keys : List String}

theorem Value.entries_of_leaf (h : ∀ ms, v ≠ .object ms) :
    v.entries = v.leafText?.toList.map fun text => ([], text) := by
  cases v with
  | object ms => exact absurd rfl (h ms)
  | _ => rfl

theorem Value.entries_object (ms : List (String × Value)) :
    (Value.object ms).entries = ms.flatMap fun m => m.2.entries.map fun e => (m.1 :: e.1, e.2) := by
  show memberEntries ms = _
  induction ms with
  | nil => rfl
  | cons m ms ih => rw [List.flatMap_cons, ← ih]; rfl

theorem Value.Keyed.member (h : (Value.object ms).Keyed) {m : String × Value} (hm : m ∈ ms) : m.2.Keyed :=
  fun keys ms' hat => h (m.1 :: keys) ms' (.member hm hat)

theorem Value.at_iff_of_leaf (h : ∀ ms, v ≠ .object ms) : v.At keys w ↔ keys = [] ∧ v = w := by
  constructor
  · rintro (_ | _)
    · exact ⟨rfl, rfl⟩
    · exact absurd rfl (h _)
  · rintro ⟨rfl, rfl⟩
    exact .here v

theorem Value.keyed_of_leaf (h : ∀ ms, v ≠ .object ms) : v.Keyed :=
  fun _ ms hat => absurd ((at_iff_of_leaf h).mp hat).2 (h ms)

theorem Value.keyed_object_iff : (Value.object ms).Keyed ↔
    (ms.map Prod.fst).Nodup ∧ ∀ m ∈ ms, (m.1 ≠ "" ∧ '.' ∉ m.1.toList) ∧ m.2.Keyed := by
  constructor
  · intro h
    obtain ⟨hkeys, hstand⟩ := h [] ms (.here _)
    exact ⟨hkeys, fun m hm => ⟨hstand m hm, h.member hm⟩⟩
  · -- an object that is found deeper down is found in a member
    rintro ⟨hkeys, hmembers⟩ keys ms' hat
    cases hat with
    | here => exact ⟨hkeys, fun m hm => (hmembers m hm).1⟩
    | member hm hat => exact (hmembers _ hm).2 _ ms' hat

/-- The entries are the leaves that are listed. -/
theorem Value.mem_entries_iff (v : Value) (keys : List String) (text : String) :
    (keys, text) ∈ v.entries ↔ ∃ w, v.At keys w ∧ w.leafText? = some text := by
  induction v using Value.inductionOn generalizing keys with
  | leaf v h =>
    rw [entries_of_leaf h]
    simp [at_iff_of_leaf h, and_comm, eq_comm]
  | object ms ih =>
    rw [entries_object, List.mem_flatMap]
    constructor
    · -- an entry of a member leads to its leaf through that member
      rintro ⟨m, hm, hmem⟩
      obtain ⟨⟨keys', text'⟩, hentry, heq⟩ := List.mem_map.mp hmem
      obtain ⟨rfl, rfl⟩ := Prod.mk.inj heq
      obtain ⟨w, hat, htext⟩ := (ih m hm keys').mp hentry
      exact ⟨w, .member hm hat, htext⟩
    · -- and what is found below a key is found in the member with that key
      rintro ⟨w, hat, htext⟩
      cases hat with
      | here => cases htext
      | @member _ key v keys' _ hm hat =>
        exact ⟨(key, v), hm, List.mem_map.mpr ⟨(keys', text), (ih _ hm keys').mpr ⟨w, hat, htext⟩, rfl⟩⟩

/-- No two entries have the same keys. -/
theorem Value.Keyed.nodup_entries (h : v.Keyed) : (v.entries.map Prod.fst).Nodup := by
  induction v using Value.inductionOn with
  | leaf v hleaf =>
    rw [entries_of_leaf hleaf]
    cases v.leafText? <;> simp
  | object ms ih =>
    obtain ⟨hkeys, -⟩ := h [] ms (.here _)
    rw [entries_object, List.map_flatMap, List.nodup_flatMap]
    constructor
    · -- the entries of one member differ behind its key
      intro m hm
      have hmap : (m.2.entries.map fun e => (m.1 :: e.1, e.2)).map Prod.fst =
          (m.2.entries.map Prod.fst).map (m.1 :: ·) := by
        rw [List.map_map, List.map_map]
        rfl
      rw [hmap]
      exact (ih m hm (h.member hm)).map (List.cons_injective)
    · -- the first keys are different
      refine (List.pairwise_map.mp hkeys).imp fun {m m'} hne keys hk hk' => ?_
      simp only [List.map_map, List.mem_map, Function.comp_apply] at hk hk'
      obtain ⟨e, -, rfl⟩ := hk
      obtain ⟨e', -, heq⟩ := hk'
      exact hne (List.cons.inj heq).1.symm

/-- What is found below more keys is found below those that are more. -/
theorem Value.Keyed.at_of_at_append {u : Value} {more : List String} (h : v.Keyed) (hw : v.At keys w)
    (hu : v.At (keys ++ more) u) : w.At more u := by
  induction hw with
  -- by induction on the way to the first of the two
  | here v => exact hu
  | @member ms key v keys w hm _ ih =>
    cases hu with
    | @member _ _ v' _ _ hm' hu =>
      -- both ways go through one member, since no other has its key
      obtain ⟨hkeys, -⟩ := h [] ms (.here _)
      have hsame : (key, v) = (key, v') := List.inj_on_of_nodup_map hkeys hm hm' rfl
      obtain ⟨-, rfl⟩ := Prod.mk.inj hsame
      exact ih (h.member hm) hu

/-- The keys of an entry do not lead on to another entry. -/
theorem Value.Keyed.eq_of_isPrefix {keys' : List String} {text text' : String} (h : v.Keyed)
    (hmem : (keys, text) ∈ v.entries) (hmem' : (keys', text') ∈ v.entries) (hle : keys <+: keys') :
    keys = keys' := by
  obtain ⟨more, rfl⟩ := hle
  obtain ⟨w, hw, htext⟩ := (mem_entries_iff v _ _).mp hmem
  obtain ⟨u, hu, -⟩ := (mem_entries_iff v _ _).mp hmem'
  cases h.at_of_at_append hw hu with
  | here => rw [List.append_nil]
  | member => cases htext

/-- The keys of an entry can stand in a path. -/
theorem Value.Keyed.keys_of_mem {text : String} (h : v.Keyed) (hmem : (keys, text) ∈ v.entries) :
    ∀ key ∈ keys, key ≠ "" ∧ '.' ∉ key.toList := by
  obtain ⟨w, hw, -⟩ := (mem_entries_iff v _ _).mp hmem
  clear hmem
  -- by induction on the way to the leaf
  induction hw with
  | here => exact fun _ hkey => absurd hkey List.not_mem_nil
  | @member ms key v keys w hm _ ih =>
    exact List.forall_mem_cons.mpr ⟨(h [] ms (.here _)).2 _ hm, ih (h.member hm)⟩

end entries

/-! ## Flattening -/

section flatten

mutual

/-- Flattening appends the entries, each at its path. -/
theorem Value.flatten_eq (path : String) : ∀ (v : Value) (out : List (String × String)), v.flatten path out =
    out ++ v.entries.map fun e => (e.1.foldl memberPath path, e.2)
  | .object ms, out => flattenMembers_eq path ms out
  | .null, out => (List.append_nil out).symm
  | .text _, _ => rfl
  | .bool _, _ => rfl
  | .integer _, _ => rfl
  | .array _, _ => rfl
  | .double x, out => by
    simp only [Value.flatten, Value.entries, Value.leafText?]
    split
    · rfl
    · exact (List.append_nil out).symm

theorem flattenMembers_eq (path : String) : ∀ (ms : List (String × Value)) (out : List (String × String)),
    flattenMembers path ms out = out ++ (memberEntries ms).map fun e => (e.1.foldl memberPath path, e.2)
  | [], out => (List.append_nil out).symm
  | (k, v) :: ms, out => by
    -- the first member is listed before the others, each below its own path
    rw [flattenMembers, v.flatten_eq (memberPath path k), flattenMembers_eq path ms, memberEntries,
      List.map_append, List.map_map, List.append_assoc]
    rfl

end

/-- The path of some keys has a point between two of them, if none is empty. -/
theorem foldl_memberPath {keys : List String} (h : ∀ key ∈ keys, key ≠ "") :
    keys.foldl memberPath "" = ".".intercalate keys := by
  -- behind a path that is not empty every key comes after a point
  have hgo {path : String} (hpath : path ≠ "") (keys : List String) :
      keys.foldl memberPath path = ".".intercalate (path :: keys) := by
    induction keys generalizing path with
    | nil => rfl
    | cons key keys ih =>
      have hmember : memberPath path key = path ++ "." ++ key := if_neg (by simpa using hpath)
      have hne : memberPath path key ≠ "" := by
        rw [hmember]
        simp
      rw [List.foldl_cons, ih hne, hmember]
      rfl
  cases keys with
  | nil => rfl
  | cons key keys => exact hgo (h key List.mem_cons_self) keys

end flatten

/-! ## Paths -/

section paths

variable {keys keys' : List String}

theorem splitOn_append_point {key : String} (h : '.' ∉ key.toList) (rest : String) :
    (key ++ "." ++ rest).toList.splitOn '.' = key.toList :: rest.toList.splitOn '.' := by
  have hchars : (key ++ "." ++ rest).toList = key.toList ++ '.' :: rest.toList := by
    simp [String.toList_append]
  have hpointless : ∀ c ∈ key.toList, (c == '.') = false :=
    fun c hc => beq_eq_false_iff_ne.mpr fun heq => h (heq ▸ hc)
  rw [hchars]
  exact List.splitOnP_append_cons_of_forall_mem hpointless '.' (beq_self_eq_true '.') _

/-- The keys can be read off a path. -/
theorem splitOn_path (hne : keys ≠ []) (h : ∀ key ∈ keys, '.' ∉ key.toList) :
    (".".intercalate keys).toList.splitOn '.' = keys.map String.toList := by
  rw [String.toList_intercalate]
  refine List.splitOn_intercalate '.' (fun cs hcs => ?_) (by simpa using hne)
  obtain ⟨key, hkey, rfl⟩ := List.mem_map.mp hcs
  exact h key hkey

/-- So they can, whatever follows after another point. -/
theorem splitOn_path_append (hne : keys ≠ []) (h : ∀ key ∈ keys, '.' ∉ key.toList) (rest : String) :
    (".".intercalate keys ++ "." ++ rest).toList.splitOn '.' =
      keys.map String.toList ++ rest.toList.splitOn '.' := by
  induction keys with
  | nil => exact absurd rfl hne
  | cons key keys ih =>
    obtain ⟨hkey, hkeys⟩ := List.forall_mem_cons.mp h
    by_cases hnil : keys = []
    · subst hnil
      simpa using splitOn_append_point hkey rest
    · -- the first key is cut off, and what remains is the path of the others
      have hassoc : ".".intercalate (key :: keys) ++ "." ++ rest =
          key ++ "." ++ (".".intercalate keys ++ "." ++ rest) := by
        rw [String.intercalate_cons_of_ne_nil hnil]
        simp only [String.append_assoc]
      rw [hassoc, splitOn_append_point hkey, ih hnil hkeys]
      rfl

theorem map_toList_injective : Function.Injective (List.map String.toList) :=
  List.map_injective_iff.mpr fun _ _ => String.toList_inj.mp

variable (h : ∀ key ∈ keys, key ≠ "" ∧ '.' ∉ key.toList) (h' : ∀ key ∈ keys', key ≠ "" ∧ '.' ∉ key.toList)

theorem intercalate_eq_empty_iff (h : ∀ key ∈ keys, key ≠ "") : ".".intercalate keys = "" ↔ keys = [] := by
  cases keys with
  | nil => simp
  | cons key keys =>
    have hkey := h key List.mem_cons_self
    cases keys <;> simp [hkey]

include h h'

/-- Different keys have different paths. -/
theorem eq_of_intercalate_eq (heq : ".".intercalate keys = ".".intercalate keys') : keys = keys' := by
  -- no keys have an empty path, and any other path can be split at its points
  have hempty := intercalate_eq_empty_iff fun key hkey => (h key hkey).1
  have hempty' := intercalate_eq_empty_iff fun key hkey => (h' key hkey).1
  by_cases hnil : keys = []
  · rw [hnil, hempty'.mp (heq ▸ hempty.mpr hnil)]
  · have hnil' : keys' ≠ [] := fun hnil' => hnil (hempty.mp (heq.trans (hempty'.mpr hnil')))
    apply map_toList_injective
    rw [← splitOn_path hnil fun key hkey => (h key hkey).2, heq,
      splitOn_path hnil' fun key hkey => (h' key hkey).2]

/-- A path goes on behind a point only if there are more keys. -/
theorem isPrefix_of_intercalate_append {rest : String}
    (heq : ".".intercalate keys' = ".".intercalate keys ++ "." ++ rest) : keys <+: keys' ∧ keys ≠ keys' := by
  have hne : ".".intercalate keys' ≠ "" := by
    rw [heq]
    simp
  have hnil' : keys' ≠ [] := fun hnil => hne (by rw [hnil]; rfl)
  have hsplit := congrArg (fun s => s.toList.splitOn '.') heq
  simp only [splitOn_path hnil' fun key hkey => (h' key hkey).2] at hsplit
  by_cases hnil : keys = []
  · exact ⟨hnil ▸ List.nil_prefix, hnil ▸ hnil'.symm⟩
  · -- cut at its points, the longer path begins with all of `keys`, and at least one piece follows
    rw [splitOn_path_append hnil fun key hkey => (h key hkey).2] at hsplit
    have hproper : keys.map String.toList ≠ keys'.map String.toList := by
      rw [hsplit, ne_eq, List.self_eq_append_right]
      exact List.splitOn_ne_nil '.' _
    refine ⟨?_, fun heq => hproper (by rw [heq])⟩
    rw [← List.prefix_map_iff_of_injective (fun _ _ => String.toList_inj.mp), hsplit]
    exact List.prefix_append _ _

end paths

end SpeedTrial.Json
