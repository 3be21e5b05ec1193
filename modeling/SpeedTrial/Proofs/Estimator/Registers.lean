import SpeedTrial.Estimator.Basic
import Mathlib.Data.Multiset.Lattice
import Mathlib.Data.Finset.Card
import Mathlib.Order.Lattice.Nat

/-!
# What an estimator knows of its words

An estimator forgets in which order words came, and from where.  Its expanded registers are the
largest ranks of the codes that went into it, whether one by one or through another estimator, and
whatever form it had on the way.  As long as it has seen no more distinct codes than fit into its
list, it knows their number.

* `expanded_insertCode` and `expanded_merge`: both ways in are the maximum, register by register.
* `Form.insertCode` and `Form.merge`: the form of an estimator is decided by the distinct codes.
-/

namespace SpeedTrial.Estimator

/-- The rank of a code in a register: zero in all but its own. -/
def rankIn (r code : Nat) : Nat := if register code = r then rank code else 0

/-! ## Tables -/

namespace Table

variable (t s : Table) (r : Nat)

/-- The rank in a register; zero beyond the last. -/
def rankAt : Nat := t.ranks.toArray.getD r 0

theorem rankAt_of_lt {r : Nat} (h : r < registerCount) : t.rankAt r = t.ranks[r] := by
  simp [rankAt, h]

@[simp] theorem rankAt_empty : empty.rankAt r = 0 := by
  by_cases h : r < registerCount
  · rw [rankAt_of_lt _ h]
    simp [empty]
  · simp [rankAt, empty, h]

/-- A register that is raised takes the larger rank, and the others stay. -/
theorem rankAt_raise {i : Nat} (h : i < registerCount) (k : Nat) :
    (t.raise i h k).rankAt r = if r = i then max (t.rankAt r) k else t.rankAt r := by
  by_cases hr : r < registerCount
  · rw [rankAt_of_lt _ hr, rankAt_of_lt _ hr]
    simp only [raise]
    by_cases hi : r = i
    · subst hi
      by_cases hlt : t.ranks[r] < k
      · simp [hlt, Nat.le_of_lt hlt]
      · simp [hlt, Nat.le_of_not_lt hlt]
    · have hi' : i ≠ r := Ne.symm hi
      by_cases hlt : t.ranks[i] < k <;> simp [hlt, hi, hi']
  · -- there is no such register
    have hne : r ≠ i := by omega
    rw [if_neg hne]
    simp [rankAt, hr]

@[simp] theorem rankAt_add (code : Nat) :
    (t.add code).rankAt r = max (t.rankAt r) (rankIn r code) := by
  rw [add, rankAt_raise]
  by_cases hr : r = register code
  · simp [hr, rankIn]
  · have hr' : register code ≠ r := Ne.symm hr
    simp [hr, hr', rankIn]

theorem rankAt_foldl_add (codes : List Nat) :
    (codes.foldl add t).rankAt r = max (t.rankAt r) ((codes : Multiset Nat).map (rankIn r)).sup := by
  induction codes generalizing t with
  | nil => simp
  | cons code codes ih =>
    rw [List.foldl_cons, ih, rankAt_add, ← Multiset.cons_coe, Multiset.map_cons,
      Multiset.sup_cons, max_assoc]

/-- Registers are raised one by one, from the first to the last. -/
theorem rankAt_join : (t.join s).rankAt r = max (t.rankAt r) (s.rankAt r) := by
  -- after `n` steps the registers below `n` are raised, and no others
  have hupto : ∀ n ≤ registerCount,
      ((List.range n).foldl (fun t i => if h : i < registerCount then t.raise i h s.ranks[i] else t)
        t).rankAt r = if r < n then max (t.rankAt r) (s.rankAt r) else t.rankAt r := by
    intro n hn
    induction n with
    | zero => simp
    | succ n ih =>
      have hlt : n < registerCount := hn
      rw [List.range_succ, List.foldl_append, List.foldl_cons, List.foldl_nil, dif_pos hlt,
        rankAt_raise, ih (Nat.le_of_lt hlt)]
      by_cases hr : r = n
      · subst hr
        simp [rankAt_of_lt s hlt]
      · have hiff : r < n ↔ r < n + 1 := by omega
        simp [hr, hiff]
  rw [join, hupto registerCount (Nat.le_refl _)]
  by_cases hr : r < registerCount
  · rw [if_pos hr]
  · simp [rankAt, hr]

end Table

/-! ## Registers -/

variable (e : Estimator) (r : Nat)

theorem expanded_listed (codes : List Nat) :
    (Estimator.listed codes).expanded r = ((codes : Multiset Nat).map (rankIn r)).sup := by
  -- the largest rank of a list that is gone through, for any rank to begin with
  have hfold : ∀ a, ((codes.filter (register · = r)).map rank).foldl max a =
      max a ((codes : Multiset Nat).map (rankIn r)).sup := by
    intro a
    induction codes generalizing a with
    | nil => simp
    | cons code codes ih =>
      rw [← Multiset.cons_coe, Multiset.map_cons, Multiset.sup_cons]
      by_cases h : register code = r <;> simp [h, rankIn, ih, max_assoc]
  rw [expanded, hfold]
  simp

@[simp] theorem expanded_empty : empty.expanded r = 0 := rfl

/-- A code that is entered raises its register. -/
theorem expanded_insertCode (code : Nat) :
    (e.insertCode code).expanded r = max (e.expanded r) (rankIn r code) := by
  cases e with
  | tabled t => exact t.rankAt_add r code
  | listed codes =>
    rw [expanded_listed]
    unfold insertCode
    by_cases hmem : codes.contains code = true
    · -- its rank counts already
      have hle : rankIn r code ≤ ((codes : Multiset Nat).map (rankIn r)).sup := by
        apply Multiset.le_sup
        exact Multiset.mem_map_of_mem _ (by simpa using hmem)
      simp only [hmem, if_true, expanded_listed]
      exact (max_eq_left hle).symm
    · by_cases hlen : codes.length < listLimit
      · simp only [hmem, hlen, Bool.false_eq_true, if_false, if_true]
        rw [expanded_listed, ← Multiset.coe_add, Multiset.map_add, Multiset.sup_add]
        simp
      · -- the list goes into a table, and the code after it
        simp only [hmem, hlen, Bool.false_eq_true, if_false]
        show (((codes.foldl Table.add Table.empty).add code).rankAt r) = _
        rw [Table.rankAt_add, Table.rankAt_foldl_add, Table.rankAt_empty, Nat.zero_max]

theorem expanded_foldl_insertCode (codes : List Nat) :
    (codes.foldl insertCode e).expanded r =
      max (e.expanded r) ((codes : Multiset Nat).map (rankIn r)).sup := by
  induction codes generalizing e with
  | nil => simp
  | cons code codes ih =>
    rw [List.foldl_cons, ih, expanded_insertCode, ← Multiset.cons_coe, Multiset.map_cons,
      Multiset.sup_cons, max_assoc]

/-- An estimator that is merged raises each register to its own. -/
theorem expanded_merge (e' : Estimator) :
    (e.merge e').expanded r = max (e.expanded r) (e'.expanded r) := by
  cases e' with
  | listed codes =>
    rw [expanded_listed, ← expanded_foldl_insertCode]
    cases e <;> rfl
  | tabled s =>
    cases e with
    | tabled t => exact t.rankAt_join s r
    | listed codes =>
      -- the table takes the place of the list
      rw [expanded_listed, max_comm]
      exact s.rankAt_foldl_add r codes

/-! ## Forms -/

/-- The form of an estimator that has seen these codes: a list of them if they fit into one. -/
def Form (seen : Finset Nat) : Estimator → Prop
  | .listed codes => codes.Nodup ∧ codes.toFinset = seen ∧ codes.length ≤ listLimit
  | .tabled _ => listLimit < seen.card

namespace Form

variable {e : Estimator} {seen : Finset Nat}

theorem empty : Estimator.empty.Form ∅ := ⟨List.nodup_nil, rfl, Nat.zero_le _⟩

theorem insertCode (hf : e.Form seen) (code : Nat) : (e.insertCode code).Form (seen ∪ {code}) := by
  cases e with
  | tabled t => exact Nat.lt_of_lt_of_le hf (Finset.card_le_card Finset.subset_union_left)
  | listed codes =>
    obtain ⟨hnd, rfl, hle⟩ := hf
    unfold Estimator.insertCode
    by_cases hmem : code ∈ codes
    · -- nothing new was seen
      have hsame : codes.toFinset ∪ {code} = codes.toFinset :=
        Finset.union_eq_left.mpr (by simpa using hmem)
      simpa [hmem, hsame, Form] using ⟨hnd, hle⟩
    · by_cases hlen : codes.length < listLimit
      · simp only [List.contains_eq_mem, hmem, decide_false, Bool.false_eq_true, if_false, hlen,
          if_true, Form]
        refine ⟨?_, by simp, by simp; omega⟩
        exact List.nodup_append_comm.mp (List.nodup_cons.mpr ⟨hmem, hnd⟩)
      · -- one code more than fits into a list
        have hdisj : Disjoint codes.toFinset {code} := by simpa using hmem
        simp only [List.contains_eq_mem, hmem, decide_false, Bool.false_eq_true, if_false, hlen, Form]
        -- what was seen has one element more than the list had
        rw [Finset.card_union_of_disjoint hdisj, List.toFinset_card_of_nodup hnd,
          Finset.card_singleton]
        omega

theorem foldl_insertCode (hf : e.Form seen) (codes : List Nat) :
    (codes.foldl Estimator.insertCode e).Form (seen ∪ codes.toFinset) := by
  induction codes generalizing e seen with
  | nil => simpa using hf
  | cons code codes ih =>
    have hnext := ih (hf.insertCode code)
    rwa [Finset.union_assoc, ← Finset.insert_eq, ← List.toFinset_cons] at hnext

theorem merge {e' : Estimator} {seen' : Finset Nat} (hf : e.Form seen) (hf' : e'.Form seen') :
    (e.merge e').Form (seen ∪ seen') := by
  cases e' with
  | listed codes =>
    obtain ⟨-, rfl, -⟩ := hf'
    have hfold := hf.foldl_insertCode codes
    cases e <;> exact hfold
  | tabled s =>
    -- a table has seen more codes than fit into a list, and goes on to have
    have hlt : listLimit < (seen ∪ seen').card :=
      Nat.lt_of_lt_of_le hf' (Finset.card_le_card Finset.subset_union_right)
    cases e <;> exact hlt

/-- The estimate is exact as long as the codes fit into a list. -/
theorem estimate_eq (hf : e.Form seen) (hle : seen.card ≤ listLimit) : e.estimate = seen.card := by
  cases e with
  | listed codes =>
    obtain ⟨hnd, rfl, -⟩ := hf
    exact (List.toFinset_card_of_nodup hnd).symm
  | tabled t => exact absurd hle (Nat.not_le_of_lt hf)

end Form

end SpeedTrial.Estimator
