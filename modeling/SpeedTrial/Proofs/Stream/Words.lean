import SpeedTrial.Stream.Basic
import Mathlib.Data.List.Basic

/-!
# What a supply hands out

`Supply.words` are the first words of a supply and `Supply.after` is what it is after them, both
taken from the end, as a writer that goes on meets them.
-/

namespace SpeedTrial.Stream.Supply

variable {V : Type} [Supply V]

/-- The next `n` words. -/
def words (n : Nat) (v : V) : List UInt64 := (take n v).1

/-- The supply after `n` words. -/
def after (n : Nat) (v : V) : V := (take n v).2

variable (n : Nat) (v : V)

@[simp] theorem words_zero : words 0 v = [] := rfl

@[simp] theorem after_zero : after 0 v = v := rfl

theorem words_cons : words (n + 1) v = (next v).1 :: words n (next v).2 := rfl

theorem after_cons : after (n + 1) v = after n (next v).2 := rfl

theorem after_succ : after (n + 1) v = (next (after n v)).2 := by
  induction n generalizing v with
  | zero => rfl
  | succ n ih => rw [after_cons, ih, after_cons]

theorem words_succ : words (n + 1) v = words n v ++ [(next (after n v)).1] := by
  induction n generalizing v with
  | zero => rfl
  | succ n ih => rw [words_cons, ih, words_cons, after_cons, List.cons_append]

@[simp] theorem length_words : (words n v).length = n := by
  induction n generalizing v with
  | zero => rfl
  | succ n ih => rw [words_cons, List.length_cons, ih]

@[simp] theorem drop_words : (words n v).drop n = [] := List.drop_eq_nil_of_le (by simp)

/-- The first of the first words. -/
theorem take_words {k : Nat} (hk : k ≤ n) : (words n v).take k = words k v := by
  induction k generalizing n v with
  | zero => rfl
  | succ k ih =>
    obtain ⟨n, rfl⟩ := Nat.exists_eq_succ_of_ne_zero (by omega : n ≠ 0)
    rw [words_cons, words_cons, List.take_succ_cons, ih n _ (by omega)]

end SpeedTrial.Stream.Supply
