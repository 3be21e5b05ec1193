import SpeedTrial.Estimator.Table

/-!
# The cardinality estimator

An estimator counts distinct words in bounded space.  As long as it holds few codes it keeps
them in a list, in the order of insertion, and its estimate is their number; when one more
than fits comes in, all go into a register table.

* `Estimator.insert` enters a word, `Estimator.merge` another estimator.
* `Estimator.estimate` is the estimated number of distinct words.
* `Estimator.expanded` is the register contents that an estimator stands for, whichever form
  it has.
-/

namespace SpeedTrial

/-- A cardinality estimator. -/
inductive Estimator where
  /-- The distinct codes inserted so far, oldest first. -/
  | listed (codes : List Nat)
  /-- The registers. -/
  | tabled (table : Estimator.Table)

namespace Estimator

/-- The most codes that are kept in a list. -/
def listLimit : Nat := 128

/-- The estimator without any word in it. -/
def empty : Estimator := .listed []

instance : Inhabited Estimator := ⟨empty⟩

/-- Enters a code. -/
def insertCode (e : Estimator) (code : Nat) : Estimator :=
  match e with
  | .listed codes =>
    if codes.contains code then .listed codes
    else if codes.length < listLimit then .listed (codes ++ [code])
    else .tabled ((codes.foldl Table.add Table.empty).add code)
  | .tabled t => .tabled (t.add code)

/-- Enters a word. -/
def insert (e : Estimator) (v : UInt64) : Estimator := e.insertCode (code v)

/-- Enters every word of a list in its order. -/
def insertAll (e : Estimator) (vs : List UInt64) : Estimator := vs.foldl insert e

/-- Enters all that another estimator has seen.  Codes are entered in their order; of two
tables the first takes the larger ranks; and a table takes the place of a list, whose codes
then go into it. -/
def merge (e other : Estimator) : Estimator :=
  match other, e with
  | .listed codes, e => codes.foldl insertCode e
  | .tabled s, .tabled t => .tabled (t.join s)
  | .tabled s, .listed codes => .tabled (codes.foldl Table.add s)

/-- The estimated number of distinct words. -/
def estimate : Estimator → Nat
  | .listed codes => codes.length
  | .tabled t => t.estimate

/-- The rank in one register that an estimator stands for. -/
def expanded (e : Estimator) (i : Nat) : Nat :=
  match e with
  | .listed codes => ((codes.filter (register · = i)).map rank).foldl max 0
  | .tabled t => t.ranks.toArray.getD i 0

end Estimator

end SpeedTrial
