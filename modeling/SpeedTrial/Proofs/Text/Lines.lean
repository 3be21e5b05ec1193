import SpeedTrial.Text.Blank
import Mathlib.Data.List.TakeWhile
import Mathlib.Data.String.Basic

/-!
# The lines of two texts with a line feed between them

A line feed between two texts ends the last line of the first one, so that their lines are read one
after the other.  Two things change at the seam: a carriage return at the end of the first text is
dropped, and a first text that ends with a line feed gets one more line, an empty one.

* `lines_append`: the lines of the two texts, by the pieces of the first one.
* `lines_eq`: the lines of one text, by its pieces.
* `trimmed_append`: blanks at the end make no difference to what is left of a line.
-/

namespace SpeedTrial.Text

/-! ## Pieces -/

theorem pieces_ne_nil (separator : Char) (cs : List Char) : pieces separator cs ≠ [] := by
  unfold pieces
  split
  · simp
  · split
    · simp
    · split <;> simp

theorem pieces_cons_of_ne {separator c : Char} (hc : c ≠ separator) {cs p : List Char}
    {ps : List (List Char)} (hp : pieces separator cs = p :: ps) :
    pieces separator (c :: cs) = (c :: p) :: ps := by
  rw [pieces, if_neg hc, hp]

theorem pieces_append (separator : Char) (as bs : List Char) :
    pieces separator (as ++ separator :: bs) = pieces separator as ++ pieces separator bs := by
  induction as with
  | nil => simp [pieces]
  | cons c as ih =>
    by_cases hc : c = separator
    · simp [pieces, hc, ih]
    · -- the character belongs to the first piece, and there is one
      obtain ⟨p, ps, hp⟩ := List.exists_cons_of_ne_nil (pieces_ne_nil separator as)
      rw [hp, List.cons_append] at ih
      rw [List.cons_append, pieces_cons_of_ne hc ih, pieces_cons_of_ne hc hp, List.cons_append]

theorem length_pieces (separator : Char) (cs : List Char) :
    (pieces separator cs).length = cs.count separator + 1 := by
  induction cs with
  | nil => rfl
  | cons c cs ih =>
    by_cases hc : c = separator
    · simp [pieces, hc, ih]
    · obtain ⟨p, ps, hp⟩ := List.exists_cons_of_ne_nil (pieces_ne_nil separator cs)
      rw [pieces_cons_of_ne hc hp, List.count_cons_of_ne hc, ← ih, hp]
      rfl

/-! ## Lines -/

theorem endedLines_append (ps : List (List Char)) {qs : List (List Char)} (hqs : qs ≠ []) :
    endedLines (ps ++ qs) = ps.map withoutReturn ++ endedLines qs := by
  induction ps with
  | nil => rfl
  | cons p ps ih =>
    obtain ⟨q, rest, hrest⟩ :=
      List.exists_cons_of_ne_nil (List.append_ne_nil_of_right_ne_nil ps hqs)
    rw [hrest] at ih
    rw [List.cons_append, hrest, endedLines, ih, List.map_cons, List.cons_append]
    simp

/-- A line feed ends every piece of the text before it. -/
theorem lines_append (as bs : List Char) :
    lines (as ++ '\n' :: bs) = (pieces '\n' as).map withoutReturn ++ lines bs := by
  rw [lines, pieces_append, endedLines_append _ (pieces_ne_nil _ bs), lines]

/-- All pieces but the last are ended, and the last is a line unless it is empty. -/
theorem lines_eq {cs last : List Char} {ps : List (List Char)}
    (hps : pieces '\n' cs = ps ++ [last]) :
    lines cs = ps.map withoutReturn ++ if last.isEmpty then [] else [last] := by
  rw [lines, hps, endedLines_append _ (by simp), endedLines]

/-! ## Blanks -/

/-- Blanks at the end are trimmed. -/
theorem trimmed_append {blanks : List Char} (hblanks : ∀ c ∈ blanks, isBlank c = true)
    (cs : List Char) : trimmed (cs ++ blanks) = trimmed cs := by
  have hfront : blanks.dropWhile isBlank = [] := List.dropWhile_eq_nil_iff.mpr hblanks
  have hback : blanks.reverse.dropWhile isBlank = [] :=
    List.dropWhile_eq_nil_iff.mpr fun c hc => hblanks c (List.mem_reverse.mp hc)
  unfold trimmed
  rw [List.dropWhile_append]
  split
  · next hempty =>
    -- there is nothing else in the text
    rw [List.isEmpty_iff.mp hempty, hfront]
  · rw [List.reverse_append, List.dropWhile_append, hback]
    rfl

/-- A piece without its carriage return, or the piece as it is. -/
theorem withoutReturn_cases (cs : List Char) :
    withoutReturn cs = cs ∨ cs = withoutReturn cs ++ ['\r'] := by
  unfold withoutReturn
  split
  · next hlast =>
    obtain ⟨front, rfl⟩ := List.getLast?_eq_some_iff.mp hlast
    exact .inr (by simp)
  · exact .inl rfl

/-! ## Bytes -/

theorem byteLength_eq (cs : List Char) : byteLength cs = (String.ofList cs).utf8ByteSize := by
  have hfold : ∀ n, cs.foldl (fun size c => size + c.utf8Size) n = n + String.utf8Len cs := by
    induction cs with
    | nil => simp
    | cons c cs ih =>
      intro n
      rw [List.foldl_cons, ih, String.utf8Len_cons]
      omega
  rw [String.utf8ByteSize_ofList, byteLength, hfold, Nat.zero_add]

end SpeedTrial.Text
