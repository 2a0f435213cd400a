import DocSnippets.Proofs.Diagnostic.Columns
import Mathlib.Data.List.DropRight

/-!
# Offsets of lines and columns

An offset between two characters has a line and a column, and is the offset of these. The offset of
any line and column, sensible or not, lies between two characters or at an end of the text.
-/

namespace DocSnippets.Text

/-- An offset between two characters of a text, or at one of its ends. -/
def Boundary (text : List Char) (offset : Nat) : Prop :=
  ∃ before after, text = before ++ after ∧ offset = byteLength before

/-- The line of an offset: one more than the newlines before it. -/
def lineOf (text : List Char) (offset : Nat) : Nat := (takeBytes offset text).count '\n' + 1

/-- The column of an offset: one more than the characters between the start of its line and it. -/
def columnOf (text : List Char) (offset : Nat) : Nat :=
  ((takeBytes offset text).rtakeWhile (· ≠ '\n')).length + 1

variable {text before after line : List Char} {offset : Nat}

theorem Boundary.le_byteLength (h : Boundary text offset) : offset ≤ byteLength text := by
  obtain ⟨before, after, rfl, rfl⟩ := h
  rw [byteLength_append]
  exact Nat.le_add_right _ _

theorem Boundary.prepend (h : Boundary after offset) (before : List Char) :
    Boundary (before ++ after) (byteLength before + offset) := by
  obtain ⟨front, back, rfl, rfl⟩ := h
  exact ⟨before ++ front, back, by rw [List.append_assoc], by rw [byteLength_append]⟩

theorem rtakeWhile_unlines (above : List (List Char)) (h : '\n' ∉ line) :
    (unlines above ++ line).rtakeWhile (· ≠ '\n') = line := by
  have hplain : ∀ c ∈ line.reverse, decide (c ≠ '\n') = true := by
    intro c hc
    rw [decide_eq_true_eq]
    rintro rfl
    exact h (List.mem_reverse.mp hc)
  have habove : (unlines above).reverse.takeWhile (· ≠ '\n') = [] := by
    rcases List.eq_nil_or_concat above with rfl | ⟨front, last, rfl⟩
    · rfl
    · rw [List.concat_eq_append, unlines_append, unlines_cons, unlines_nil, ← List.append_assoc,
        List.reverse_append]
      rfl
  rw [List.rtakeWhile, List.reverse_append, List.takeWhile_append_of_pos hplain, habove,
    List.append_nil, List.reverse_reverse]

/-- The line that a cut of a text goes through: what stands before the cut starts it, and what comes
behind the cut ends it. -/
theorem exists_lineAt_of_cut (before after : List Char) :
    ∃ above start rest below, LineAt (before ++ after) above (start ++ rest) below ∧
      before = unlines above ++ start ∧ '\n' ∉ start := by
  obtain ⟨above, start, hparts⟩ := (List.eq_nil_or_concat (splitOn '\n' before)).resolve_left
    (splitOn_ne_nil '\n' before)
  have hbefore := lineAt_last (hparts.trans List.concat_eq_append)
  have htext := hbefore.text_eq
  rw [List.append_nil] at htext
  refine ⟨above, start, after.takeWhile (· ≠ '\n'), after.dropWhile (· ≠ '\n'), ?_, htext,
    hbefore.oneLine⟩
  constructor
  case text_eq =>
    rw [List.append_assoc start, List.takeWhile_append_dropWhile, ← List.append_assoc, ← htext]
  case above_oneLine => exact hbefore.above_oneLine
  case oneLine =>
    intro hmem
    rcases List.mem_append.mp hmem with hmem | hmem
    · exact hbefore.oneLine hmem
    · simpa using List.mem_takeWhile_imp hmem
  case below_eq =>
    have hhead := List.head?_dropWhile_not (· ≠ '\n') after
    rcases hbelow : after.dropWhile (· ≠ '\n') with _ | ⟨c, below⟩
    · exact .inl rfl
    · rw [hbelow] at hhead
      exact .inr (by simpa using hhead)

end DocSnippets.Text

namespace DocSnippets.Diagnostic

open Text

theorem columnOffset_boundary (segment : List Char) (col : Nat) :
    Boundary segment (columnOffset segment col) :=
  ⟨segment.take (col - 1), segment.drop (col - 1), (List.take_append_drop _ _).symm, rfl⟩

theorem offsetIn_boundary (col line : Nat) (segments : List (List Char)) :
    Boundary segments.flatten (offsetIn col line segments) := by
  fun_induction offsetIn col line segments with
  | case1 => exact ⟨[], [], rfl, rfl⟩
  | case2 segment rest =>
    obtain ⟨before, after, hsegment, hoffset⟩ := columnOffset_boundary segment col
    exact ⟨before, after ++ rest.flatten,
      by rw [List.flatten_cons, ← List.append_assoc, ← hsegment], hoffset⟩
  | case3 line segment rest _ ih => exact ih.prepend segment

theorem offsetOf_boundary (text : List Char) (line col : Nat) :
    Boundary text (offsetOf text line col) := by
  rw [offsetOf]
  split
  · exact ⟨text, [], (List.append_nil text).symm, rfl⟩
  · have h := offsetIn_boundary col line (segments text)
    rwa [flatten_segments] at h

/-- The offset of the line and the column that a cut of a text is at. -/
theorem offsetOf_cut (before after : List Char) :
    offsetOf (before ++ after) (before.count '\n' + 1)
      ((before.rtakeWhile (· ≠ '\n')).length + 1) = byteLength before := by
  obtain ⟨above, start, rest, below, hline, hbefore, hstart⟩ := exists_lineAt_of_cut before after
  have hcount : before.count '\n' = above.length := by
    rw [hbefore, List.count_append, count_unlines hline.above_oneLine,
      List.count_eq_zero.mpr hstart, Nat.add_zero]
  have hcolumn : before.rtakeWhile (· ≠ '\n') = start := by
    rw [hbefore, rtakeWhile_unlines above hstart]
  rw [hcount, hcolumn, offsetOf_line hline, Nat.add_sub_cancel, List.append_assoc start,
    List.take_left, ← hbefore]

/-- An offset between two characters is the offset of its line and its column; and every line and
column, whether the text has them or not, have such an offset. -/
theorem offsetOf_inverts (text : List Char) :
    (∀ offset, Boundary text offset →
      offsetOf text (lineOf text offset) (columnOf text offset) = offset) ∧
    ∀ line col, Boundary text (offsetOf text line col) ∧
      offsetOf text line col ≤ byteLength text := by
  constructor
  · rintro offset ⟨before, after, rfl, rfl⟩
    rw [lineOf, columnOf, takeBytes_byteLength]
    exact offsetOf_cut before after
  · intro line col
    have h := offsetOf_boundary text line col
    exact ⟨h, h.le_byteLength⟩

/-- Behind an empty line and a character of four bytes, on a last line without a newline. -/
theorem offsetOf_inverts_wide :
    Boundary "é\n\n😀b".toList 8 ∧
      (lineOf "é\n\n😀b".toList 8, columnOf "é\n\n😀b".toList 8) = (3, 2) ∧
      offsetOf "é\n\n😀b".toList 3 2 = 8 ∧
      Boundary "é\n\n😀b".toList (offsetOf "é\n\n😀b".toList 0 18446744073709551615) := by
  have hboundary : Boundary "é\n\n😀b".toList 8 := ⟨"é\n\n😀".toList, ['b'], by decide, by decide⟩
  have hplace : (lineOf "é\n\n😀b".toList 8, columnOf "é\n\n😀b".toList 8) = (3, 2) := by decide
  have hline : lineOf "é\n\n😀b".toList 8 = 3 := congrArg Prod.fst hplace
  have hcolumn : columnOf "é\n\n😀b".toList 8 = 2 := congrArg Prod.snd hplace
  have hoffset := (offsetOf_inverts "é\n\n😀b".toList).1 8 hboundary
  rw [hline, hcolumn] at hoffset
  exact ⟨hboundary, hplace, hoffset, ((offsetOf_inverts _).2 0 _).1⟩

end DocSnippets.Diagnostic
