import DocSnippets.Diagnostic.Position
import DocSnippets.Proofs.Path
import DocSnippets.Proofs.Text.Units
import Mathlib.Data.List.Induction

/-!
# Lines and columns

The offset of a line and a column lies on the line as long as the column, read as a number of
characters, does. A larger column is the end of the line together with its newline, where the next
line starts.
-/

namespace DocSnippets.Text

/-- Lines with a newline behind each of them. -/
def unlines (lines : List (List Char)) : List Char := lines.flatMap (· ++ ['\n'])

@[simp] theorem unlines_nil : unlines [] = [] := rfl

@[simp] theorem unlines_cons (line : List Char) (lines : List (List Char)) :
    unlines (line :: lines) = line ++ '\n' :: unlines lines := by
  rw [unlines, List.flatMap_cons, List.append_assoc, List.singleton_append]
  rfl

@[simp] theorem unlines_append (a b : List (List Char)) :
    unlines (a ++ b) = unlines a ++ unlines b := List.flatMap_append

theorem unlines_splitOn (text : List Char) : unlines (splitOn '\n' text) = text ++ ['\n'] := by
  induction text with
  | nil => rfl
  | cons c text ih =>
    rw [splitOn]
    by_cases hc : c = '\n'
    · rw [if_pos hc, unlines_cons, ih, hc]
      rfl
    · rw [if_neg hc]
      cases hparts : splitOn '\n' text with
      | nil => exact absurd hparts (splitOn_ne_nil '\n' text)
      | cons part parts =>
        rw [hparts, unlines_cons] at ih
        rw [unlines_cons, List.cons_append, ih, List.cons_append]

/-- A line with the lines above it and what follows it, which is nothing or starts with the newline
that ends the line. -/
structure LineAt (text : List Char) (above : List (List Char)) (line below : List Char) : Prop where
  text_eq : text = unlines above ++ (line ++ below)
  above_oneLine : ∀ a ∈ above, '\n' ∉ a
  oneLine : '\n' ∉ line
  below_eq : below = [] ∨ below.head? = some '\n'

theorem lineAt_last {text line : List Char} {above : List (List Char)}
    (h : splitOn '\n' text = above ++ [line]) : LineAt text above line [] := by
  have htext := unlines_splitOn text
  rw [h, unlines_append, unlines_cons, unlines_nil, ← List.append_assoc] at htext
  have hplain : ∀ part ∈ above ++ [line], '\n' ∉ part := fun part hpart =>
    notMem_of_mem_splitOn (h ▸ hpart)
  refine ⟨?_, fun a ha => hplain a (List.mem_append_left _ ha),
    hplain line (List.mem_append_right _ List.mem_cons_self), .inl rfl⟩
  rw [List.append_nil]
  exact (List.append_cancel_right htext).symm

theorem lineAt_inner {text line last : List Char} {above others : List (List Char)}
    (h : splitOn '\n' text = above ++ line :: (others ++ [last])) :
    LineAt text above line ('\n' :: (unlines others ++ last)) := by
  have htext := unlines_splitOn text
  rw [h, unlines_append, unlines_cons, unlines_append, unlines_cons, unlines_nil,
    ← List.append_assoc (unlines others), ← List.cons_append, ← List.append_assoc line,
    ← List.append_assoc] at htext
  have hplain : ∀ part ∈ above ++ line :: (others ++ [last]), '\n' ∉ part := fun part hpart =>
    notMem_of_mem_splitOn (h ▸ hpart)
  exact ⟨(List.append_cancel_right htext).symm, fun a ha => hplain a (List.mem_append_left _ ha),
    hplain line (List.mem_append_right _ List.mem_cons_self), .inr rfl⟩

/-- Every line of a text stands below the lines before it; only nothing follows the last one. -/
theorem exists_lineAt {text line : List Char} {k : Nat}
    (h : (splitOn '\n' text)[k]? = some line) :
    ∃ above below, LineAt text above line below ∧ above.length = k ∧
      (below ≠ [] ↔ k + 1 < (splitOn '\n' text).length) := by
  obtain ⟨hk, hline⟩ := List.getElem?_eq_some_iff.mp h
  have hparts : splitOn '\n' text =
      (splitOn '\n' text).take k ++ line :: (splitOn '\n' text).drop (k + 1) := by
    rw [← hline, List.getElem_cons_drop, List.take_append_drop]
  have hlength : ((splitOn '\n' text).take k).length = k :=
    List.length_take_of_le (Nat.le_of_lt hk)
  have hrest := congrArg List.length hparts
  rw [List.length_append, hlength, List.length_cons] at hrest
  generalize (splitOn '\n' text).take k = above at hparts hlength
  generalize (splitOn '\n' text).drop (k + 1) = others at hparts hrest
  rcases List.eq_nil_or_concat others with rfl | ⟨others, last, rfl⟩
  · refine ⟨above, [], lineAt_last hparts, hlength, ?_⟩
    rw [hrest]
    simp
  · refine ⟨above, _, lineAt_inner (by rw [hparts, List.concat_eq_append]), hlength, ?_⟩
    rw [hrest]
    simp

theorem segments_line {line : List Char} (h : '\n' ∉ line) (rest : List Char) :
    segments (line ++ '\n' :: rest) = (line ++ ['\n']) :: segments rest := by
  induction line with
  | nil => rw [List.nil_append, segments, if_pos rfl, List.nil_append]
  | cons c line ih =>
    have hc : c ≠ '\n' := fun heq => h (heq ▸ List.mem_cons_self)
    rw [List.cons_append, segments, if_neg hc, ih fun hmem => h (List.mem_cons_of_mem c hmem)]
    rfl

theorem segments_of_notMem {line : List Char} (h : '\n' ∉ line) (hne : line ≠ []) :
    segments line = [line] := by
  induction line with
  | nil => exact absurd rfl hne
  | cons c line ih =>
    have hc : c ≠ '\n' := fun heq => h (heq ▸ List.mem_cons_self)
    rw [segments, if_neg hc]
    cases line with
    | nil => rfl
    | cons d line => rw [ih (fun hmem => h (List.mem_cons_of_mem c hmem)) (List.cons_ne_nil d line)]

theorem count_unlines {lines : List (List Char)} (h : ∀ line ∈ lines, '\n' ∉ line) :
    (unlines lines).count '\n' = lines.length := by
  induction lines with
  | nil => rfl
  | cons line lines ih =>
    rw [unlines_cons, List.count_append, List.count_eq_zero.mpr (h line List.mem_cons_self),
      List.count_cons_self, ih fun b hb => h b (List.mem_cons_of_mem line hb), Nat.zero_add,
      List.length_cons]

theorem length_le_byteLength (text : List Char) : text.length ≤ byteLength text := by
  induction text with
  | nil => exact Nat.le_refl 0
  | cons c text ih =>
    have hpos := c.utf8Size_pos
    rw [List.length_cons, byteLength]
    omega

end DocSnippets.Text

namespace DocSnippets.Diagnostic

open Text

theorem offsetIn_unlines {above : List (List Char)} (h : ∀ a ∈ above, '\n' ∉ a) (col : Nat)
    (rest : List Char) :
    offsetIn col (above.length + 1) (segments (unlines above ++ rest)) =
      byteLength (unlines above) + offsetIn col 1 (segments rest) := by
  induction above with
  | nil =>
    rw [unlines_nil, List.nil_append, byteLength, Nat.zero_add, List.length_nil, Nat.zero_add]
  | cons a above ih =>
    rw [unlines_cons, List.append_assoc, List.cons_append, segments_line (h a List.mem_cons_self),
      List.length_cons, offsetIn, Nat.add_sub_cancel,
      ih fun b hb => h b (List.mem_cons_of_mem a hb), ← Nat.add_assoc, ← byteLength_append,
      List.append_assoc, List.singleton_append]
    exact Nat.succ_ne_zero above.length ∘ Nat.succ.inj

/-- The offset on a line: that of the column in the line and its newline. -/
theorem offsetIn_line {line below : List Char} (hline : '\n' ∉ line)
    (hbelow : below = [] ∨ below.head? = some '\n') (col : Nat) :
    offsetIn col 1 (segments (line ++ below)) =
      byteLength ((line ++ below.take 1).take (col - 1)) := by
  rcases hbelow with rfl | hnewline
  · rw [List.append_nil, List.take_nil, List.append_nil]
    by_cases hne : line = []
    · rw [hne, List.take_nil]
      rfl
    · rw [segments_of_notMem hline hne]
      rfl
  · obtain ⟨rest, rfl⟩ := List.head?_eq_some_iff.mp hnewline
    rw [segments_line hline]
    rfl

variable {text line below : List Char} {above : List (List Char)}

theorem offsetOf_line (h : LineAt text above line below) (col : Nat) :
    offsetOf text (above.length + 1) col =
      byteLength (unlines above ++ (line ++ below.take 1).take (col - 1)) := by
  rw [offsetOf, if_neg (Nat.succ_ne_zero _), h.text_eq, offsetIn_unlines h.above_oneLine,
    offsetIn_line h.oneLine h.below_eq, byteLength_append]

theorem count_take_line (h : LineAt text above line below) (n : Nat) :
    ((line ++ below.take 1).take n).count '\n' =
      if line.length < n ∧ below ≠ [] then 1 else 0 := by
  have hcount : (line.take n).count '\n' = 0 :=
    List.count_eq_zero.mpr fun hmem => h.oneLine (List.mem_of_mem_take hmem)
  rw [List.take_append, List.count_append, hcount, Nat.zero_add]
  rcases h.below_eq with rfl | hnewline
  · rw [if_neg fun hne => hne.2 rfl, List.take_nil, List.take_nil, List.count_nil]
  · obtain ⟨rest, rfl⟩ := List.head?_eq_some_iff.mp hnewline
    rw [List.take_succ_cons, List.take_zero]
    by_cases hn : line.length < n
    · have hlong : 1 ≤ n - line.length := Nat.sub_pos_of_lt hn
      rw [if_pos ⟨hn, List.cons_ne_nil _ _⟩, List.take_of_length_le hlong]
      rfl
    · rw [if_neg fun hne => hn hne.1, Nat.sub_eq_zero_of_le (Nat.le_of_not_lt hn), List.take_zero,
        List.count_nil]

/-- The newlines before the offset of a line and a column. -/
theorem count_takeBytes_offsetOf (h : LineAt text above line below) (col : Nat) :
    (takeBytes (offsetOf text (above.length + 1) col) text).count '\n' =
      above.length + if line.length < col - 1 ∧ below ≠ [] then 1 else 0 := by
  have htext : text = (unlines above ++ (line ++ below.take 1).take (col - 1)) ++
      ((line ++ below.take 1).drop (col - 1) ++ below.drop 1) := by
    rw [List.append_assoc, ← List.append_assoc (List.take _ _), List.take_append_drop,
      List.append_assoc, List.take_append_drop]
    exact h.text_eq
  rw [offsetOf_line h, congrArg (takeBytes _) htext, takeBytes_byteLength, List.count_append,
    count_unlines h.above_oneLine, count_take_line h]

/-- The line that a column leads to: its own one, or the next one for a column past the newline. -/
def reachedLine (text : List Char) (l col : Nat) (line : List Char) : Nat :=
  if line.length + 1 < col ∧ l < (splitOn '\n' text).length then l + 1 else l

/-- The line in the documentation of a line and a column of the submitted text. -/
theorem snippetLine_offsetOf {l : Nat} (hl : 1 ≤ l)
    (hline : (splitOn '\n' text)[l - 1]? = some line) (col : Nat) (wrapping : Snippet.Wrapping)
    (lineCount : Nat) :
    snippetLine text (offsetOf text l col) wrapping lineCount =
      max 1 (min (reachedLine text l col line - wrapping.lineOffset) (max lineCount 1)) := by
  obtain ⟨above, below, hat, hlength, hlast⟩ := exists_lineAt hline
  obtain ⟨k, rfl⟩ := Nat.exists_eq_add_of_le' hl
  rw [Nat.add_sub_cancel] at hlength hlast
  obtain rfl := hlength
  have hpast : line.length < col - 1 ∧ below ≠ [] ↔
      line.length + 1 < col ∧ above.length + 1 < (splitOn '\n' text).length := by
    rw [hlast, Nat.lt_sub_iff_add_lt]
  rw [snippetLine, count_takeBytes_offsetOf hat col, reachedLine]
  by_cases hnext : line.length + 1 < col ∧ above.length + 1 < (splitOn '\n' text).length
  · rw [if_pos hnext, if_pos (hpast.mpr hnext)]
  · rw [if_neg hnext, if_neg (mt hpast.mp hnext), Nat.add_zero]

end DocSnippets.Diagnostic
