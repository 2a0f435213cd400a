import DocSnippets.CommandLine.Report
import DocSnippets.Proofs.Diagnostic.Summary

/-!
# Faulty lines in a report

The lines that a result names are shown in the report, each once and marked. The lines of a snippet
are counted twice for this, by the result and by the report. The two counts are the same but for an
empty snippet: it counts as one line where a diagnostic is placed, and no line is printed for it.
-/

namespace DocSnippets.CommandLine.Report

open Text (lines length_lines)

theorem numbers_numberedLines (snippet : List Char) (faulty : List Nat) :
    (numberedLines snippet faulty).map (·.number) = List.range' 1 (lines snippet).length := by
  apply List.ext_getElem
  · simp [numberedLines]
  · intro i hi hrange
    simp only [numberedLines, List.getElem_map, List.getElem_mapIdx, List.getElem_range']
    omega

theorem faulty_of_mem {snippet : List Char} {faulty : List Nat} {l : NumberedLine}
    (h : l ∈ numberedLines snippet faulty) : l.faulty = faulty.contains l.number := by
  obtain ⟨i, hi, rfl⟩ := List.mem_mapIdx.mp h
  rfl

/-- Each number of a line is printed once. -/
theorem countP_number {snippet : List Char} {line : Nat}
    (h : 1 ≤ line ∧ line ≤ (lines snippet).length) (faulty : List Nat) :
    (numberedLines snippet faulty).countP (·.number = line) = 1 := by
  have hnumbers := numbers_numberedLines snippet faulty
  have hmem : line ∈ (numberedLines snippet faulty).map (·.number) := by
    rw [hnumbers, List.mem_range'_1]
    omega
  have hnodup : ((numberedLines snippet faulty).map (·.number)).Nodup := by
    rw [hnumbers]
    exact List.nodup_range'
  have hcount := List.count_eq_one_of_mem hnodup hmem
  rwa [List.count, List.countP_map] at hcount

theorem filter_range'_contains {faulty : List Nat} {n : Nat} (hascending : faulty.Pairwise (· < ·))
    (hbounded : ∀ line ∈ faulty, 1 ≤ line ∧ line ≤ n) :
    (List.range' 1 n).filter faulty.contains = faulty := by
  have hrange : (List.range' 1 n).Pairwise (· < ·) := List.pairwise_lt_range'
  apply (hrange.filter _).eq_of_mem_iff hascending
  intro line
  rw [List.mem_filter, List.contains_iff_mem, List.mem_range'_1, and_iff_right_of_imp]
  intro hline
  have hbounds := hbounded line hline
  omega

/-- As many lines are marked as there are faulty ones. -/
theorem countP_faulty {snippet : List Char} {faulty : List Nat}
    (hascending : faulty.Pairwise (· < ·))
    (hbounded : ∀ line ∈ faulty, 1 ≤ line ∧ line ≤ (lines snippet).length) :
    (numberedLines snippet faulty).countP (·.faulty) = faulty.length := by
  calc (numberedLines snippet faulty).countP (·.faulty)
      = (numberedLines snippet faulty).countP (faulty.contains ·.number) :=
        List.countP_congr fun l hl => by rw [faulty_of_mem hl]
    _ = ((numberedLines snippet faulty).map (·.number)).countP faulty.contains := by
        rw [List.countP_map]
        rfl
    _ = faulty.length := by
        rw [numbers_numberedLines, List.countP_eq_length_filter,
          filter_range'_contains hascending hbounded]

/-- What is printed of a snippet, line by line; a success is not mentioned. -/
def printed (r : SnippetResult) : List NumberedLine :=
  if r.isOk then [] else numberedLines r.snippet.toList r.lines

/-- What is printed of a failure above the snippet. -/
def above (colors : Bool) (r : SnippetResult) : List Char :=
  match r.failure with
  | some f =>
    status colors .fail ("Error compiling example code block ".toList ++ Nat.toDigits 10 r.index ++
        " in file ".toList ++ r.file.text.toList ++ [':']) ++
      endLine (indent f.message.toList) ++ endLine [] ++ heading colors " Original code:".toList
  | none => []

theorem result_eq (colors : Bool) (r : SnippetResult) :
    result colors r =
      above colors r ++ (printed r).flatMap fun l => codeLine colors l.render l.faulty := by
  cases hf : r.failure <;> simp [result, above, printed, failure, SnippetResult.isOk, hf]

/-- Each line of a result stands once among those printed for it, and these are the marked ones. -/
structure Shows (r : SnippetResult) (printed : List NumberedLine) : Prop where
  once : ∀ line ∈ r.lines, printed.countP (·.number = line) = 1
  marked : ∀ l ∈ printed, l.faulty = true ↔ l.number ∈ r.lines
  count : printed.countP (·.faulty) = r.lines.length

variable {r : SnippetResult}

theorem shows_of_bounded (hascending : r.lines.Pairwise (· < ·))
    (hbounded : ∀ line ∈ r.lines, 1 ≤ line ∧ line ≤ (lines r.snippet.toList).length) :
    Shows r (numberedLines r.snippet.toList r.lines) := by
  constructor
  case once =>
    intro line hline
    exact countP_number (hbounded line hline) r.lines
  case marked =>
    intro l hl
    rw [faulty_of_mem hl, List.contains_iff_mem]
  case count => exact countP_faulty hascending hbounded

theorem printed_of_empty (h : r.snippet = "") : printed r = [] := by
  rw [printed, h]
  split <;> rfl

theorem shows_of_lines_nil (h : r.lines = []) : Shows r [] where
  once line hline := by rw [h] at hline; cases hline
  marked l hl := by cases hl
  count := by rw [h]; rfl

/-- A diagnostic is placed in an empty snippet. -/
def PlacedInNothing (p : Prepared) (o : Outcome) : Prop :=
  p.block.source = "" ∧ ∃ list, o = .diagnostics list ∧ ∃ d ∈ list, d.offset.isSome

section Outcomes

variable {p : Prepared} {s : Scrubber} {o : Outcome}

theorem ofOutcome_ascending (p : Prepared) (s : Scrubber) (o : Outcome) :
    (SnippetResult.ofOutcome p s o).lines.Pairwise (· < ·) := by
  cases o with
  | success => exact .nil
  | generic text => exact .nil
  | diagnostics list =>
    have hlines : (Mapped.ofDiagnostics list p s).lines.Pairwise (· < ·) := Mapped.lines_ascending
    exact hlines

theorem mem_ofOutcome_lines {line : Nat} :
    line ∈ (SnippetResult.ofOutcome p s o).lines ↔
      ∃ list, o = .diagnostics list ∧ ∃ d ∈ list, Mapped.lineOf p d = some line := by
  cases o with
  | success => simp [SnippetResult.ofOutcome]
  | generic text => simp [SnippetResult.ofOutcome]
  | diagnostics list =>
    have hlines : line ∈ (Mapped.ofDiagnostics list p s).lines ↔
        ∃ d ∈ list, Mapped.lineOf p d = some line := Mapped.mem_lines
    simpa [SnippetResult.ofOutcome] using hlines

theorem lines_of_isOk (h : (SnippetResult.ofOutcome p s o).isOk = true) :
    (SnippetResult.ofOutcome p s o).lines = [] := by
  cases o with
  | success => rfl
  | generic text => cases h
  | diagnostics list => cases h

theorem lineCount_of_ne_empty {b : Block} (h : b.source ≠ "") :
    b.lineCount = (lines b.source.toList).length := by
  have hsegments : Text.segments b.source.toList ≠ [] := by
    intro hnil
    have htext := Text.flatten_segments b.source.toList
    rw [hnil, List.flatten_nil] at htext
    exact h (String.toList_eq_nil_iff.mp htext.symm)
  have hpos := List.length_pos_iff.mpr hsegments
  rw [Block.lineCount, length_lines]
  omega

theorem lineCount_of_empty {b : Block} (h : b.source = "") : b.lineCount = 1 := by
  rw [Block.lineCount, h]
  rfl

theorem bounded_of_not_placedInNothing (h : ¬ PlacedInNothing p o) {line : Nat}
    (hline : line ∈ (SnippetResult.ofOutcome p s o).lines) :
    1 ≤ line ∧ line ≤ (lines p.block.source.toList).length := by
  obtain ⟨list, rfl, d, hd, hlineOf⟩ := mem_ofOutcome_lines.mp hline
  obtain ⟨offset, hoffset, rfl⟩ := Mapped.lineOf_eq_some_iff.mp hlineOf
  have hsource : p.block.source ≠ "" := fun hempty =>
    h ⟨hempty, list, rfl, d, hd, by rw [hoffset]; rfl⟩
  rw [← lineCount_of_ne_empty hsource]
  exact p.lineAt_bounds offset

theorem lines_of_placedInNothing (h : PlacedInNothing p o) (s : Scrubber) :
    (SnippetResult.ofOutcome p s o).lines = [1] := by
  obtain ⟨hempty, list, rfl, d, hd, hoffset⟩ := h
  obtain ⟨offset, hoffset⟩ := Option.isSome_iff_exists.mp hoffset
  have hone (offset : Nat) : p.lineAt offset = 1 := by
    have hbounds := p.lineAt_bounds offset
    rw [lineCount_of_empty hempty] at hbounds
    omega
  apply (ofOutcome_ascending p s (.diagnostics list)).eq_of_mem_iff (List.pairwise_singleton _ 1)
  intro line
  rw [mem_ofOutcome_lines, List.mem_singleton]
  constructor
  · rintro ⟨list, -, d, -, hline⟩
    obtain ⟨offset, -, rfl⟩ := Mapped.lineOf_eq_some_iff.mp hline
    exact hone offset
  · rintro rfl
    exact ⟨list, rfl, d, hd, Mapped.lineOf_eq_some_iff.mpr ⟨offset, hoffset, hone offset⟩⟩

/-- How the result `r` of a snippet appears in a report. -/
structure Reported (p : Prepared) (o : Outcome) (r : SnippetResult) : Prop where
  text : ∀ colors, result colors r =
    above colors r ++ (printed r).flatMap fun l => codeLine colors l.render l.faulty
  shown : Shows r (printed r) ↔ ¬ PlacedInNothing p o
  missed : PlacedInNothing p o → r.lines = [1] ∧ printed r = []

/-- The report of a result shows its lines, unless a diagnostic is placed in an empty snippet: then
line 1 is named and no line is printed. -/
theorem ofOutcome_reported (p : Prepared) (s : Scrubber) (o : Outcome) :
    Reported p o (SnippetResult.ofOutcome p s o) := by
  have hmissed (h : PlacedInNothing p o) : (SnippetResult.ofOutcome p s o).lines = [1] ∧
      printed (SnippetResult.ofOutcome p s o) = [] :=
    ⟨lines_of_placedInNothing h s, printed_of_empty h.1⟩
  constructor
  case text => exact fun colors => result_eq colors _
  case shown =>
    constructor
    · intro hshows h
      obtain ⟨hlines, hprinted⟩ := hmissed h
      have hcount := hshows.once 1 (by rw [hlines]; exact List.mem_singleton_self 1)
      rw [hprinted] at hcount
      cases hcount
    · intro h
      by_cases hok : (SnippetResult.ofOutcome p s o).isOk = true
      · rw [printed, if_pos hok]
        exact shows_of_lines_nil (lines_of_isOk hok)
      · rw [printed, if_neg hok]
        exact shows_of_bounded (ofOutcome_ascending p s o)
          fun line hline => bounded_of_not_placedInNothing h hline
  case missed => exact hmissed

end Outcomes

/-- An empty snippet in its wrapper, compiled for a target that has no promises. -/
def emptySnippet : Prepared := .ofText ⟨⟨"README.md"⟩, 1, "", .ts⟩ [] true

def promiseMissing : Outcome :=
  .diagnostics [⟨some 1, some 2705,
    "error TS2705: An async function in ES5 requires the 'Promise' constructor."⟩]

def emptyResult : SnippetResult :=
  .ofOutcome emptySnippet
    (.ofSnippet ⟨"/w/compiled-docs-Ab12Cd/block-1.ts"⟩ emptySnippet.block) promiseMissing

/-- Line 1 is named and not shown. -/
theorem empty_line_unshown : emptyResult.lines = [1] ∧ printed emptyResult = [] ∧
    ¬ Shows emptyResult (printed emptyResult) := by
  refine ⟨by decide +kernel, by decide +kernel, fun hshows => ?_⟩
  have hcount := hshows.once 1 (by decide +kernel)
  revert hcount
  decide +kernel

end DocSnippets.CommandLine.Report
