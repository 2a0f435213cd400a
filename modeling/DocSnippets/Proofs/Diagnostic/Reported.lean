import DocSnippets.Diagnostic.Mapping
import DocSnippets.Proofs.Compiler.Located
import DocSnippets.Proofs.Diagnostic.Columns
import DocSnippets.Proofs.Snippet.LineMapping

/-!
# Reported lines

A message of the compiler about a line and a column is reported for that line of the snippet, unless
the column lies past the newline when it is read as a number of characters. The compiler counts
UTF-16 units, so this happens behind characters that have two of them: then the next line is
reported.
-/

namespace DocSnippets

open Text

namespace Mapped

theorem mem_insertAscending {k n : Nat} {lines : List Nat} :
    k ∈ insertAscending n lines ↔ k = n ∨ k ∈ lines := by
  induction lines with
  | nil => rw [insertAscending, List.mem_singleton, or_iff_left List.not_mem_nil]
  | cons m lines ih =>
    rw [insertAscending]
    split
    · rw [List.mem_cons]
    · split
      · next heq => rw [heq, List.mem_cons, or_self_left]
      · rw [List.mem_cons, ih, List.mem_cons, or_left_comm]

theorem mem_foldl_insertAscending {k : Nat} {new lines : List Nat} :
    k ∈ new.foldl (fun acc n => insertAscending n acc) lines ↔ k ∈ new ∨ k ∈ lines := by
  induction new generalizing lines with
  | nil => rw [List.foldl_nil, or_iff_right List.not_mem_nil]
  | cons n new ih =>
    rw [List.foldl_cons, ih, mem_insertAscending, List.mem_cons, or_assoc, or_left_comm]

/-- The lines reported are those of the diagnostics. -/
theorem mem_lines {k : Nat} {diagnostics : List Diagnostic} {p : Prepared} {scrubber : Scrubber} :
    k ∈ (ofDiagnostics diagnostics p scrubber).lines ↔
      ∃ d ∈ diagnostics, lineOf p d = some k := by
  rw [ofDiagnostics, mem_foldl_insertAscending, or_iff_left List.not_mem_nil, List.mem_filterMap]

end Mapped

namespace Prepared

/-- The line of the snippet for a line of the submitted text; a line of the wrapper counts as the
nearest one. -/
def documentedLine (p : Prepared) (l : Nat) : Nat :=
  max 1 (min (l - p.wrapping.lineOffset) p.block.lineCount)

variable {p : Prepared} {l c : Nat} {line : List Char}

theorem lineOf_place (hl : 1 ≤ l)
    (hline : (splitOn '\n' p.submitted.toList)[l - 1]? = some line) {d : Diagnostic}
    (hoffset : d.offset = some (Diagnostic.offsetOf p.submitted.toList l c)) :
    Mapped.lineOf p d =
      some (p.documentedLine (Diagnostic.reachedLine p.submitted.toList l c line)) := by
  rw [Mapped.lineOf, hoffset, Option.map_some, Diagnostic.snippetLine_offsetOf hl hline,
    documentedLine, Nat.max_eq_left (lineCount_pos p.block)]

/-- A place in a text can be counted in numbers of 64 bits. -/
theorem place_lt_bound64 {text : List Char} (hsize : byteLength text < 2 ^ 63) (hl : 1 ≤ l)
    (hline : (splitOn '\n' text)[l - 1]? = some line) (hc : c ≤ (units line).length + 1) :
    l < bound64 ∧ c < bound64 := by
  obtain ⟨above, below, hat, hlength, -⟩ := exists_lineAt hline
  have habove : above.length ≤ byteLength (unlines above) := by
    calc above.length = (unlines above).count '\n' := (count_unlines hat.above_oneLine).symm
      _ ≤ (unlines above).length := List.count_le_length
      _ ≤ byteLength (unlines above) := length_le_byteLength _
  have hunits := length_units_le line
  rw [hat.text_eq, byteLength_append, byteLength_append] at hsize
  have hbound : bound64 = 2 ^ 64 := by decide
  omega

/-- What becomes of a message about a place: it is one of the diagnostics, and the line that its
column leads to is reported, besides the lines of the other ones. -/
theorem located_reported {snippet : Path} {file : List Char} {n : Nat}
    {message output : List Char} {before after : List (List Char)}
    (hsize : byteLength p.submitted.toList < 2 ^ 63) (hl : 1 ≤ l)
    (hline : (splitOn '\n' p.submitted.toList)[l - 1]? = some line)
    (hc : c ≤ (units line).length + 1) (hfile : Report.Refers file snippet)
    (houtput : lines output = before ++ (file ++ Report.placed l c n message) :: after)
    (scrubber : Scrubber) :
    ∃ earlier d later,
      earlier = (before.foldl (Report.readLine snippet p.submitted.toList) []).reverse ∧
      Report.diagnostics snippet p.submitted.toList output = earlier ++ d :: later ∧
      Report.errorText n message <+: d.text.toList ∧
      Mapped.lineOf p d =
        some (p.documentedLine (Diagnostic.reachedLine p.submitted.toList l c line)) ∧
      ∀ k, k ∈ (Mapped.ofDiagnostics (Report.diagnostics snippet p.submitted.toList output) p
          scrubber).lines ↔
        k = p.documentedLine (Diagnostic.reachedLine p.submitted.toList l c line) ∨
          ∃ e ∈ earlier ++ later, Mapped.lineOf p e = some k := by
  obtain ⟨hl64, hc64⟩ := place_lt_bound64 hsize hl hline hc
  obtain ⟨d, later, hdiagnostics, hoffset, htext⟩ :=
    Report.diagnostics_placed hfile hl64 hc64 p.submitted.toList houtput
  have hlineOf := lineOf_place hl hline hoffset
  refine ⟨_, d, later, rfl, hdiagnostics, htext, hlineOf, fun k => ?_⟩
  rw [Mapped.mem_lines, hdiagnostics]
  constructor
  · rintro ⟨e, he, hk⟩
    rcases List.mem_append.mp he with he | he
    · exact .inr ⟨e, List.mem_append_left later he, hk⟩
    · rcases List.mem_cons.mp he with rfl | he
      · exact .inl (Option.some.inj (hk.symm.trans hlineOf))
      · exact .inr ⟨e, List.mem_append_right _ he, hk⟩
  · rintro (rfl | ⟨e, he, hk⟩)
    · exact ⟨d, List.mem_append_right _ List.mem_cons_self, hlineOf⟩
    · refine ⟨e, ?_, hk⟩
      rcases List.mem_append.mp he with he | he
      · exact List.mem_append_left _ he
      · exact List.mem_append_right _ (List.mem_cons_of_mem d he)

/-- A snippet of two lines; the last character of the first one has two units. -/
def wideSnippet : Prepared where
  block := { file := ⟨"guide.md"⟩, index := 1, source := "const s = \"😀\nlog()", dialect := .ts }
  submitted := "const s = \"😀\nlog()"
  wrapping := .module

def wideFile : Path := ⟨"/tmp/work/block-1.ts"⟩

/-- What the compiler says about the end of the first line. -/
def wideOutput : List Char :=
  "work/block-1.ts(1,14): error TS1002: Unterminated string literal.\n".toList

theorem located_reported_wide :
    ∃ earlier d later, earlier = [] ∧
      Report.diagnostics wideFile wideSnippet.submitted.toList wideOutput = earlier ++ d :: later ∧
      Report.errorText 1002 "Unterminated string literal.".toList <+: d.text.toList ∧
      Mapped.lineOf wideSnippet d = some (wideSnippet.documentedLine
        (Diagnostic.reachedLine wideSnippet.submitted.toList 1 14 "const s = \"😀".toList)) ∧
      ∀ k, k ∈ (Mapped.ofDiagnostics
          (Report.diagnostics wideFile wideSnippet.submitted.toList wideOutput) wideSnippet
          (.ofSnippet wideFile wideSnippet.block)).lines ↔
        k = wideSnippet.documentedLine
            (Diagnostic.reachedLine wideSnippet.submitted.toList 1 14 "const s = \"😀".toList) ∨
          ∃ e ∈ earlier ++ later, Mapped.lineOf wideSnippet e = some k := by
  have hsize : byteLength wideSnippet.submitted.toList < 2 ^ 63 := by decide +kernel
  have hline : (splitOn '\n' wideSnippet.submitted.toList)[1 - 1]? =
      some "const s = \"😀".toList := by
    decide +kernel
  have hcolumn : 14 ≤ (units "const s = \"😀".toList).length + 1 := by decide +kernel
  have hfile : Report.Refers "work/block-1.ts".toList wideFile := by
    constructor
    case named =>
      exact ⟨1, .ts, by decide +kernel, .inr ⟨"work".toList, by decide +kernel⟩⟩
    case plain => decide +kernel
  have houtput : lines wideOutput = [] ++ ("work/block-1.ts".toList ++
      Report.placed 1 14 1002 "Unterminated string literal.".toList) :: [] := by
    decide +kernel
  exact located_reported hsize (by decide) hline hcolumn hfile houtput
    (.ofSnippet wideFile wideSnippet.block)

/-- A message about the first line is reported for the second one. -/
theorem wide_line_missed :
    14 ≤ (units "const s = \"😀".toList).length + 1 ∧
      (splitOn '\n' wideSnippet.submitted.toList)[1 - 1]? = some "const s = \"😀".toList ∧
      wideSnippet.documentedLine 1 = 1 ∧
      (Mapped.ofDiagnostics
        (Report.diagnostics wideFile wideSnippet.submitted.toList wideOutput) wideSnippet
        (.ofSnippet wideFile wideSnippet.block)).lines = [2] := by
  decide +kernel

end Prepared

end DocSnippets
