import DocSnippets.Proofs.Diagnostic.Reported
import Mathlib.Data.List.Sort

/-!
# What diagnostics become

The diagnostics of a snippet become ascending lines within the snippet, the codes of the report, and
a message with an entry for each diagnostic. The lines depend on the places of the diagnostics
alone, not on their order, and a later place is never on an earlier line.
-/

namespace DocSnippets

open Text

namespace Text

theorem takeBytes_prefix_of_le {a b : Nat} (h : a ≤ b) (text : List Char) :
    takeBytes a text <+: takeBytes b text := by
  induction text generalizing a b with
  | nil => rw [takeBytes, takeBytes]
  | cons c text ih =>
    rw [takeBytes, takeBytes]
    by_cases ha : a = 0
    · rw [if_pos ha]
      exact List.nil_prefix
    · have hb : ¬ b = 0 := by omega
      rw [if_neg ha, if_neg hb]
      exact List.prefix_cons_inj c |>.mpr (ih (Nat.sub_le_sub_right h _))

end Text

/-- A later place is not on an earlier line, also behind the end of the text. -/
theorem Diagnostic.snippetLine_monotone (submitted : List Char) (wrapping : Snippet.Wrapping)
    (lineCount : Nat) :
    Monotone fun offset => snippetLine submitted offset wrapping lineCount := by
  intro a b h
  have hcount := (takeBytes_prefix_of_le h submitted).sublist.count_le '\n'
  unfold snippetLine
  dsimp only
  omega

namespace Mapped

theorem insertAscending_ascending {lines : List Nat} (h : lines.Pairwise (· < ·)) (n : Nat) :
    (insertAscending n lines).Pairwise (· < ·) := by
  induction lines with
  | nil => exact List.pairwise_singleton _ n
  | cons m rest ih =>
    obtain ⟨hm, hrest⟩ := List.pairwise_cons.mp h
    rw [insertAscending]
    split
    · next hlt =>
      refine List.pairwise_cons.mpr ⟨fun k hk => ?_, h⟩
      rcases List.mem_cons.mp hk with rfl | hk
      · exact hlt
      · exact hlt.trans (hm k hk)
    · split
      · exact h
      · next hge hne =>
        refine List.pairwise_cons.mpr ⟨fun k hk => ?_, ih hrest⟩
        rcases mem_insertAscending.mp hk with rfl | hk
        · omega
        · exact hm k hk

theorem foldl_insertAscending_ascending {lines : List Nat} (h : lines.Pairwise (· < ·))
    (new : List Nat) : (new.foldl (fun acc n => insertAscending n acc) lines).Pairwise (· < ·) := by
  induction new generalizing lines with
  | nil => exact h
  | cons n new ih => exact ih (insertAscending_ascending h n)

variable {list : List Diagnostic} {p : Prepared} {s : Scrubber}

theorem lines_ascending : (ofDiagnostics list p s).lines.Pairwise (· < ·) :=
  foldl_insertAscending_ascending .nil _

theorem lineOf_eq_some_iff {d : Diagnostic} {line : Nat} :
    lineOf p d = some line ↔ ∃ offset, d.offset = some offset ∧ p.lineAt offset = line :=
  Option.map_eq_some_iff

/-- Ascending lines are determined by which lines they are, so the order of the diagnostics does not
matter. -/
theorem lines_perm {other : List Diagnostic} (h : list.Perm other) :
    (ofDiagnostics other p s).lines = (ofDiagnostics list p s).lines := by
  refine lines_ascending.eq_of_mem_iff lines_ascending fun line => ?_
  rw [mem_lines, mem_lines]
  simp only [h.mem_iff]

/-- The entry of a diagnostic: the label of the block, and the scrubbed text at the end. -/
def Tells (file : Path) (b : Block) (d : Diagnostic) (entry : List Char) : Prop :=
  ∃ middle, entry =
    b.label.toList ++ (middle ++ (Scrubber.ofSnippet file b).scrub d.text.toList)

theorem entry_tells (p : Prepared) (file : Path) (b : Block) (d : Diagnostic) :
    Tells file b d (entry (.ofSnippet file b) p d) := by
  unfold entry
  dsimp only
  split
  · next line _ =>
    refine ⟨" (line ".toList ++ (Nat.toDigits 10 line ++ "): ".toList), ?_⟩
    simp only [Scrubber.ofSnippet, List.append_assoc]
  · refine ⟨": ".toList, ?_⟩
    simp only [Scrubber.ofSnippet, List.append_assoc]

theorem message_eq_onLines {file : Path} {b : Block} (h : list ≠ []) :
    ∃ entries, List.Forall₂ (Tells file b) list entries ∧
      (ofDiagnostics list p (.ofSnippet file b)).message.toList = onLines entries := by
  refine ⟨list.map (entry (.ofSnippet file b) p), ?_, ?_⟩
  · rw [List.forall₂_map_right_iff]
    exact List.forall₂_same.mpr fun d _ => entry_tells p file b d
  · rw [ofDiagnostics]
    dsimp only
    rw [if_neg (mt List.map_eq_nil_iff.mp h), String.toList_ofList]

theorem map_some_codes :
    (ofDiagnostics list p s).codes.map some = (list.map (·.code)).filter Option.isSome := by
  rw [ofDiagnostics]
  dsimp only
  induction list with
  | nil => rfl
  | cons d rest ih => cases hcode : d.code <;> simp [hcode, ih]

/-- What the diagnostics of a snippet become, with the label of a block. -/
structure Summarized (list : List Diagnostic) (p : Prepared) (file : Path) (b : Block)
    (m : Mapped) : Prop where
  ascending : m.lines.Pairwise (· < ·)
  bounded : ∀ line ∈ m.lines, 1 ≤ line ∧ line ≤ p.block.lineCount
  placed : ∀ line, line ∈ m.lines ↔
    ∃ d ∈ list, ∃ offset, d.offset = some offset ∧ p.lineAt offset = line
  /-- The codes that there are, in the order of the report and as often as there. -/
  codes : m.codes.map some = (list.map (·.code)).filter Option.isSome
  /-- One entry for each diagnostic, in order. -/
  message : list ≠ [] →
    ∃ entries, List.Forall₂ (Tells file b) list entries ∧ m.message.toList = onLines entries
  fallback : list = [] →
    m.message.toList = b.label.toList ++ ": compilation failed without diagnostics".toList
  permuted : ∀ other, list.Perm other →
    (ofDiagnostics other p (.ofSnippet file b)).lines = m.lines

/-- The summary of any diagnostics; the lines in it are those of offsets, and these never go down
where offsets go up. -/
theorem ofDiagnostics_summarized (list : List Diagnostic) (p : Prepared) (file : Path)
    (b : Block) :
    Summarized list p file b (ofDiagnostics list p (.ofSnippet file b)) ∧
      ∀ submitted wrapping lineCount,
        Monotone fun offset => Diagnostic.snippetLine submitted offset wrapping lineCount := by
  refine ⟨?_, Diagnostic.snippetLine_monotone⟩
  have hplaced (line : Nat) : line ∈ (ofDiagnostics list p (.ofSnippet file b)).lines ↔
      ∃ d ∈ list, ∃ offset, d.offset = some offset ∧ p.lineAt offset = line := by
    simp only [mem_lines, lineOf_eq_some_iff]
  constructor
  case ascending => exact lines_ascending
  case bounded =>
    intro line hline
    obtain ⟨d, -, offset, -, rfl⟩ := (hplaced line).mp hline
    exact p.lineAt_bounds offset
  case placed => exact hplaced
  case codes => exact map_some_codes
  case message => exact message_eq_onLines
  case fallback =>
    rintro rfl
    simp [ofDiagnostics, onLines, emptyEntry, Scrubber.ofSnippet]
  case permuted => exact fun other h => lines_perm h

end Mapped

end DocSnippets
