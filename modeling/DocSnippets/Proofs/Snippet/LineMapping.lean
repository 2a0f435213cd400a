import DocSnippets.Diagnostic.Position
import DocSnippets.Proofs.Snippet.Segments
import DocSnippets.Proofs.Text.Positions
import DocSnippets.Snippet.Prepared

/-!
# The line mapping

A prepared snippet is the wrapper's opening, the localized segments in order, and an end. An offset
into a kept segment maps to the line of the same character in the documentation, an offset into a
rewritten specifier to the line of that specifier, and any other offset to some line of the snippet.
-/

namespace DocSnippets

open Text

/-- What a wrapping puts above a snippet. -/
def Snippet.Wrapping.opening : Snippet.Wrapping → List Char
  | .module => []
  | .isolated => wrapperOpen

namespace Prepared

def lineAt (p : Prepared) (offset : Nat) : Nat :=
  Diagnostic.snippetLine p.submitted.toList offset p.wrapping p.block.lineCount

/-- Where a segment of the block stands in the submitted text: `head` are the localized segments
before it, `piece` is the segment itself as it was localized. -/
structure Layout (package : Package) (p : Prepared) (before : List Snippet.Segment)
    (s : Snippet.Segment) (head piece tail : List Char) : Prop where
  head_eq : Snippet.localizeSegments package before = .ok head
  piece_eq : s.localize package = .ok piece
  submitted : p.submitted.toList = p.wrapping.opening ++ head ++ (piece ++ tail)

/-- The line mapping of a prepared snippet is exact. The bytes of the block are those of its
segments one after the other; offset `k` of a segment's text is the byte of the block that many
bytes behind the segments before it. -/
structure LinesExact (package : Package) (p : Prepared) : Prop where
  covered : Snippet.textOf (Snippet.segments package.name.toList p.block.source.toList) =
    p.block.source.toList
  placed : ∀ before s after,
    Snippet.segments package.name.toList p.block.source.toList = before ++ s :: after →
      ∃ head piece tail, Layout package p before s head piece tail
  kept : ∀ before text after head piece tail,
    Snippet.segments package.name.toList p.block.source.toList = before ++ .verbatim text :: after →
      Layout package p before (.verbatim text) head piece tail → piece = text ∧
        ∀ k < byteLength text, p.lineAt (byteLength (p.wrapping.opening ++ head) + k) =
          1 + (takeBytes (byteLength (Snippet.textOf before) + k) p.block.source.toList).count '\n'
  rewritten : ∀ before name subpath after head piece tail,
    Snippet.segments package.name.toList p.block.source.toList =
        before ++ .specifier name subpath :: after →
      Layout package p before (.specifier name subpath) head piece tail →
        '\n' ∉ (Snippet.Segment.specifier name subpath).text ∧
        ∀ k < byteLength piece, p.lineAt (byteLength (p.wrapping.opening ++ head) + k) =
          1 + (Snippet.textOf before).count '\n'
  bounded : ∀ offset, 1 ≤ p.lineAt offset ∧ p.lineAt offset ≤ p.block.lineCount

end Prepared

namespace Snippet

theorem count_opening (w : Wrapping) : w.opening.count '\n' = w.lineOffset := by
  cases w <;> decide

theorem wrap_eq (text : List Char) (enabled : Bool) :
    ∃ tail, (wrap text enabled).1 = (wrap text enabled).2.opening ++ (text ++ tail) := by
  unfold wrap
  split
  · exact ⟨[], by simp [Wrapping.opening]⟩
  · unfold isolate
    dsimp only
    split
    · exact ⟨wrapperClose, rfl⟩
    · refine ⟨'\n' :: wrapperClose, ?_⟩
      simp [Wrapping.opening]

end Snippet

namespace Prepared

variable {package : Package} {p : Prepared}

theorem lineCount_pos (b : Block) : 1 ≤ b.lineCount := Nat.le_max_left _ _

theorem lineAt_bounds (p : Prepared) (offset : Nat) :
    1 ≤ p.lineAt offset ∧ p.lineAt offset ≤ p.block.lineCount := by
  have hpos := lineCount_pos p.block
  unfold lineAt Diagnostic.snippetLine
  dsimp only
  omega

theorem lineAt_of_count {offset line : Nat}
    (hcount : (takeBytes offset p.submitted.toList).count '\n' = p.wrapping.lineOffset + line)
    (hline : line < p.block.lineCount) : p.lineAt offset = 1 + line := by
  unfold lineAt Diagnostic.snippetLine
  dsimp only
  rw [hcount]
  omega

theorem lt_lineCount {b : Block} {before after : List Char} {c : Char}
    (h : b.source.toList = before ++ c :: after) : before.count '\n' < b.lineCount := by
  have hlt := count_newline_lt before c after
  unfold Block.lineCount
  rw [length_lines, h]
  omega

theorem ofBlock_eq_ok {wrapEnabled : Bool} {block : Block}
    (h : ofBlock package wrapEnabled block = .ok p) :
    p.block = block ∧ ∃ localized tail,
      Snippet.localize package block.source.toList = .ok localized ∧
        p.submitted.toList = p.wrapping.opening ++ (localized ++ tail) := by
  unfold ofBlock at h
  cases hlocal : Snippet.localize package block.source.toList with
  | error e => rw [hlocal] at h; cases h
  | ok localized =>
    rw [hlocal] at h
    cases h
    obtain ⟨tail, htail⟩ := Snippet.wrap_eq localized wrapEnabled
    refine ⟨rfl, localized, tail, rfl, ?_⟩
    exact (String.toList_ofList).trans htail

namespace Layout

variable {before : List Snippet.Segment} {s : Snippet.Segment} {head piece tail : List Char}

/-- The newlines before an offset into a placed segment: the wrapper's, those of the segments before
it, and those before the offset in the segment. -/
theorem count_takeBytes (h : Layout package p before s head piece tail) (hp : package.OneLine)
    {after : List Snippet.Segment}
    (hsegments : Snippet.segments package.name.toList p.block.source.toList = before ++ s :: after)
    {k : Nat} (hk : k < byteLength piece) :
    (takeBytes (byteLength (p.wrapping.opening ++ head) + k) p.submitted.toList).count '\n' =
      p.wrapping.lineOffset +
        ((Snippet.textOf before).count '\n' + (takeBytes k piece).count '\n') := by
  rw [h.submitted, takeBytes_add, takeBytes_append_of_le hk.le, List.count_append,
    List.count_append, Snippet.count_opening, Snippet.count_localizeSegments hp hsegments h.head_eq]
  omega

end Layout

/-- Every offset into a prepared snippet maps to its line in the documentation. -/
theorem ofBlock_linesExact (hp : package.OneLine) {wrapEnabled : Bool} {block : Block}
    (h : ofBlock package wrapEnabled block = .ok p) : p.block = block ∧ LinesExact package p := by
  obtain ⟨hblock, localized, tail, hlocal, hsubmitted⟩ := ofBlock_eq_ok h
  refine ⟨hblock, ?_⟩
  rw [← hblock] at hlocal
  have hcovered := Snippet.textOf_segments package.name.toList p.block.source.toList
  constructor
  case covered => exact hcovered
  case placed =>
    intro before s after hsegments
    rw [Snippet.localize, hsegments] at hlocal
    obtain ⟨head, rest, hhead, hrest, rfl⟩ := Snippet.localizeSegments_append hlocal
    obtain ⟨piece, more, hpiece, -, rfl⟩ := Snippet.localizeSegments_cons hrest
    refine ⟨head, piece, more ++ tail, hhead, hpiece, ?_⟩
    rw [hsubmitted]
    simp only [List.append_assoc]
  case kept =>
    intro before text after head piece rest hsegments hlayout
    obtain rfl : text = piece := Except.ok.inj hlayout.piece_eq
    refine ⟨rfl, fun k hk => ?_⟩
    have hsource : p.block.source.toList =
        Snippet.textOf before ++ (text ++ Snippet.textOf after) := by
      rw [← hcovered, hsegments, Snippet.textOf_append, Snippet.textOf_cons, Snippet.Segment.text]
    obtain ⟨start, c, stop, htext, hcount⟩ := exists_char_of_lt hk
    have hline : (Snippet.textOf before).count '\n' + (takeBytes k text).count '\n' <
        p.block.lineCount := by
      have hchar : p.block.source.toList =
          (Snippet.textOf before ++ start) ++ c :: (stop ++ Snippet.textOf after) := by
        rw [hsource, htext]
        simp only [List.append_assoc, List.cons_append]
      rw [hcount, ← List.count_append]
      exact lt_lineCount hchar
    rw [lineAt_of_count (hlayout.count_takeBytes hp hsegments hk) hline, hsource, takeBytes_add,
      takeBytes_append_of_le hk.le, List.count_append]
  case rewritten =>
    intro before name subpath after head piece rest hsegments hlayout
    have hquoted := Snippet.quoted_of_segments hsegments
    refine ⟨hquoted.text_oneLine hp.name, fun k hk => ?_⟩
    obtain ⟨quote, others, rfl⟩ := hquoted.closed
    -- The closing quote is a character on the line of the specifier.
    have hline : (Snippet.textOf before).count '\n' < p.block.lineCount := by
      have hsource : p.block.source.toList =
          (Snippet.textOf before ++ (Snippet.Segment.specifier name subpath).text) ++
            quote :: Snippet.textOf others := by
        rw [← hcovered, hsegments]
        simp only [Snippet.textOf_append, Snippet.textOf_cons, List.append_assoc]
        rfl
      have hlt := lt_lineCount hsource
      rw [List.count_append] at hlt
      omega
    have hpiece : (takeBytes k piece).count '\n' = 0 := by
      obtain ⟨start, c, stop, htext, hcount⟩ := exists_char_of_lt hk
      rw [hcount, List.count_eq_zero]
      intro hmem
      refine Snippet.localPath_oneLine hp hquoted.subpath_oneLine hlayout.piece_eq ?_
      rw [htext]
      exact List.mem_append_left _ hmem
    refine lineAt_of_count ?_ hline
    rw [hlayout.count_takeBytes hp hsegments hk, hpiece, Nat.add_zero]
  case bounded => exact lineAt_bounds p

def servedPackage : Package where
  name := "pkg"
  main := none
  root := ⟨"/work"⟩
  exports := some (.map [(".", .path "./lib/index.ts")])

/-- A script without a newline at its end, with a carriage return and a self-import. -/
def scriptBlock : Block where
  file := ⟨"guide.md"⟩
  index := 1
  source := "use(require('pkg'))\r\nlog()"
  dialect := .typescript

def wrappedScript : Prepared where
  block := scriptBlock
  submitted := "(async () => \x7b\nuse(require('/work/lib/index'))\r\nlog()\n\x7d)();\n"
  wrapping := .isolated

theorem servedPackage_oneLine : servedPackage.OneLine where
  name := by decide
  root := by decide
  declared := by
    rintro text (hmain | ⟨target, hexports, hdeclares⟩)
    · cases hmain
    · cases hexports
      cases hdeclares with
      | entry hmem hpath =>
        obtain ⟨-, rfl⟩ := Prod.mk.inj (List.mem_singleton.mp hmem)
        cases hpath
        decide

theorem scriptBlock_linesExact :
    servedPackage.OneLine ∧ ofBlock servedPackage true scriptBlock = .ok wrappedScript ∧
      wrappedScript.block = scriptBlock ∧ LinesExact servedPackage wrappedScript := by
  have hblock : ofBlock servedPackage true scriptBlock = .ok wrappedScript := by decide +kernel
  exact ⟨servedPackage_oneLine, hblock, ofBlock_linesExact servedPackage_oneLine hblock⟩

end Prepared

end DocSnippets
