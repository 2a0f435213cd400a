import DocSnippets.Proofs.Snippet.LineMapping
import DocSnippets.Proofs.Snippet.ModuleSyntax

/-!
# Isolation of localized snippets

A quote in an opening is its last character, and no line starts between the quotes of a self-import.
So what stands between them has no part in the decision whether a snippet is isolated, and the
localized snippet is treated like the one in the documentation.
-/

namespace DocSnippets.Snippet

open Text

variable {front piece piece' back head source text : List Char} {quote : Char} {package : Package}

theorem IsOpening.quote_notMem (h : IsOpening head) (hquote : isQuote quote = true) :
    quote ∉ head.dropLast := by
  have hquote' : isIndent quote = false := by
    rcases isQuote_iff.mp hquote with rfl | rfl <;> decide
  cases h with
  | @keyword indent word follow next hword hindent hnext =>
    have hletters : ∀ k ∈ keywords, quote ∉ k.1 := by
      rcases isQuote_iff.mp hquote with rfl | rfl <;> decide
    rw [← List.append_assoc, List.dropLast_concat, List.mem_append, not_or]
    exact ⟨notMem_indent hquote' hindent, hletters _ hword⟩
  | @reference indent blanks hindent hblanks =>
    have hletters : quote ∉ slashes ∧ quote ∉ directive := by
      rcases isQuote_iff.mp hquote with rfl | rfl <;> decide
    have hblank : quote ∉ blanks := fun hmem =>
      not_isBlank_of_isQuote hquote (hblanks _ hmem)
    intro hmem
    simpa [notMem_indent hquote' hindent, hletters, hblank] using List.mem_of_mem_dropLast hmem

/-- No line starts behind a quote before the next newline. -/
theorem not_startsLine_behind_quote (hquote : isQuote quote = true) (hpiece : '\n' ∉ piece)
    (front : List Char) : ¬ StartsLine (front ++ quote :: piece) := by
  intro h
  have hstarts := (startsLine_append_iff (List.cons_ne_nil quote piece)).mp h
  rcases List.mem_cons.mp (hstarts.mem_newline (List.cons_ne_nil quote piece)) with rfl | hmem
  · exact absurd hquote (by decide)
  · exact hpiece hmem

/-- An opening on a line that starts before a quote ends with it at the latest. -/
theorem IsOpening.prefix_of_quote {gap rest : List Char} (h : IsOpening head)
    (hquote : isQuote quote = true) (htext : head ++ rest = gap ++ quote :: back) :
    head <+: gap ++ [quote] := by
  have hsplit : head ++ rest = (gap ++ [quote]) ++ back := by simpa using htext
  rcases Nat.le_total head.length (gap ++ [quote]).length with hle | hle
  · obtain ⟨tail, htail, -⟩ := exists_append_of_length_le hsplit hle
    exact ⟨tail, htail.symm⟩
  · obtain ⟨tail, rfl, -⟩ := exists_append_of_length_le hsplit.symm hle
    by_cases hnil : tail = []
    · rw [hnil, List.append_nil]
    · refine absurd ?_ (h.quote_notMem hquote)
      rw [List.dropLast_append_of_ne_nil hnil]
      simp

/-- What stands behind a quote and holds no newline can be replaced by another text. -/
theorem hasModuleSyntax_of_replaced (hquote : isQuote quote = true) (hpiece : '\n' ∉ piece)
    (h : hasModuleSyntax (front ++ quote :: (piece ++ back)) = true) (piece' : List Char) :
    hasModuleSyntax (front ++ quote :: (piece' ++ back)) = true := by
  obtain ⟨before, head, rest, htext, hbefore, hhead⟩ := hasModuleSyntax_iff.mp h
  rcases Nat.lt_or_ge front.length before.length with hlt | hle
  · -- The line starts behind the quote, and then behind the piece.
    have hsplit : before ++ (head ++ rest) = (front ++ [quote]) ++ (piece ++ back) := by
      rw [← htext]
      simp
    have hstart : (front ++ [quote]).length ≤ before.length := by
      rw [List.length_append]
      exact hlt
    rcases Nat.lt_or_ge (front ++ [quote] ++ piece).length before.length with hlong | hshort
    · obtain ⟨gap, rfl, rfl⟩ := exists_append_of_length_le
        (by rw [hsplit, List.append_assoc (front ++ [quote])]) hlong.le
      have hgap : gap ≠ [] := by
        rintro rfl
        simp at hlong
      rw [startsLine_append_iff hgap] at hbefore
      exact hasModuleSyntax_iff.mpr ⟨(front ++ quote :: piece') ++ gap, head, rest, by simp,
        (startsLine_append_iff hgap).mpr hbefore, hhead⟩
    · obtain ⟨left, right, rfl, rfl, -⟩ := exists_append_of_between hsplit hstart hshort
      have hleft : '\n' ∉ left := fun hmem => hpiece (List.mem_append_left _ hmem)
      exact absurd (by simpa using hbefore) (not_startsLine_behind_quote hquote hleft front)
  · obtain ⟨gap, rfl, hrest⟩ := exists_append_of_length_le htext.symm hle
    obtain ⟨tail, htail⟩ := hhead.prefix_of_quote hquote hrest
    refine hasModuleSyntax_iff.mpr
      ⟨before, head, tail ++ (piece' ++ back), ?_, hbefore, hhead⟩
    rw [← List.append_assoc head, htail]
    simp

theorem hasModuleSyntax_replaced (hquote : isQuote quote = true) (hpiece : '\n' ∉ piece)
    (hpiece' : '\n' ∉ piece') (front back : List Char) :
    hasModuleSyntax (front ++ quote :: (piece ++ back)) =
      hasModuleSyntax (front ++ quote :: (piece' ++ back)) :=
  Bool.eq_iff_iff.mpr ⟨fun h => hasModuleSyntax_of_replaced hquote hpiece h piece',
    fun h => hasModuleSyntax_of_replaced hquote hpiece' h piece⟩

/-- The localized segments before a specifier end with its opening quote. -/
theorem localized_ends_with_quote {before after : List Segment} {n head : List Char}
    {subpath : Option (List Char)}
    (hsegments : segments package.name.toList source = before ++ .specifier n subpath :: after)
    (hhead : localizeSegments package before = .ok head) :
    ∃ front quote, head = front ++ [quote] ∧ isQuote quote = true := by
  obtain ⟨text, k, segs, rest, hk, -, -, -, rfl, -⟩ := ofCandidate_of_segmentsFrom hsegments
  obtain ⟨first, last, -, hlast, rfl⟩ := localizeSegments_append hhead
  obtain ⟨piece, tail, hpiece, htail, rfl⟩ := localizeSegments_cons hlast
  obtain rfl := Except.ok.inj hpiece
  obtain rfl := Except.ok.inj htail
  exact ⟨first ++ k.lead, k.opening, by simp, candidate?_opening hk⟩

/-- Behind what is localized already, localizing the rest has no influence. -/
theorem hasModuleSyntax_localizeSegments (hp : package.OneLine) {before after : List Segment}
    {head tail : List Char}
    (hsegments : segments package.name.toList source = before ++ after)
    (hhead : localizeSegments package before = .ok head)
    (htail : localizeSegments package after = .ok tail) :
    hasModuleSyntax (head ++ tail) = hasModuleSyntax (head ++ textOf after) := by
  -- Induction on what is left: one specifier changes at a time, behind a text that does not.
  induction after generalizing before head tail with
  | nil =>
    obtain rfl := Except.ok.inj htail
    rfl
  | cons s rest ih =>
    obtain ⟨piece, more, hpiece, hmore, rfl⟩ := localizeSegments_cons htail
    have hsegments' : segments package.name.toList source = (before ++ [s]) ++ rest := by
      rw [hsegments, List.append_assoc, List.singleton_append]
    have hsingle : localizeSegments package [s] = .ok piece := by
      rw [localizeSegments, hpiece]
      exact congrArg Except.ok (List.append_nil piece)
    have hstep := ih hsegments' (localizeSegments_append_of_ok hhead hsingle) hmore
    rw [← List.append_assoc, hstep, List.append_assoc, textOf_cons]
    cases s with
    | verbatim text =>
      obtain rfl := Except.ok.inj hpiece
      rfl
    | specifier n subpath =>
      have hquoted := quoted_of_segments hsegments
      obtain ⟨front, quote, rfl, hquote⟩ := localized_ends_with_quote hsegments hhead
      simpa using hasModuleSyntax_replaced hquote
        (localPath_oneLine hp hquoted.subpath_oneLine hpiece) (hquoted.text_oneLine hp.name)
        front (textOf rest)

theorem hasModuleSyntax_localize (hp : package.OneLine) (h : localize package source = .ok text) :
    hasModuleSyntax text = hasModuleSyntax source := by
  have hsegments : segments package.name.toList source =
      [] ++ segments package.name.toList source := rfl
  have hkept := hasModuleSyntax_localizeSegments hp hsegments rfl h
  rwa [List.nil_append, List.nil_append, textOf_segments] at hkept

theorem wrapping_eq (text : List Char) (enabled : Bool) :
    (wrap text enabled).2 = if !enabled || hasModuleSyntax text then .module else .isolated := by
  rw [wrap]
  split <;> rfl

/-- A localized snippet has module syntax exactly if it has it as written, and a block with this
source is prepared as the source itself would be wrapped. -/
theorem localize_keeps_wrapping (hp : package.OneLine) (h : localize package source = .ok text) :
    hasModuleSyntax text = hasModuleSyntax source ∧
      ∀ (enabled : Bool) (block : Block), block.source.toList = source →
        ∃ p, Prepared.ofBlock package enabled block = .ok p ∧ p.block = block ∧
          p.submitted.toList = (wrap text enabled).1 ∧
          p.wrapping = (wrap source enabled).2 ∧
          p.wrapping.lineOffset = (wrap source enabled).2.lineOffset := by
  have hkept := hasModuleSyntax_localize hp h
  refine ⟨hkept, fun enabled block hblock => ?_⟩
  have hwrapping : (wrap text enabled).2 = (wrap source enabled).2 := by
    rw [wrapping_eq, wrapping_eq, hkept]
  refine ⟨Prepared.ofText block text enabled, ?_, rfl, String.toList_ofList, hwrapping,
    congrArg Wrapping.lineOffset hwrapping⟩
  rw [Prepared.ofBlock, hblock, h]
  rfl

/-- A block whose self-import is the opening of its module syntax as well. -/
def effectBlock : Block where
  file := ⟨"guide.md"⟩
  index := 1
  source := "import 'pkg'\nlog()\n"
  dialect := .typescript

theorem effectBlock_wrapping :
    Prepared.servedPackage.OneLine ∧
      localize Prepared.servedPackage effectBlock.source.toList =
        .ok "import '/work/lib/index'\nlog()\n".toList ∧
      hasModuleSyntax "import '/work/lib/index'\nlog()\n".toList = true ∧
      ∃ p, Prepared.ofBlock Prepared.servedPackage true effectBlock = .ok p ∧
        p.wrapping = .module ∧ p.wrapping.lineOffset = 0 := by
  have hlocal : localize Prepared.servedPackage effectBlock.source.toList =
      .ok "import '/work/lib/index'\nlog()\n".toList := by decide +kernel
  have hsource : hasModuleSyntax effectBlock.source.toList = true := by decide
  have hwrap : (wrap effectBlock.source.toList true).2 = .module := by decide
  obtain ⟨hkept, hprepared⟩ := localize_keeps_wrapping Prepared.servedPackage_oneLine hlocal
  obtain ⟨p, hp, -, -, hwrapping, -⟩ := hprepared true effectBlock rfl
  rw [hwrap] at hwrapping
  exact ⟨Prepared.servedPackage_oneLine, hlocal, hkept.trans hsource, p, hp, hwrapping,
    congrArg Wrapping.lineOffset hwrapping⟩

end DocSnippets.Snippet
