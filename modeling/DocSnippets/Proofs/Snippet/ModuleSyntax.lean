import DocSnippets.Proofs.Text.LineStarts
import DocSnippets.Proofs.Text.Occurrences
import DocSnippets.Snippet.Wrapping

/-!
# Module syntax

A snippet has module syntax if an opening stands at one of its line starts: a keyword with one of
the characters that may follow it, or a reference directive, behind spaces and tabs. An opening
with a keyword lies on one line. The blanks of a reference directive may be newlines, so that one
can begin on a line and end on another.
-/

namespace DocSnippets.Snippet

open Text

def isIndent (c : Char) : Bool := c = ' ' || c = '\t'

/-- The keywords that open module syntax, with the characters that may follow each, blanks aside. -/
def keywords : List (List Char × List Char) :=
  [("import".toList, "\x7b*'\"".toList), ("export".toList, "\x7b*".toList),
    ("declare".toList, []), ("namespace".toList, []), ("module".toList, [])]

def slashes : List Char := "///".toList

def directive : List Char := "<reference".toList

/-- A text that makes a line module syntax, up to its last character. -/
inductive IsOpening : List Char → Prop
  | keyword {indent word follow : List Char} {next : Char} (hword : (word, follow) ∈ keywords)
      (hindent : ∀ c ∈ indent, isIndent c = true) (hnext : isBlank next = true ∨ next ∈ follow) :
      IsOpening (indent ++ (word ++ [next]))
  | reference {indent blanks : List Char} (hindent : ∀ c ∈ indent, isIndent c = true)
      (hblanks : ∀ c ∈ blanks, isBlank c = true) :
      IsOpening (indent ++ (slashes ++ (blanks ++ directive)))

variable {text indent word follow head before rest : List Char} {next : Char}

theorem startsWithKeyword_iff {keyword : List Char} {accepts : Char → Bool} :
    startsWithKeyword keyword accepts text = true ↔
      ∃ c rest, text = keyword ++ c :: rest ∧ accepts c = true := by
  rw [startsWithKeyword]
  constructor
  · intro h
    split at h
    · next c rest hrest => exact ⟨c, rest, eq_append_of_isPrefixOf? hrest, h⟩
    · cases h
  · rintro ⟨c, rest, rfl, hc⟩
    rw [isPrefixOf?_append]
    exact hc

/-- Whether a text without indentation starts with a reference directive. -/
def opensReference (text : List Char) : Bool :=
  match slashes.isPrefixOf? text with
  | some rest => directive.isPrefixOf (trimStart rest)
  | none => false

theorem opensReference_iff :
    opensReference text = true ↔ ∃ blanks rest, text = slashes ++ (blanks ++ (directive ++ rest)) ∧
      ∀ c ∈ blanks, isBlank c = true := by
  rw [opensReference]
  constructor
  · intro h
    split at h
    · next rest hrest =>
      obtain ⟨tail, htail⟩ := List.isPrefixOf_iff_prefix.mp h
      refine ⟨rest.takeWhile isBlank, tail, ?_, fun c hc => ?_⟩
      · rw [htail, trimStart, List.takeWhile_append_dropWhile]
        exact eq_append_of_isPrefixOf? hrest
      · have hall : (rest.takeWhile isBlank).all isBlank = true := List.all_takeWhile
        exact List.all_eq_true.mp hall c hc
    · cases h
  · rintro ⟨blanks, rest, rfl, hblanks⟩
    rw [isPrefixOf?_append]
    obtain ⟨tail, htail⟩ := List.head?_eq_some_iff.mp (show directive.head? = some '<' by decide)
    refine List.isPrefixOf_iff_prefix.mpr ⟨rest, ?_⟩
    rw [trimStart, List.dropWhile_append_of_pos hblanks, htail, List.cons_append,
      List.dropWhile_cons_of_neg (by decide)]

theorem opensModule_eq (text : List Char) :
    opensModule text = (keywords.any (fun k => startsWithKeyword k.1
      (fun c => isBlank c || k.2.contains c) (text.dropWhile isIndent)) ||
        opensReference (text.dropWhile isIndent)) := by
  have hplain : (fun c => isBlank c || ([] : List Char).contains c) = isBlank := by
    funext c
    rw [List.contains_nil, Bool.or_false]
  unfold opensModule opensReference slashes directive isIndent
  dsimp only
  cases "///".toList.isPrefixOf? _ <;>
    simp only [keywords, List.any_cons, List.any_nil, hplain, Bool.or_false, Bool.or_assoc]

theorem dropWhile_isIndent (hindent : ∀ c ∈ indent, isIndent c = true)
    (hword : word.head?.any (fun c => !isIndent c) = true) (rest : List Char) :
    (indent ++ (word ++ rest)).dropWhile isIndent = word ++ rest := by
  rw [List.dropWhile_append_of_pos hindent]
  cases word with
  | nil => cases hword
  | cons c word => exact List.dropWhile_cons_of_neg (by simpa using hword)

theorem opensModule_iff :
    opensModule text = true ↔ ∃ head, IsOpening head ∧ head <+: text := by
  rw [opensModule_eq, Bool.or_eq_true, List.any_eq_true]
  constructor
  · intro h
    have hall : (text.takeWhile isIndent).all isIndent = true := List.all_takeWhile
    have hindent := List.all_eq_true.mp hall
    rcases h with ⟨⟨word, follow⟩, hword, hstarts⟩ | hreference
    · obtain ⟨next, rest, hrest, hnext⟩ := startsWithKeyword_iff.mp hstarts
      refine ⟨_, .keyword hword hindent (by simpa using hnext), rest, ?_⟩
      conv_rhs => rw [← List.takeWhile_append_dropWhile (p := isIndent) (l := text), hrest]
      simp
    · obtain ⟨blanks, rest, hrest, hblanks⟩ := opensReference_iff.mp hreference
      refine ⟨_, .reference hindent hblanks, rest, ?_⟩
      conv_rhs => rw [← List.takeWhile_append_dropWhile (p := isIndent) (l := text), hrest]
      simp
  · rintro ⟨head, hhead, rest, rfl⟩
    cases hhead with
    | @keyword indent word follow next hword hindent hnext =>
      have hletter : ∀ k ∈ keywords, k.1.head?.any (fun c => !isIndent c) = true := by decide
      refine Or.inl ⟨(word, follow), hword, startsWithKeyword_iff.mpr ⟨next, rest, ?_, ?_⟩⟩
      · rw [List.append_assoc, List.append_assoc, dropWhile_isIndent hindent (hletter _ hword)]
        rfl
      · simpa using hnext
    | @reference indent blanks hindent hblanks =>
      refine Or.inr (opensReference_iff.mpr ⟨blanks, rest, ?_, hblanks⟩)
      rw [List.append_assoc, List.append_assoc, dropWhile_isIndent hindent (by decide),
        List.append_assoc]

theorem mem_belowNewlines_iff {tail : List Char} :
    tail ∈ belowNewlines text ↔ ∃ before, text = before ++ '\n' :: tail := by
  induction text with
  | nil => simp [belowNewlines]
  | cons c text ih =>
    rw [belowNewlines]
    constructor
    · intro h
      split at h
      · next hc =>
        rcases List.mem_cons.mp h with rfl | h
        · exact ⟨[], by rw [hc]; rfl⟩
        · obtain ⟨before, rfl⟩ := ih.mp h
          exact ⟨c :: before, rfl⟩
      · obtain ⟨before, rfl⟩ := ih.mp h
        exact ⟨c :: before, rfl⟩
    · rintro ⟨before, hbefore⟩
      cases before with
      | nil =>
        obtain ⟨rfl, rfl⟩ := List.cons.inj hbefore
        rw [if_pos rfl]
        exact List.mem_cons_self
      | cons d before =>
        obtain ⟨rfl, hrest⟩ := List.cons.inj hbefore
        have hmem := ih.mpr ⟨before, hrest⟩
        split
        · exact List.mem_cons_of_mem _ hmem
        · exact hmem

/-- What is tried for module syntax is the text behind each line start. -/
theorem mem_starts_iff {tail : List Char} :
    tail ∈ text :: belowNewlines text ↔ ∃ before, text = before ++ tail ∧ StartsLine before := by
  rw [List.mem_cons, mem_belowNewlines_iff]
  constructor
  · rintro (rfl | ⟨before, rfl⟩)
    · exact ⟨[], rfl, startsLine_nil⟩
    · exact ⟨before ++ ['\n'], by simp, (startsLine_append_iff (List.cons_ne_nil _ _)).mpr
        fun c hc => (Option.some.inj hc).symm⟩
  · rintro ⟨before, rfl, hbefore⟩
    rcases List.eq_nil_or_concat before with rfl | ⟨front, last, rfl⟩
    · exact Or.inl rfl
    · obtain rfl := hbefore last (by simp)
      exact Or.inr ⟨front, by simp⟩

theorem hasModuleSyntax_iff :
    hasModuleSyntax text = true ↔
      ∃ before head rest, text = before ++ (head ++ rest) ∧ StartsLine before ∧ IsOpening head := by
  rw [hasModuleSyntax, List.any_eq_true]
  constructor
  · rintro ⟨tail, htail, hopens⟩
    obtain ⟨before, rfl, hbefore⟩ := mem_starts_iff.mp htail
    obtain ⟨head, hhead, rest, rfl⟩ := opensModule_iff.mp hopens
    exact ⟨before, head, rest, rfl, hbefore, hhead⟩
  · rintro ⟨before, head, rest, rfl, hbefore, hhead⟩
    exact ⟨head ++ rest, mem_starts_iff.mpr ⟨before, rfl, hbefore⟩,
      opensModule_iff.mpr ⟨head, hhead, head.prefix_append rest⟩⟩

theorem notMem_indent {c : Char} (hc : isIndent c = false)
    (hindent : ∀ c ∈ indent, isIndent c = true) : c ∉ indent :=
  fun h => Bool.false_ne_true (hc.symm.trans (hindent c h))

theorem IsOpening.ne_nil (h : IsOpening head) : head ≠ [] := by
  cases h with
  | keyword => simp
  | reference => simp [slashes]

/-- A reference directive whose slashes stand on another line than its word. -/
inductive IsSplitDirective : List Char → Prop
  | broken {indent blanks : List Char} (hindent : ∀ c ∈ indent, isIndent c = true)
      (hblanks : ∀ c ∈ blanks, isBlank c = true) (hnewline : '\n' ∈ blanks) :
      IsSplitDirective (indent ++ (slashes ++ (blanks ++ directive)))

theorem IsSplitDirective.isOpening (h : IsSplitDirective head) : IsOpening head := by
  cases h with
  | broken hindent hblanks hnewline => exact .reference hindent hblanks

/-- A text with such a directive at a line start. -/
def SplitReference (text : List Char) : Prop :=
  ∃ before head rest, text = before ++ (head ++ rest) ∧ StartsLine before ∧ IsSplitDirective head

theorem IsOpening.oneLine_or_split (h : IsOpening head) :
    '\n' ∉ head.dropLast ∨ IsSplitDirective head := by
  have hnewline' : isIndent '\n' = false := by decide
  cases h with
  | @keyword indent word follow next hword hindent hnext =>
    have hletters : ∀ k ∈ keywords, '\n' ∉ k.1 := by decide
    refine Or.inl ?_
    rw [← List.append_assoc, List.dropLast_concat, List.mem_append, not_or]
    exact ⟨notMem_indent hnewline' hindent, hletters _ hword⟩
  | @reference indent blanks hindent hblanks =>
    by_cases hnewline : '\n' ∈ blanks
    · exact Or.inr (.broken hindent hblanks hnewline)
    · refine Or.inl fun hmem => ?_
      have hslashes : '\n' ∉ slashes := by decide
      have hdirective : '\n' ∉ directive := by decide
      simpa [notMem_indent hnewline' hindent, hslashes, hnewline, hdirective] using
        List.mem_of_mem_dropLast hmem

theorem hasModuleSyntax_of_line {line : List Char} (hline : line ∈ segments text)
    (h : hasModuleSyntax line = true) : hasModuleSyntax text = true := by
  obtain ⟨above, below, rfl, habove⟩ := exists_eq_of_mem_segments hline
  obtain ⟨before, head, rest, rfl, hbefore, hhead⟩ := hasModuleSyntax_iff.mp h
  exact hasModuleSyntax_iff.mpr
    ⟨above ++ before, head, rest ++ below, by simp, habove.append hbefore, hhead⟩

theorem SplitReference.hasModuleSyntax (h : SplitReference text) : hasModuleSyntax text = true := by
  obtain ⟨before, head, rest, htext, hbefore, hsplit⟩ := h
  exact hasModuleSyntax_iff.mpr ⟨before, head, rest, htext, hbefore, hsplit.isOpening⟩

/-- Module syntax is found on a line of its own, or in a reference directive over several lines. -/
theorem hasModuleSyntax_iff_line :
    hasModuleSyntax text = true ↔
      (∃ line ∈ segments text, hasModuleSyntax line = true) ∨ SplitReference text := by
  constructor
  · intro h
    obtain ⟨before, head, rest, rfl, hbefore, hhead⟩ := hasModuleSyntax_iff.mp h
    rcases hhead.oneLine_or_split with hline | hsplit
    · -- The opening ends before the line does.
      obtain ⟨line, others, hfirst, tail, rfl⟩ := segments_eq_cons_of_prefix hhead.ne_nil hline rest
      refine Or.inl ⟨head ++ tail, ?_, hasModuleSyntax_iff.mpr
        ⟨[], head, tail, rfl, startsLine_nil, hhead⟩⟩
      rw [segments_append hbefore, hfirst]
      exact List.mem_append_right _ List.mem_cons_self
    · exact Or.inr ⟨before, head, rest, rfl, hbefore, hsplit⟩
  · rintro (⟨line, hline, h⟩ | h)
    · exact hasModuleSyntax_of_line hline h
    · exact h.hasModuleSyntax

/-- A line alone has one line start. -/
theorem hasModuleSyntax_line {line : List Char} (hline : '\n' ∉ line.dropLast) :
    hasModuleSyntax line = opensModule line := by
  refine Bool.eq_iff_iff.mpr ⟨fun h => ?_, fun h => ?_⟩
  · obtain ⟨before, head, rest, rfl, hbefore, hhead⟩ := hasModuleSyntax_iff.mp h
    by_cases hnil : before = []
    · rw [hnil]
      exact opensModule_iff.mpr ⟨head, hhead, head.prefix_append rest⟩
    · refine absurd ?_ hline
      rw [List.dropLast_append_of_ne_nil (List.append_ne_nil_of_left_ne_nil hhead.ne_nil rest)]
      exact List.mem_append_left _ (hbefore.mem_newline hnil)
  · rw [hasModuleSyntax, List.any_cons, h, Bool.true_or]

/-- Behind its indentation a keyword decides by the character that follows it. -/
theorem opensModule_keyword (hword : (word, follow) ∈ keywords)
    (hindent : ∀ c ∈ indent, isIndent c = true) (next : Char) (rest : List Char) :
    opensModule (indent ++ (word ++ next :: rest)) = true ↔
      isBlank next = true ∨ next ∈ follow := by
  have hne : ∀ k ∈ keywords, k.1 ≠ [] := by decide
  have hletter : ∀ k ∈ keywords, k.1.head?.any (fun c => !isIndent c) = true := by decide
  -- No two openings start with the same letter.
  have hfirst : ∀ k ∈ keywords, ∀ k' ∈ keywords, k.1.head? = k'.1.head? → k = k' := by decide
  have hslash : ∀ k ∈ keywords, k.1.head? ≠ slashes.head? := by decide
  rw [opensModule_eq, dropWhile_isIndent hindent (hletter _ hword), Bool.or_eq_true,
    List.any_eq_true]
  constructor
  · rintro (⟨k, hk, hstarts⟩ | hreference)
    · obtain ⟨c, tail, htail, hc⟩ := startsWithKeyword_iff.mp hstarts
      have hhead := congrArg List.head? htail
      rw [List.head?_append_of_ne_nil _ (hne _ hword),
        List.head?_append_of_ne_nil _ (hne k hk)] at hhead
      obtain rfl := hfirst _ hword k hk hhead
      obtain ⟨rfl, -⟩ := List.cons.inj (List.append_cancel_left htail)
      simpa using hc
    · obtain ⟨blanks, tail, htail, -⟩ := opensReference_iff.mp hreference
      have hhead := congrArg List.head? htail
      rw [List.head?_append_of_ne_nil _ (hne _ hword),
        List.head?_append_of_ne_nil _ (by decide)] at hhead
      exact absurd hhead (hslash _ hword)
  · intro h
    exact Or.inl ⟨(word, follow), hword,
      startsWithKeyword_iff.mpr ⟨next, rest, rfl, by simpa using h⟩⟩

theorem wrap_of_hasModuleSyntax (h : hasModuleSyntax text = true) (enabled : Bool) :
    wrap text enabled = (text, .module) := by
  rw [wrap, h, Bool.or_true, if_pos rfl]

/-- How a source is decided on by its lines, `export` lines among them. -/
structure DecidedByLines (source : List Char) : Prop where
  by_line : hasModuleSyntax source = true ↔
    (∃ line ∈ segments source, hasModuleSyntax line = true) ∨ SplitReference source
  /-- An `export` counts if a blank, a brace or a star follows it. -/
  exported : ∀ indent next rest, (∀ c ∈ indent, isIndent c = true) →
    indent ++ ("export".toList ++ next :: rest) ∈ segments source →
      (hasModuleSyntax (indent ++ ("export".toList ++ next :: rest)) = true ↔
        isBlank next = true ∨ next ∈ "\x7b*".toList)
  unwrapped : ∀ indent next rest, (∀ c ∈ indent, isIndent c = true) →
    indent ++ ("export".toList ++ next :: rest) ∈ segments source →
      isBlank next = true ∨ next ∈ "\x7b*".toList →
        ∀ enabled, wrap source enabled = (source, .module)

theorem decided_by_lines (source : List Char) : DecidedByLines source := by
  have hexported (indent : List Char) (next : Char) (rest : List Char)
      (hindent : ∀ c ∈ indent, isIndent c = true)
      (hline : indent ++ ("export".toList ++ next :: rest) ∈ segments source) :
      hasModuleSyntax (indent ++ ("export".toList ++ next :: rest)) = true ↔
        isBlank next = true ∨ next ∈ "\x7b*".toList := by
    rw [hasModuleSyntax_line (newline_notMem_dropLast hline)]
    exact opensModule_keyword (by decide) hindent next rest
  refine ⟨hasModuleSyntax_iff_line, hexported, ?_⟩
  intro indent next rest hindent hline hnext enabled
  exact wrap_of_hasModuleSyntax
    (hasModuleSyntax_of_line hline ((hexported indent next rest hindent hline).mpr hnext)) enabled

def legacyExport : List Char := "export=legacy;\n".toList

def brokenDirective : List Char := "///\n<reference types=\"node\" />\n".toList

/-- An `export` with its equals sign next to it is put inside the wrapper, and slashes with the
directive on the line below keep a source out of it although neither line does. -/
theorem lines_misjudged :
    legacyExport ∈ segments legacyExport ∧
      wrap legacyExport true = (wrapperOpen ++ legacyExport ++ wrapperClose, .isolated) ∧
      hasModuleSyntax brokenDirective = true ∧
      ∀ line ∈ segments brokenDirective, hasModuleSyntax line = false := by
  decide

end DocSnippets.Snippet
