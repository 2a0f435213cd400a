import DocSnippets.Proofs.Snippet.Cuts
import DocSnippets.Proofs.Snippet.Localization

/-!
# Comments

The search for self-imports knows no comments. A line that starts with two slashes is localized like
any other text, but as if it stood alone: a lead reaches neither over the slashes nor, with its
quotes, over the end of the line. A comment without self-imports stays as it is, and where comments
alone name the package, localizing fails with the first of them that fails on its own.
-/

namespace DocSnippets.Snippet

open Text

section Lines

variable {name source before line after front back : List Char} {package : Package}
  {segs : List Segment} {e : ResolutionError}

/-- A line of a source that starts with two slashes, blanks aside. Neither of its ends is between
the quotes of a candidate. -/
structure CommentLine (name source before line after : List Char) : Prop where
  source_eq : source = before ++ (line ++ after)
  starts : ∀ c ∈ before.getLast?, c = '\n'
  ends : ∀ c ∈ after.head?, c = '\n'
  oneLine : '\n' ∉ line
  slashes : "//".toList <+: trimStart line
  opened : ¬ InLiteral name source before
  closed : ¬ InLiteral name source (before ++ line)

/-- With a name without newlines no end of a line is between quotes. -/
theorem not_inLiteral (hname : '\n' ∉ name)
    (h : (∀ c ∈ front.getLast?, c = '\n') ∨ ∀ c ∈ back.head?, c = '\n') :
    ¬ InLiteral name (front ++ back) front := by
  intro hliteral
  obtain ⟨k, hk, ⟨c, hlast, hc⟩, d, hhead, hd⟩ := hliteral.neighbours
  have hquoted := newline_not_mem_quoted hname hk
  rcases h with hfront | hback
  · exact hquoted (hfront c hlast ▸ hc)
  · exact hquoted (hback d hhead ▸ hd)

theorem IsLead.exists_word {lead : List Char} (h : IsLead lead) :
    ∃ word tail, lead = word ++ tail ∧ '\n' ∉ word ∧ ∀ c ∈ tail, isBlank c = true ∨ c = '(' := by
  have hparen {before after : List Char} (hbefore : ∀ c ∈ before, isBlank c = true)
      (hafter : ∀ c ∈ after, isBlank c = true) :
      ∀ c ∈ before ++ '(' :: after, isBlank c = true ∨ c = '(' := by
    intro c hc
    rcases List.mem_append.mp hc with hc | hc
    · exact Or.inl (hbefore c hc)
    · rcases List.mem_cons.mp hc with hc | hc
      · exact Or.inr hc
      · exact Or.inl (hafter c hc)
  cases h with
  | source h => exact ⟨_, _, rfl, by decide, fun c hc => Or.inl (h c hc)⟩
  | effect h => exact ⟨_, _, rfl, by decide, fun c hc => Or.inl (h c hc)⟩
  | load hbefore hafter => exact ⟨_, _, rfl, by decide, hparen hbefore hafter⟩
  | require hbefore hafter => exact ⟨_, _, rfl, by decide, hparen hbefore hafter⟩

theorem IsLead.behind_newline (h : IsLead (front ++ '\n' :: back)) :
    ∀ c ∈ back, isBlank c = true ∨ c = '(' := by
  intro c hc
  obtain ⟨word, tail, hlead, hword, htail⟩ := h.exists_word
  rcases append_eq_append_cons hlead.symm with ⟨blanks, -, rfl⟩ | ⟨others, rfl, -⟩
  · exact htail c (List.mem_append_right _ (List.mem_cons_of_mem _ hc))
  · simp at hword

theorem head?_trimStart_ne_slash {tail rest : List Char} {quote : Char}
    (htail : ∀ c ∈ tail, isBlank c = true ∨ c = '(') (hquote : isQuote quote = true) :
    (trimStart (tail ++ quote :: rest)).head? ≠ some '/' := by
  induction tail with
  | nil =>
    rw [List.nil_append, trimStart, List.dropWhile_cons_of_neg (not_isBlank_of_isQuote hquote)]
    rcases isQuote_iff.mp hquote with rfl | rfl <;> simp
  | cons c tail ih =>
    by_cases hblank : isBlank c = true
    · rw [List.cons_append, trimStart, List.dropWhile_cons_of_pos hblank]
      exact ih fun d hd => htail d (List.mem_cons_of_mem c hd)
    · obtain rfl := (htail c List.mem_cons_self).resolve_left hblank
      rw [List.cons_append, trimStart, List.dropWhile_cons_of_neg hblank]
      simp

/-- A word boundary at the start of a line is one at the start of a text. -/
theorem segmentsFrom_of_starts (h : ∀ c ∈ before.getLast?, c = '\n') (text : List Char) :
    segmentsFrom name before.getLast? text = segments name text := by
  cases hlast : before.getLast? with
  | none => rfl
  | some c =>
    obtain rfl := h c hlast
    have hboundary (next : Option Char) :
        isWordBoundary (some '\n') next = isWordBoundary none next := by
      have hword : isWord '\n' = false := by decide +kernel
      simp [isWordBoundary, hword]
    unfold segments
    cases text with
    | nil => rw [segmentsFrom, segmentsFrom]
    | cons c text => rw [segmentsFrom, segmentsFrom, hboundary]

namespace CommentLine

theorem of_oneLine_name (hname : '\n' ∉ name) (hsource : source = before ++ (line ++ after))
    (hstarts : ∀ c ∈ before.getLast?, c = '\n') (hends : ∀ c ∈ after.head?, c = '\n')
    (hline : '\n' ∉ line) (hslashes : "//".toList <+: trimStart line) :
    CommentLine name source before line after where
  source_eq := hsource
  starts := hstarts
  ends := hends
  oneLine := hline
  slashes := hslashes
  opened := hsource ▸ not_inLiteral hname (Or.inl hstarts)
  closed := by
    rw [hsource, ← List.append_assoc]
    exact not_inLiteral hname (Or.inr hends)

theorem head?_trimStart (h : CommentLine name source before line after) :
    (trimStart (line ++ after)).head? = some '/' := by
  obtain ⟨text, htext⟩ := h.slashes
  have hne : trimStart line = '/' :: ('/' :: text) := htext.symm
  rw [trimStart, List.dropWhile_append, ← trimStart, hne]
  rfl

/-- No candidate reaches over the start of a comment: behind a newline a lead goes on with blanks
and a parenthesis up to its quote. -/
theorem stop_le {start : List Char} {k : Candidate} (h : CommentLine name source before line after)
    (hk : k.StandsIn name source start) (hstart : start.length < before.length) :
    (start ++ k.text name).length ≤ before.length := by
  by_contra hstop
  have hlead : before.length ≤ (start ++ k.lead).length := by
    by_contra hlt
    exact h.opened ⟨start, k, hk, by omega, by omega⟩
  have hsource : before ++ (line ++ after) = start ++ (k.lead ++ (k.quoted name ++ k.rest)) := by
    rw [← h.source_eq, hk.source_eq, Candidate.text_eq, List.append_assoc]
  obtain ⟨left, right, rfl, hsplit, hrest⟩ :=
    exists_append_of_between hsource (Nat.le_of_lt hstart) hlead
  have hleft : left ≠ [] := by
    rintro rfl
    simp at hstart
  have hnewline : left.getLast hleft = '\n' := by
    refine h.starts _ ?_
    rw [List.getLast?_append_of_ne_nil _ hleft]
    exact List.getLast?_eq_some_getLast hleft
  have htail : ∀ c ∈ right, isBlank c = true ∨ c = '(' := by
    have hwell := hk.wellFormed.lead
    rw [hsplit, ← List.dropLast_append_getLast hleft, hnewline, List.append_assoc] at hwell
    exact hwell.behind_newline
  have hslash := h.head?_trimStart
  rw [hrest] at hslash
  exact head?_trimStart_ne_slash htail hk.wellFormed.opening hslash

/-- The segments of a comment are those it has on its own, up to a lead that it may end in. -/
theorem segments_eq (h : CommentLine name source before line after) :
    ∃ head tail rest, segments name line = head ++ plain tail ∧
      segments name source = segments name before ++ (head ++ rest) ∧
      (tail = [] ∨ ∃ more others, rest = .verbatim (tail ++ more) :: others) := by
  obtain rfl := h.source_eq
  rcases continued [] rfl h.opened with
    hbefore | ⟨start, tail, k, -, -, -, hk, rfl, htail, hlead, -⟩
  · rw [List.nil_append, segmentsFrom_of_starts h.starts] at hbefore
    have hclosed : Continued name before line after (segmentsFrom name before.getLast? line)
        (segmentsFrom name before.getLast? (line ++ after)) := continued before rfl h.closed
    rw [segmentsFrom_of_starts h.starts, segmentsFrom_of_starts h.starts] at hclosed
    rcases hclosed with hline | ⟨-, tail, -, first, more, others, -, -, -, -, hline, hlonger⟩
    · refine ⟨segments name line, [], segmentsFrom name (before ++ line).getLast? after, ?_, ?_,
        Or.inl rfl⟩
      · exact (List.append_nil _).symm
      · rw [← hline]
        exact hbefore
    · refine ⟨first, tail, .verbatim (tail ++ more) :: others, hline, ?_,
        Or.inr ⟨more, others, rfl⟩⟩
      rw [← hlonger]
      exact hbefore
  · -- A lead that the text before ends in would reach over the start of the comment.
    have htail' := List.length_pos_iff.mpr htail
    have hlength := hlead.length_le
    have hstop := h.stop_le hk (by simpa using htail')
    simp only [Candidate.text, List.length_append, List.length_cons, List.length_nil] at hstop
    omega

end CommentLine

theorem imports_plain (text : List Char) : (plain text).filterMap Segment.import? = [] := by
  rw [List.filterMap_eq_nil_iff]
  intro s hs
  obtain ⟨c, -, rfl⟩ := List.mem_map.mp hs
  rfl

theorem localizeSegments_of_imports (h : segs.filterMap Segment.import? = []) :
    localizeSegments package segs = .ok (textOf segs) := by
  induction segs with
  | nil => rfl
  | cons s rest ih =>
    cases s with
    | verbatim text =>
      rw [localizeSegments, ih h]
      rfl
    | specifier n subpath => cases h

/-- A text without self-imports stays as it is. -/
theorem localize_of_no_selfImport
    (h : ∀ start k, ¬ SelfImport package.name.toList source start k) :
    localize package source = .ok source := by
  have himports : (segments package.name.toList source).filterMap Segment.import? = [] := by
    rw [List.filterMap_eq_nil_iff]
    intro s hs
    cases s with
    | verbatim text => rfl
    | specifier n subpath =>
      obtain ⟨front, back, hsegments⟩ := List.append_of_mem hs
      obtain ⟨start, k, himport, -⟩ := exists_selfImport [] rfl hsegments
      exact absurd himport (h start k)
  rw [localize, localizeSegments_of_imports himports, textOf_segments]

/-- Every place where the name stands is in a comment. -/
def NamedInComments (name source : List Char) : Prop :=
  ∀ front back, source = front ++ (name ++ back) → ∃ before left right after,
    front = before ++ left ∧ back = right ++ after ∧
      CommentLine name source before (left ++ (name ++ right)) after

theorem localizeSegments_plain (text : List Char) :
    localizeSegments package (plain text) = .ok text := by
  rw [localizeSegments_of_imports (imports_plain text), textOf_plain]

namespace CommentLine

theorem localize_alone {output : List Char}
    (h : CommentLine package.name.toList source before line after)
    (houtput : localize package source = .ok output) :
    ∃ front piece back, localize package before = .ok front ∧ localize package line = .ok piece ∧
      output = front ++ (piece ++ back) := by
  obtain ⟨head, tail, rest, hline, hsource, hrest⟩ := h.segments_eq
  rw [localize, hsource] at houtput
  obtain ⟨front, behind, hfront, hbehind, rfl⟩ := localizeSegments_append houtput
  obtain ⟨piece, back, hpiece, hback, rfl⟩ := localizeSegments_append hbehind
  have halone : localize package line = .ok (piece ++ tail) := by
    rw [localize, hline]
    exact localizeSegments_append_of_ok hpiece (localizeSegments_plain tail)
  obtain ⟨last, rfl⟩ : ∃ last, back = tail ++ last := by
    rcases hrest with rfl | ⟨more, others, rfl⟩
    · exact ⟨back, rfl⟩
    · obtain ⟨text, last, htext, -, rfl⟩ := localizeSegments_cons hback
      obtain rfl := Except.ok.inj htext
      exact ⟨more ++ last, by rw [List.append_assoc]⟩
  exact ⟨front, piece ++ tail, last, hfront, halone, by simp only [List.append_assoc]⟩

/-- A comment that fails on its own makes localizing fail where nothing before it does. -/
theorem localize_rejected (h : CommentLine package.name.toList source before line after)
    {text : List Char} (hbefore : localize package before = .ok text)
    (hline : localize package line = .error e) : localize package source = .error e := by
  obtain ⟨head, tail, rest, hsegments, hsource, -⟩ := h.segments_eq
  rw [localize, hsegments] at hline
  obtain ⟨subpath, hfirst⟩ := localizeSegments_eq_error_iff.mp hline
  rw [List.filterMap_append, imports_plain, List.append_nil] at hfirst
  rw [localize, hsource]
  refine localizeSegments_eq_error_iff.mpr ⟨subpath, ?_⟩
  rw [List.filterMap_append, List.filterMap_append]
  exact (hfirst.ahead _).behind (allSucceed_of_localizeSegments hbefore)

/-- A specifier that starts in a comment is one of the segments that the comment has on its own. -/
theorem segments_line_eq {first others : List Segment} {n : List Char}
    {subpath : Option (List Char)} (h : CommentLine name source before line after)
    (hsegments : segments name source = first ++ .specifier n subpath :: others)
    (hstart : before.length < (textOf first).length)
    (hstop : (textOf first).length < (before ++ line).length) :
    ∃ inside more, first = segments name before ++ inside ∧
      segments name line = inside ++ .specifier n subpath :: more := by
  obtain ⟨head, tail, rest, hline, hsource, hrest⟩ := h.segments_eq
  have hlength : (textOf head).length + tail.length = line.length := by
    have htext := congrArg textOf hline
    rw [textOf_segments, textOf_append, textOf_plain] at htext
    rw [htext, List.length_append]
  rw [hsource] at hsegments
  rcases append_eq_append_cons hsegments with ⟨inside, rfl, hbehind⟩ | ⟨mid, hbefore, -⟩
  · rcases append_eq_append_cons hbehind with ⟨later, rfl, hlater⟩ | ⟨mid, rfl, -⟩
    · -- The segments behind those of the comment start behind its end.
      have hlead : tail.length ≤ (textOf later).length := by
        rcases hrest with rfl | ⟨more, others, rfl⟩
        · exact Nat.zero_le _
        · cases later with
          | nil => cases hlater
          | cons s later =>
            obtain ⟨rfl, -⟩ := List.cons.inj hlater
            simp only [textOf_cons, Segment.text, List.length_append]
            omega
      simp only [textOf_append, textOf_segments, List.length_append] at hstop
      omega
    · refine ⟨inside, mid ++ plain tail, rfl, ?_⟩
      rw [hline, List.append_assoc, List.cons_append]
  · have htext := congrArg textOf hbefore
    rw [textOf_segments, textOf_append] at htext
    rw [htext, List.length_append] at hstart
    omega

end CommentLine

/-- Where comments alone name the package, a self-import has its quotes in a comment. -/
theorem NamedInComments.exists_comment {start : List Char} {k : Candidate}
    (h : NamedInComments name source) (hk : k.StandsIn name source start) :
    ∃ before line after, CommentLine name source before line after ∧
      before.length < (start ++ (k.lead ++ [k.opening])).length ∧
      (start ++ (k.lead ++ [k.opening])).length < (before ++ line).length := by
  have hsource : source = (start ++ (k.lead ++ [k.opening])) ++
      (name ++ ((k.subpath.getD [] ++ [k.closing]) ++ k.rest)) := by
    rw [hk.source_eq, Candidate.text]
    simp
  obtain ⟨before, left, right, after, hleft, hright, hcomment⟩ := h _ _ hsource
  have hopens : left ≠ [] := by
    rintro rfl
    rw [List.append_nil] at hleft
    have hnewline := hcomment.starts k.opening (by rw [← hleft]; simp)
    exact absurd (hnewline ▸ hk.wellFormed.opening) (by decide)
  have hcloses : right ≠ [] := by
    rintro rfl
    obtain ⟨c, ending, hending⟩ : ∃ c ending, k.subpath.getD [] ++ [k.closing] = c :: ending :=
      List.exists_cons_of_ne_nil (by simp)
    rw [hending] at hright
    have hnewline := hcomment.ends c (by rw [← List.nil_append after, ← hright]; rfl)
    refine newline_not_mem_ending hk.wellFormed ?_
    rw [hending, hnewline]
    exact List.mem_cons_self
  have hleft' := List.length_pos_iff.mpr hopens
  have hright' := List.length_pos_iff.mpr hcloses
  refine ⟨before, left ++ (name ++ right), after, hcomment, ?_, ?_⟩
  · rw [hleft, List.length_append]
    omega
  · rw [hleft]
    simp only [List.length_append]
    omega

theorem NamedInComments.exists_rejected (h : NamedInComments package.name.toList source)
    (herror : localize package source = .error e) :
    ∃ before line after, CommentLine package.name.toList source before line after ∧
      (∃ text, localize package before = .ok text) ∧ localize package line = .error e := by
  obtain ⟨subpath, hfirst⟩ := localizeSegments_eq_error_iff.mp herror
  obtain ⟨first, n, others, hsegments, hfails, hall⟩ := exists_segment_of_firstFails hfirst
  obtain ⟨start, k, himport, hseg⟩ := exists_selfImport [] rfl hsegments
  obtain ⟨before, line, after, hcomment, hstart, hstop⟩ := h.exists_comment himport.stands
  rw [List.nil_append, ← hseg.textOf_front] at hstart hstop
  obtain ⟨inside, more, rfl, hline⟩ := hcomment.segments_line_eq hsegments hstart hstop
  rw [List.filterMap_append, allSucceed_append_iff] at hall
  refine ⟨before, line, after, hcomment, exists_localizeSegments hall.1, ?_⟩
  have himport : Segment.import? (.specifier n subpath) = some subpath := rfl
  rw [localize, hline]
  refine localizeSegments_eq_error_iff.mpr ⟨subpath, ?_⟩
  rw [List.filterMap_append, List.filterMap_cons_some himport]
  exact (FirstFails.head hfails _).behind hall.2

end Lines

/-- What localizing makes of the comments of a source. -/
structure CommentsLocalized (package : Package) (source : List Char) : Prop where
  /-- A comment becomes what it becomes on its own. -/
  alone : ∀ before line after, CommentLine package.name.toList source before line after →
    ∀ output, localize package source = .ok output → ∃ front piece back,
      localize package before = .ok front ∧ localize package line = .ok piece ∧
        output = front ++ (piece ++ back)
  /-- A comment without self-imports stays as it is. -/
  kept : ∀ before line after, CommentLine package.name.toList source before line after →
    (∀ start k, ¬ SelfImport package.name.toList line start k) →
    ∀ output, localize package source = .ok output → ∃ front back,
      localize package before = .ok front ∧ output = front ++ (line ++ back)
  /-- Where comments alone name the package, localizing fails with the first that fails on its
  own. -/
  rejected : NamedInComments package.name.toList source → ∀ e,
    localize package source = .error e ↔ ∃ before line after,
      CommentLine package.name.toList source before line after ∧
        (∃ front, localize package before = .ok front) ∧ localize package line = .error e
  /-- Where no comment holds a self-import either, it does not fail. -/
  passed : NamedInComments package.name.toList source →
    (∀ before line after, CommentLine package.name.toList source before line after →
      ∀ start k, ¬ SelfImport package.name.toList line start k) →
    ∃ output, localize package source = .ok output

/-- Comments are localized like any other text, each as if it stood alone. -/
theorem localize_comments (package : Package) (source : List Char) :
    CommentsLocalized package source where
  alone _ _ _ h _ houtput := h.localize_alone houtput
  kept before line after h hnone output houtput := by
    obtain ⟨front, piece, back, hfront, hpiece, rfl⟩ := h.localize_alone houtput
    rw [localize_of_no_selfImport hnone] at hpiece
    obtain rfl := Except.ok.inj hpiece
    exact ⟨front, back, hfront, rfl⟩
  rejected h e := by
    constructor
    · exact h.exists_rejected
    · rintro ⟨before, line, after, hcomment, ⟨text, hbefore⟩, hline⟩
      exact hcomment.localize_rejected hbefore hline
  passed h hnone := by
    cases hlocalize : localize package source with
    | ok output => exact ⟨output, rfl⟩
    | error e =>
      obtain ⟨before, line, after, hcomment, -, hline⟩ := h.exists_rejected hlocalize
      rw [localize_of_no_selfImport (hnone before line after hcomment)] at hline
      cases hline

-- A lead at the end of a comment takes a specifier from the next line.
example : localize mainOnly "// import\n'lib'\n".toList =
    .ok "// import\n'/pkg/index'\n".toList := by decide +kernel

/-- A comment that shows an import, and the code behind it. -/
def shownImport : List Char := "// import { a } from 'lib'".toList

def shownInternal : List Char := "// import { a } from 'lib/internal'".toList

def shownCode : List Char := "\nconst a = 1;\n".toList

theorem commentLine_shown {line : List Char} (hline : '\n' ∉ line)
    (hslashes : "//".toList <+: trimStart line) :
    CommentLine "lib".toList (line ++ shownCode) [] line shownCode := by
  refine .of_oneLine_name (by decide) rfl (by simp) ?_ hline hslashes
  rintro c ⟨⟩
  rfl

/-- The name stands in the first line alone if it ends in it wherever it starts. -/
theorem namedInComments_of_places {name line after : List Char}
    (h : CommentLine name (line ++ after) [] line after)
    (hplaces : ∀ n ≤ (line ++ after).length, name <+: (line ++ after).drop n →
      n + name.length ≤ line.length) : NamedInComments name (line ++ after) := by
  intro front back hsource
  have hle : front.length + name.length ≤ line.length := by
    refine hplaces front.length ?_ ?_
    · rw [hsource, List.length_append]
      omega
    · rw [hsource, List.drop_left]
      exact List.prefix_append _ _
  rw [← List.append_assoc] at hsource
  obtain ⟨right, rfl⟩ : front ++ name <+: line := by
    refine List.prefix_of_prefix_length_le ⟨back, hsource.symm⟩ (List.prefix_append _ _) ?_
    rw [List.length_append]
    exact hle
  rw [List.append_assoc] at hsource
  refine ⟨[], front, right, after, rfl, (List.append_cancel_left hsource).symm, ?_⟩
  rw [← List.append_assoc]
  exact h

/-- A comment is rewritten, and one that names a path that the package does not serve makes
localizing fail. -/
theorem comment_localized :
    CommentLine "lib".toList (shownImport ++ shownCode) [] shownImport shownCode ∧
      localize mainOnly (shownImport ++ shownCode) =
        .ok ("// import { a } from '/pkg/index'".toList ++ shownCode) ∧
      NamedInComments "lib".toList (shownInternal ++ shownCode) ∧
      localize mainOnly (shownInternal ++ shownCode) = .error (.unresolved "lib/internal") := by
  refine ⟨commentLine_shown (by decide) (by decide), by decide +kernel, ?_, by decide +kernel⟩
  exact namedInComments_of_places (commentLine_shown (by decide) (by decide)) (by decide +kernel)

end DocSnippets.Snippet
