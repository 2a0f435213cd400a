import DocSnippets.Proofs.Package.ResolvedPath
import DocSnippets.Proofs.Snippet.Scan

/-!
# Segments of a snippet

A specifier among the segments of a snippet is the package name with a subpath without blanks, and
its closing quote follows. In a package that is declared without newlines, localizing changes no
line.
-/

namespace DocSnippets

/-- Nothing that a package declares holds a newline. -/
structure Package.OneLine (p : Package) : Prop where
  name : '\n' ∉ p.name.toList
  root : '\n' ∉ p.root.text.toList
  declared : ∀ text, p.entryPoints.Declares text → '\n' ∉ text.toList

namespace Path

theorem mem_join {p q : Path} {c : Char} (h : c ∈ (p.join q).text.toList) :
    c ∈ p.text.toList ∨ c = '/' ∨ c ∈ q.text.toList := by
  unfold join at h
  split at h
  · exact Or.inr (Or.inr h)
  · split at h
    · simp only [String.toList_append, List.mem_append] at h
      rcases h with h | h
      · exact Or.inl h
      · exact Or.inr (Or.inr h)
    · simp only [String.toList_append, List.mem_append] at h
      rcases h with (h | h) | h
      · exact Or.inl h
      · exact Or.inr (Or.inl (List.mem_singleton.mp h))
      · exact Or.inr (Or.inr h)

end Path

namespace Snippet

theorem candidate?_subpath {name text : List Char} {k : Candidate}
    (h : candidate? name text = some k) :
    ∀ c ∈ k.subpath.getD [], c = '/' ∨ isSubpathChar c = true := by
  have hsubpath := (candidate?_eq_some_iff.mp h).1.subpath
  intro c hc
  cases hk : k.subpath with
  | none =>
    rw [hk] at hc
    cases hc
  | some subpath =>
    obtain ⟨more, rfl, -, hmore⟩ := hsubpath subpath hk
    rw [hk] at hc
    exact (List.mem_cons.mp hc).imp_right (hmore c)

theorem candidate?_opening {name text : List Char} {k : Candidate}
    (h : candidate? name text = some k) : isQuote k.opening = true :=
  (candidate?_eq_some_iff.mp h).1.opening

/-- A specifier between segments is that of a candidate with equal quotes: its opening quote ends
the segment before, its closing quote is the one after. -/
def OfCandidate (name : List Char) (before : List Segment) (n : List Char)
    (subpath : Option (List Char)) (after : List Segment) : Prop :=
  ∃ text k front rest, candidate? name text = some k ∧ k.opening = k.closing ∧ n = name ∧
    subpath = k.subpath ∧ before = front ++ [.verbatim (k.lead ++ [k.opening])] ∧
    after = .verbatim [k.closing] :: rest

theorem ofCandidate_of_segmentsFrom {name text : List Char} {boundary : Option Char}
    {before after : List Segment} {n : List Char} {subpath : Option (List Char)}
    (h : segmentsFrom name boundary text = before ++ .specifier n subpath :: after) :
    OfCandidate name before n subpath after := by
  have hboundary : boundary = boundary.toList.getLast? := by cases boundary <;> rfl
  obtain ⟨start, k, himport, hseg⟩ := exists_selfImport boundary.toList hboundary h
  obtain ⟨front, hfront, -⟩ := hseg.front
  obtain ⟨rest, hrest, -⟩ := hseg.back
  exact ⟨k.text name ++ k.rest, k, front, rest,
    candidate?_eq_some_iff.mpr ⟨himport.stands.wellFormed, rfl⟩, himport.quotes, hseg.name,
    hseg.subpath, hfront, hrest⟩

/-- A specifier among segments: the name, a subpath without blanks, and the closing quote. -/
structure Quoted (name : List Char) (n : List Char) (subpath : Option (List Char))
    (after : List Segment) : Prop where
  name : n = name
  subpath : ∀ c ∈ subpath.getD [], c = '/' ∨ isSubpathChar c = true
  closed : ∃ quote rest, after = .verbatim [quote] :: rest

theorem quoted_of_segments {name text : List Char} {before after : List Segment} {n : List Char}
    {subpath : Option (List Char)}
    (h : segments name text = before ++ .specifier n subpath :: after) :
    Quoted name n subpath after := by
  obtain ⟨text', k, front, rest, hk, -, hn, rfl, -, hafter⟩ := ofCandidate_of_segmentsFrom h
  exact ⟨hn, candidate?_subpath hk, k.closing, rest, hafter⟩

namespace Quoted

variable {name n : List Char} {subpath : Option (List Char)} {after : List Segment}

theorem subpath_oneLine (h : Quoted name n subpath after) : '\n' ∉ subpath.getD [] := by
  intro hmem
  rcases h.subpath _ hmem with hc | hc
  · exact absurd hc (by decide)
  · exact absurd hc (by decide)

theorem text_oneLine (h : Quoted name n subpath after) (hname : '\n' ∉ name) :
    '\n' ∉ (Segment.specifier n subpath).text := by
  obtain rfl := h.name
  intro hmem
  rcases List.mem_append.mp hmem with hmem | hmem
  · exact hname hmem
  · exact h.subpath_oneLine hmem

end Quoted

theorem localPath_oneLine {package : Package} (hp : package.OneLine)
    {subpath : Option (List Char)} (hsub : '\n' ∉ subpath.getD []) {path : List Char}
    (h : localPath package subpath = .ok path) : '\n' ∉ path := by
  unfold localPath at h
  cases hresolve : package.entryPoints.resolve subpath with
  | error e => rw [hresolve] at h; cases h
  | ok resolved =>
    rw [hresolve] at h
    cases h
    intro hmem
    rcases Text.mem_replaceAll hmem with hmem | hmem
    · rcases Path.mem_join hmem with hmem | hmem | hmem
      · exact hp.root hmem
      · exact absurd hmem (by decide)
      · rw [String.toList_ofList] at hmem
        rcases EntryPoints.mem_resolve hresolve hmem with ⟨text, hd, hc⟩ | hc | hc | hc
        · exact hp.declared text hd hc
        · exact absurd hc (by decide)
        · exact absurd hc (by decide)
        · exact hsub hc
    · exact absurd hmem (by decide)

theorem localizeSegments_cons {package : Package} {s : Segment} {rest : List Segment}
    {text : List Char} (h : localizeSegments package (s :: rest) = .ok text) :
    ∃ piece tail, s.localize package = .ok piece ∧ localizeSegments package rest = .ok tail ∧
      text = piece ++ tail := by
  rw [localizeSegments] at h
  cases hs : s.localize package with
  | error e => rw [hs] at h; cases h
  | ok piece =>
    cases hr : localizeSegments package rest with
    | error e => rw [hs, hr] at h; cases h
    | ok tail =>
      rw [hs, hr] at h
      cases h
      exact ⟨piece, tail, rfl, rfl, rfl⟩

theorem localizeSegments_append {package : Package} {before rest : List Segment}
    {text : List Char} (h : localizeSegments package (before ++ rest) = .ok text) :
    ∃ head tail, localizeSegments package before = .ok head ∧
      localizeSegments package rest = .ok tail ∧ text = head ++ tail := by
  induction before generalizing text with
  | nil => exact ⟨[], text, rfl, h, rfl⟩
  | cons s before ih =>
    obtain ⟨piece, more, hs, hmore, rfl⟩ := localizeSegments_cons h
    obtain ⟨head, tail, hbefore, hrest, rfl⟩ := ih hmore
    refine ⟨piece ++ head, tail, ?_, hrest, by rw [List.append_assoc]⟩
    rw [localizeSegments, hs, hbefore]
    rfl

theorem localizeSegments_append_of_ok {package : Package} {segs others : List Segment}
    {text more : List Char}
    (h : localizeSegments package segs = .ok text)
    (hmore : localizeSegments package others = .ok more) :
    localizeSegments package (segs ++ others) = .ok (text ++ more) := by
  induction segs generalizing text with
  | nil =>
    obtain rfl := Except.ok.inj h
    exact hmore
  | cons s rest ih =>
    obtain ⟨piece, tail, hs, hrest, rfl⟩ := localizeSegments_cons h
    rw [List.cons_append, localizeSegments, hs, ih hrest, List.append_assoc]
    rfl

/-- Localizing the start of a snippet keeps its newlines. -/
theorem count_localizeSegments {package : Package} (hp : package.OneLine) {source : List Char}
    {before after : List Segment}
    (hsegments : segments package.name.toList source = before ++ after) {text : List Char}
    (h : localizeSegments package before = .ok text) :
    text.count '\n' = (textOf before).count '\n' := by
  induction before using List.reverseRecOn generalizing after text with
  | nil => cases h; rfl
  | append_singleton before s ih =>
    rw [List.append_assoc] at hsegments
    obtain ⟨head, last, hbefore, hlast, rfl⟩ := localizeSegments_append h
    obtain ⟨piece, tail, hs, hnil, rfl⟩ := localizeSegments_cons hlast
    obtain rfl : [] = tail := Except.ok.inj hnil
    have hpiece : piece.count '\n' = s.text.count '\n' := by
      cases s with
      | verbatim text => cases hs; rfl
      | specifier n subpath =>
        have hquoted := quoted_of_segments hsegments
        rw [List.count_eq_zero.mpr (localPath_oneLine hp hquoted.subpath_oneLine hs),
          List.count_eq_zero.mpr (hquoted.text_oneLine hp.name)]
    simp only [textOf_append, textOf_cons, textOf_nil, List.append_nil, List.count_append,
      ih hsegments hbefore, hpiece]

end Snippet

end DocSnippets
