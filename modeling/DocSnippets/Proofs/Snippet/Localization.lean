import DocSnippets.Proofs.Snippet.Imports
import DocSnippets.Proofs.Snippet.Specifier

/-!
# What localizing changes

Localizing replaces the specifiers of the self-imports that the scan finds by the paths that serve
them and keeps everything else, or fails with the first that has none.
-/

namespace DocSnippets.Snippet

open Text

/-- What a segment becomes: a specifier becomes the path that serves it, as it is written between
quotes, and nothing else changes. -/
inductive Becomes (package : Package) : Segment → List Char → Prop where
  | kept (text : List Char) : Becomes package (.verbatim text) text
  | served {name : List Char} {subpath : Option (List Char)} {path : Path}
      (h : servedPath? package subpath = .ok path) :
      Becomes package (.specifier name subpath)
        (path.text.toList.flatMap fun c => if c = '\\' then ['\\', '\\'] else [c])

variable {package : Package} {source : List Char} {segs : List Segment} {e : ResolutionError}

theorem becomes_iff {s : Segment} {piece : List Char} :
    Becomes package s piece ↔ s.localize package = .ok piece := by
  constructor
  · rintro (⟨text⟩ | ⟨hpath⟩)
    · rfl
    · rw [Segment.localize, localPath_eq, hpath]
      rfl
  · intro h
    cases s with
    | verbatim text =>
      obtain rfl := Except.ok.inj h
      exact .kept text
    | specifier name subpath =>
      rw [Segment.localize, localPath_eq] at h
      cases hpath : servedPath? package subpath with
      | error e =>
        rw [hpath] at h
        cases h
      | ok path =>
        rw [hpath] at h
        obtain rfl := Except.ok.inj h
        exact .served hpath

/-- Segments are localized one by one. -/
theorem localizeSegments_eq_ok_iff {output : List Char} :
    localizeSegments package segs = .ok output ↔
      ∃ pieces, List.Forall₂ (Becomes package) segs pieces ∧ output = pieces.flatten := by
  constructor
  · intro h
    induction segs generalizing output with
    | nil => exact ⟨[], .nil, (Except.ok.inj h).symm⟩
    | cons s rest ih =>
      obtain ⟨piece, tail, hs, hrest, rfl⟩ := localizeSegments_cons h
      obtain ⟨pieces, hpieces, rfl⟩ := ih hrest
      exact ⟨piece :: pieces, .cons (becomes_iff.mpr hs) hpieces, rfl⟩
  · rintro ⟨pieces, hpieces, rfl⟩
    induction hpieces with
    | nil => rfl
    | cons hs hrest ih =>
      rw [localizeSegments, becomes_iff.mp hs, ih]
      rfl

theorem localizeSegments_eq_error_iff :
    localizeSegments package segs = .error e ↔ ∃ subpath,
      FirstFails package.entryPoints.resolve (segs.filterMap Segment.import?) subpath e := by
  constructor
  · intro h
    rcases allSucceed_or_firstFails package.entryPoints.resolve
      (segs.filterMap Segment.import?) with hall | ⟨subpath, e', hfirst⟩
    · obtain ⟨text, htext⟩ := exists_localizeSegments hall
      rw [h] at htext
      cases htext
    · rw [localizeSegments_of_firstFails hfirst] at h
      obtain rfl := Except.error.inj h
      exact ⟨subpath, hfirst⟩
  · rintro ⟨subpath, hfirst⟩
    exact localizeSegments_of_firstFails hfirst

/-- The first import that fails stands behind segments whose imports all succeed. -/
theorem exists_segment_of_firstFails {subpath : Option (List Char)}
    {f : Option (List Char) → Except ResolutionError (List Char)}
    (h : FirstFails f (segs.filterMap Segment.import?) subpath e) :
    ∃ front n back, segs = front ++ .specifier n subpath :: back ∧ f subpath = .error e ∧
      AllSucceed f (front.filterMap Segment.import?) := by
  obtain ⟨before, after, hsplit, hbefore, hfails⟩ := h
  obtain ⟨front, rest, rfl, rfl, hrest⟩ := List.filterMap_eq_append_iff.mp hsplit
  obtain ⟨plain, s, back, rfl, hplain, hs, -⟩ := List.filterMap_eq_cons_iff.mp hrest
  cases s with
  | verbatim text => cases hs
  | specifier n subpath' =>
    obtain rfl := Option.some.inj hs
    refine ⟨front ++ plain, n, back, by rw [List.append_assoc], hfails, ?_⟩
    rwa [List.filterMap_append, List.filterMap_eq_nil_iff.mpr hplain, List.append_nil]

/-- What localizing does to a source, told by its segments. -/
structure Localizes (package : Package) (source : List Char) (segs : List Segment) : Prop where
  whole : textOf segs = source
  selfImports : ∀ front n subpath back, segs = front ++ .specifier n subpath :: back →
    ∃ before k, SelfImport package.name.toList source before k ∧
      Segmented package.name.toList before k front n subpath back
  complete : ∀ before k, SelfImport package.name.toList source before k →
    Covered package.name.toList source before ∨ ∃ front n subpath back,
      segs = front ++ .specifier n subpath :: back ∧
        Segmented package.name.toList before k front n subpath back
  rewritten : ∀ output, localize package source = .ok output ↔
    ∃ pieces, List.Forall₂ (Becomes package) segs pieces ∧ output = pieces.flatten
  rejected : ∀ e, localize package source = .error e ↔ ∃ subpath,
    FirstFails package.entryPoints.resolve (segs.filterMap Segment.import?) subpath e
  /-- The error is that of the first self-import that is not served, those aside that an earlier
  candidate reaches into. -/
  first : ∀ e, localize package source = .error e →
    ∃ before k, SelfImport package.name.toList source before k ∧
      package.entryPoints.resolve k.subpath = .error e ∧
      ∀ before' k', SelfImport package.name.toList source before' k' →
        (before' ++ k'.lead).length < (before ++ k.lead).length →
        (∃ path, package.entryPoints.resolve k'.subpath = .ok path) ∨
          Covered package.name.toList source before'

/-- A specifier whose text starts before that of another stands before it. -/
theorem import_mem_of_length_lt {front front' back back' : List Segment} {n n' : List Char}
    {subpath subpath' : Option (List Char)}
    (h : front ++ .specifier n subpath :: back = front' ++ .specifier n' subpath' :: back')
    (hlt : (textOf front').length < (textOf front).length) :
    subpath' ∈ front.filterMap Segment.import? := by
  rcases List.append_eq_append_iff.mp h with ⟨mid, rfl, -⟩ | ⟨mid, rfl, hmid⟩
  · rw [textOf_append, List.length_append] at hlt
    omega
  · cases mid with
    | nil =>
      rw [List.append_nil] at hlt
      exact absurd hlt (Nat.lt_irrefl _)
    | cons s mid =>
      obtain ⟨rfl, -⟩ := List.cons.inj hmid
      exact List.mem_filterMap.mpr ⟨_, List.mem_append_right _ List.mem_cons_self, rfl⟩

theorem exists_selfImport_of_segments {source : List Char} {front back : List Segment}
    {n : List Char} {subpath : Option (List Char)}
    (h : segments package.name.toList source = front ++ .specifier n subpath :: back) :
    ∃ before k, SelfImport package.name.toList source before k ∧
      Segmented package.name.toList before k front n subpath back := by
  obtain ⟨start, k, himport, hseg⟩ := exists_selfImport [] rfl h
  exact ⟨start, k, himport, hseg⟩

theorem covered_or_mem_segments {source before : List Char} {k : Candidate}
    (h : SelfImport package.name.toList source before k) :
    Covered package.name.toList source before ∨ ∃ front n subpath back,
      segments package.name.toList source = front ++ .specifier n subpath :: back ∧
        Segmented package.name.toList before k front n subpath back := by
  rcases covered_or_segmented [] rfl h with hcovered | ⟨front, back, hsegs, hseg⟩
  · exact Or.inl hcovered
  · exact Or.inr ⟨front, _, _, back, hsegs, hseg⟩

/-- The error is that of a self-import, and those before it are served or reached into. -/
theorem exists_unserved {source : List Char} (h : localize package source = .error e) :
    ∃ before k, SelfImport package.name.toList source before k ∧
      package.entryPoints.resolve k.subpath = .error e ∧
      ∀ before' k', SelfImport package.name.toList source before' k' →
        (before' ++ k'.lead).length < (before ++ k.lead).length →
        (∃ path, package.entryPoints.resolve k'.subpath = .ok path) ∨
          Covered package.name.toList source before' := by
  obtain ⟨subpath, hfirst⟩ := localizeSegments_eq_error_iff.mp h
  obtain ⟨front, n, back, hsegs, hfails, hfront⟩ := exists_segment_of_firstFails hfirst
  obtain ⟨before, k, himport, hseg⟩ := exists_selfImport_of_segments hsegs
  refine ⟨before, k, himport, hseg.subpath ▸ hfails, ?_⟩
  intro before' k' himport' hlt
  rcases covered_or_mem_segments himport' with hcovered | ⟨front', n', subpath', back', hsegs', hseg'⟩
  · exact Or.inr hcovered
  · have hlt' : (textOf front').length < (textOf front).length := by
      rw [hseg.textOf_front, hseg'.textOf_front, ← List.append_assoc, ← List.append_assoc]
      simpa [← Nat.add_assoc] using hlt
    have hmem := import_mem_of_length_lt (hsegs.symm.trans hsegs') hlt'
    exact Or.inl (hseg'.subpath ▸ hfront subpath' hmem)

/-- A self-import that nothing reaches into is served where localizing succeeds. -/
theorem served_of_localize {source before : List Char} {k : Candidate} {output : List Char}
    (hok : localize package source = .ok output)
    (h : SelfImport package.name.toList source before k)
    (hfree : ¬ Covered package.name.toList source before) :
    ∃ path, package.entryPoints.resolve k.subpath = .ok path := by
  obtain ⟨front, n, subpath, back, hsegs, hseg⟩ := (covered_or_mem_segments h).resolve_left hfree
  rw [← hseg.subpath]
  apply allSucceed_of_localizeSegments hok
  rw [hsegs, List.filterMap_append]
  exact List.mem_append_right _ List.mem_cons_self

/-- Localizing replaces the specifiers of self-imports by the paths that serve them and keeps
everything else; it fails with the first self-import that is not served. Self-imports that an
earlier candidate reaches into are passed over. -/
theorem localize_exact (package : Package) (source : List Char) :
    Localizes package source (segments package.name.toList source) where
  whole := textOf_segments _ _
  selfImports _ _ _ _ h := exists_selfImport_of_segments h
  complete _ _ h := covered_or_mem_segments h
  rewritten _ := localizeSegments_eq_ok_iff
  rejected _ := localizeSegments_eq_error_iff
  first _ h := exists_unserved h

/-- A package that serves its main file alone, and a snippet that imports it in a text. -/
def mainOnly : Package :=
  { name := "lib", main := some "index.ts", root := ⟨"/pkg"⟩, exports := none }

def openText : List Char := "const code = `import v from \"lib/$\x7b".toList

def behindOpenText : List Char := ")\x7d\"`;\nimport 'lib/worse';\n".toList

/-- An import inside the text of a candidate with different quotes is passed over: the error is that
of a later one. -/
theorem localize_passes_over :
    (∃ k, SelfImport "lib".toList (openText ++ ("import('lib/bad'".toList ++ behindOpenText))
        openText k ∧ k.subpath = some "/bad".toList) ∧
      mainOnly.entryPoints.resolve (some "/bad".toList) = .error (.unresolved "lib/bad") ∧
      localize mainOnly (openText ++ ("import('lib/bad'".toList ++ behindOpenText)) =
        .error (.unresolved "lib/worse") := by
  refine ⟨⟨⟨"import(".toList, '\'', some "/bad".toList, '\'', behindOpenText⟩, ?_, rfl⟩, ?_, ?_⟩
  · refine ⟨⟨⟨?_, rfl, ?_, rfl⟩, rfl, by decide +kernel⟩, rfl⟩
    · exact @IsLead.load [] [] (by simp) (by simp)
    · rintro s ⟨⟩
      exact ⟨"bad".toList, rfl, by decide, List.all_eq_true.mp (by decide)⟩
  · decide +kernel
  · decide +kernel

end DocSnippets.Snippet
