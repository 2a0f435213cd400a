import DocSnippets.Proofs.Firsts
import DocSnippets.Snippet.SelfImport

/-!
# The imports of a snippet

Localizing fails with the first self-import that the package does not serve, and succeeds when it
serves all of them.
-/

namespace DocSnippets

namespace Snippet

/-- The subpath that a segment imports from the package, if it is a self-import. -/
def Segment.import? : Segment → Option (Option (List Char))
  | .verbatim _ => none
  | .specifier _ subpath => some subpath

/-- The self-imports of a source in the order of the text. -/
def imports (package : Package) (source : List Char) : List (Option (List Char)) :=
  (segments package.name.toList source).filterMap Segment.import?

variable {package : Package} {segs : List Segment} {subpath : Option (List Char)}
  {e : ResolutionError}

theorem localPath_of_error (h : package.entryPoints.resolve subpath = .error e) :
    localPath package subpath = .error e := by
  rw [localPath, h]
  rfl

theorem localPath_of_ok {path : List Char} (h : package.entryPoints.resolve subpath = .ok path) :
    ∃ text, localPath package subpath = .ok text := by
  rw [localPath, h]
  exact ⟨_, rfl⟩

theorem exists_localizeSegments
    (h : AllSucceed package.entryPoints.resolve (segs.filterMap Segment.import?)) :
    ∃ text, localizeSegments package segs = .ok text := by
  induction segs with
  | nil => exact ⟨[], rfl⟩
  | cons s rest ih =>
    cases s with
    | verbatim text =>
      obtain ⟨texts, htexts⟩ := ih h
      exact ⟨text ++ texts, by rw [localizeSegments, htexts]; rfl⟩
    | specifier name subpath =>
      obtain ⟨⟨path, hpath⟩, hrest⟩ := allSucceed_cons_iff.mp h
      obtain ⟨text, htext⟩ := localPath_of_ok hpath
      obtain ⟨texts, htexts⟩ := ih hrest
      exact ⟨text ++ texts, by rw [localizeSegments, Segment.localize, htext, htexts]; rfl⟩

theorem localizeSegments_of_firstFails
    (h : FirstFails package.entryPoints.resolve (segs.filterMap Segment.import?) subpath e) :
    localizeSegments package segs = .error e := by
  induction segs with
  | nil => exact absurd h FirstFails.not_nil
  | cons s rest ih =>
    cases s with
    | verbatim text =>
      rw [localizeSegments, ih h]
      rfl
    | specifier name subpath' =>
      rw [localizeSegments, Segment.localize]
      rcases FirstFails.of_cons (l := rest.filterMap Segment.import?) h with
        ⟨-, hfails⟩ | ⟨⟨path, hpath⟩, hrest⟩
      · rw [localPath_of_error hfails]
        rfl
      · obtain ⟨text, htext⟩ := localPath_of_ok hpath
        rw [htext, ih hrest]
        rfl

theorem allSucceed_of_localizeSegments {text : List Char}
    (h : localizeSegments package segs = .ok text) :
    AllSucceed package.entryPoints.resolve (segs.filterMap Segment.import?) := by
  rcases allSucceed_or_firstFails package.entryPoints.resolve (segs.filterMap Segment.import?) with
    hall | ⟨subpath, e, hfirst⟩
  · exact hall
  · rw [localizeSegments_of_firstFails hfirst] at h
    cases h

end Snippet

end DocSnippets
