import DocSnippets.Package.Resolution
import DocSnippets.Proofs.Text.Occurrences

/-!
# What a resolved path is made of

Every character of a resolved path comes from a path that the package declares, from the request, or
is one of the two that lead a request. Resolution brings in nothing else.
-/

namespace DocSnippets

/-- The paths that a target declares, at any depth. -/
inductive ExportTarget.Declares : ExportTarget → String → Prop where
  | path (text : String) : Declares (.path text) text
  | entry {entries : List (String × ExportTarget)} {key : String} {target : ExportTarget}
      {text : String} (hmem : (key, target) ∈ entries) (h : Declares target text) :
      Declares (.map entries) text

namespace Resolution

theorem mem_of_lookup {key : String} {entries : List (String × ExportTarget)}
    {target : ExportTarget} (h : entries.lookup key = some target) : (key, target) ∈ entries := by
  obtain ⟨l₁, l₂, rfl, -⟩ := List.lookup_eq_some_iff.mp h
  simp

theorem mem_of_condition? {entries : List (String × ExportTarget)} {target : ExportTarget}
    (h : condition? entries = some target) : ∃ key, (key, target) ∈ entries := by
  obtain ⟨key, -, hkey⟩ := List.exists_of_findSome?_eq_some h
  exact ⟨key, mem_of_lookup (Option.filter_eq_some_iff.mp hkey).1⟩

theorem mem_of_capture? {pattern request captured : List Char} {c : Char}
    (h : capture? pattern request = some captured) (hc : c ∈ captured) : c ∈ request := by
  unfold capture? at h
  split at h
  · cases h
  · split at h
    · cases h
    · split at h
      · cases h
      · split at h
        · cases h
          exact List.mem_of_mem_drop (List.mem_of_mem_take hc)
        · cases h

theorem mem_substitute {captured : Option (List Char)} {path : List Char} {c : Char}
    (h : c ∈ substitute captured path) : c ∈ path ∨ c ∈ captured.getD [] := by
  cases captured with
  | none => exact Or.inl h
  | some segment => exact Text.mem_replaceAll h

theorem mem_entryPath? {captured : Option (List Char)} {target : ExportTarget} {path : List Char}
    {c : Char} (h : entryPath? captured target = some path) (hc : c ∈ path) :
    (∃ text, target.Declares text ∧ c ∈ text.toList) ∨ c ∈ captured.getD [] := by
  fun_induction entryPath? captured target with
  | case1 text =>
    cases h
    exact (mem_substitute hc).imp_left fun hc => ⟨text, .path text, hc⟩
  | case2 => cases h
  | case3 => cases h
  | case4 => cases h
  | case5 entries hsub next hnext ih =>
    obtain ⟨key, hmem⟩ := mem_of_condition? hnext
    exact (ih h).imp_left fun ⟨text, hd, hc⟩ => ⟨text, .entry hmem hd, hc⟩

theorem mem_of_foldl_better {candidates : List Candidate} {best : Option Candidate}
    {k : Candidate} (h : candidates.foldl better best = some k) :
    k ∈ candidates ∨ best = some k := by
  induction candidates generalizing best with
  | nil => exact Or.inr h
  | cons next candidates ih =>
    rcases ih h with hk | hk
    · exact Or.inl (List.mem_cons_of_mem next hk)
    · unfold better at hk
      split at hk
      · next b =>
        split at hk
        · cases hk
          exact Or.inl List.mem_cons_self
        · cases hk
          exact Or.inr rfl
      · cases hk
        exact Or.inl List.mem_cons_self

theorem mem_subpathPath? {request : List Char} {entries : List (String × ExportTarget)}
    {path : List Char} {c : Char} (h : subpathPath? request entries = some path) (hc : c ∈ path) :
    (∃ text, (ExportTarget.map entries).Declares text ∧ c ∈ text.toList) ∨ c ∈ request := by
  unfold subpathPath? at h
  split at h
  · next target hlookup =>
    rcases mem_entryPath? h hc with ⟨text, hd, hc⟩ | hc
    · exact Or.inl ⟨text, .entry (mem_of_lookup hlookup) hd, hc⟩
    · cases hc
  · split at h
    · next best hbest =>
      rcases mem_of_foldl_better hbest with hmem | hnone
      · obtain ⟨⟨key, target⟩, hentry, hcandidate⟩ := List.mem_filterMap.mp hmem
        obtain ⟨captured, hcapture, rfl⟩ := Option.map_eq_some_iff.mp hcandidate
        rcases mem_entryPath? h hc with ⟨text, hd, hc⟩ | hc
        · exact Or.inl ⟨text, .entry hentry hd, hc⟩
        · exact Or.inr (mem_of_capture? hcapture hc)
      · cases hnone
    · cases h

theorem mem_targetPath? {request : List Char} {target : ExportTarget} {path : List Char} {c : Char}
    (h : targetPath? request target = some path) (hc : c ∈ path) :
    (∃ text, target.Declares text ∧ c ∈ text.toList) ∨ c ∈ request := by
  fun_induction targetPath? request target with
  | case1 text =>
    cases h
    exact Or.inl ⟨text, .path text, hc⟩
  | case2 => cases h
  | case3 => cases h
  | case4 entries hsub => exact mem_subpathPath? h hc
  | case5 => cases h
  | case6 entries hsub next hnext ih =>
    obtain ⟨key, hmem⟩ := mem_of_condition? hnext
    exact (ih h).imp_left fun ⟨text, hd, hc⟩ => ⟨text, .entry hmem hd, hc⟩

theorem mem_of_dropEnding? {ending path short : List Char} {c : Char}
    (h : dropEnding? ending path = some short) (hc : c ∈ short) : c ∈ path := by
  unfold dropEnding? at h
  split at h
  · cases h
    exact List.mem_of_mem_take hc
  · cases h

theorem mem_of_normalize {path : List Char} {c : Char} (hc : c ∈ normalize path) : c ∈ path := by
  have hlead : ∀ d ∈ (['.', '/'].isPrefixOf? path).getD path, d ∈ path := by
    intro d hd
    cases hp : ['.', '/'].isPrefixOf? path with
    | none => rwa [hp] at hd
    | some rest =>
      rw [hp] at hd
      rw [Text.eq_append_of_isPrefixOf? hp]
      exact List.mem_append_right _ hd
  unfold normalize at hc
  dsimp only at hc
  cases hend : sourceExtensions.findSome? fun ending =>
      dropEnding? ending ((['.', '/'].isPrefixOf? path).getD path) with
  | none =>
    rw [hend] at hc
    exact hlead c hc
  | some short =>
    rw [hend] at hc
    obtain ⟨ending, -, hshort⟩ := List.exists_of_findSome?_eq_some hend
    exact hlead c (mem_of_dropEnding? hshort hc)

theorem mem_requestKey {subpath : List Char} {c : Char} (hc : c ∈ requestKey subpath) :
    c = '.' ∨ c = '/' ∨ c ∈ subpath := by
  unfold requestKey rootRequest at hc
  split at hc <;> simp_all

theorem mem_of_requested {subpath : Option (List Char)} {c : Char} (hc : c ∈ requested subpath) :
    c ∈ subpath.getD [] :=
  (List.dropWhile_sublist _).subset hc

end Resolution

namespace EntryPoints

/-- The path is declared by the main file or by the exports. -/
def Declares (e : EntryPoints) (text : String) : Prop :=
  e.main = some text ∨ ∃ target, e.exports = some target ∧ target.Declares text

theorem mem_path? {e : EntryPoints} {request path : List Char} {c : Char}
    (h : e.path? request = some path) (hc : c ∈ path) :
    (∃ text, e.Declares text ∧ c ∈ text.toList) ∨ c ∈ request := by
  unfold path? at h
  split at h
  · split at h
    · obtain ⟨main, hmain, rfl⟩ := Option.map_eq_some_iff.mp h
      exact Or.inl ⟨main, Or.inl hmain, hc⟩
    · cases h
  · next target hexports =>
    rcases Resolution.mem_targetPath? h hc with ⟨text, hd, hc⟩ | hc
    · exact Or.inl ⟨text, Or.inr ⟨target, hexports, hd⟩, hc⟩
    · exact Or.inr hc

/-- A character of a resolved path is one of a declared path, of the subpath, a dot or a slash. -/
theorem mem_resolve {e : EntryPoints} {subpath : Option (List Char)} {path : List Char} {c : Char}
    (h : e.resolve subpath = .ok path) (hc : c ∈ path) :
    (∃ text, e.Declares text ∧ c ∈ text.toList) ∨ c = '.' ∨ c = '/' ∨ c ∈ subpath.getD [] := by
  unfold resolve at h
  dsimp only at h
  split at h
  · next declared hdeclared =>
    cases h
    rcases mem_path? hdeclared (Resolution.mem_of_normalize hc) with hc | hc
    · exact Or.inl hc
    · rcases Resolution.mem_requestKey hc with hc | hc | hc
      · exact Or.inr (Or.inl hc)
      · exact Or.inr (Or.inr (Or.inl hc))
      · exact Or.inr (Or.inr (Or.inr (Resolution.mem_of_requested hc)))
  · cases h

end EntryPoints

end DocSnippets
