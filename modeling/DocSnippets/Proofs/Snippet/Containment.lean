import DocSnippets.Proofs.Package.Containment
import DocSnippets.Proofs.Snippet.Specifier

/-!
# Self-imports and the package directory

A self-import becomes the path that serves it, seen from the package root. Nothing keeps this path
in the package: a piece of the subpath is filled in as it was written. What keeps it there is said
here exactly, by the names that the path goes up and down.
-/

namespace DocSnippets.Snippet

variable {package : Package} {subpath : Option (List Char)}

/-- The path that stands in the output for a self-import: it comes from a declared path and a piece
of the request, and stands between what the segments before and after it become. -/
structure Inserted (package : Package) (before : List Segment) (subpath : Option (List Char))
    (after : List Segment) (output : List Char) (declared : String)
    (segment : Option (List Char)) (path : Path) : Prop where
  declares : package.entryPoints.Declares declared
  fromRequest : Resolution.FromRequest
    (Resolution.requestKey (Resolution.requested subpath)) segment
  resolved : package.entryPoints.resolve subpath = .ok path.text.toList
  filled : path.text.toList = Resolution.normalize (Resolution.filled segment declared.toList)
  stands : ∃ head tail, localizeSegments package before = .ok head ∧
    localizeSegments package after = .ok tail ∧
    output = head ++ ((package.root.join path).text.toList.flatMap
      (fun c => if c = '\\' then ['\\', '\\'] else [c]) ++ tail)

/-- A resolved path is a declared one, filled with a piece of the request and normalized. -/
theorem filled_of_resolve {path : List Char}
    (h : package.entryPoints.resolve subpath = .ok path) :
    ∃ declared segment, package.entryPoints.Declares declared ∧
      Resolution.FromRequest (Resolution.requestKey (Resolution.requested subpath)) segment ∧
      path = Resolution.normalize (Resolution.filled segment declared.toList) := by
  obtain ⟨leaf, hserves, rfl⟩ := EntryPoints.resolve_eq_ok_iff.mp h
  obtain ⟨declared, segment, hdeclares, hsegment, rfl⟩ := hserves.filled
  exact ⟨declared, segment, hdeclares, hsegment, rfl⟩

theorem inserted_of_localize {source output : List Char} {before after : List Segment}
    {n : List Char}
    (hsegments : segments package.name.toList source = before ++ .specifier n subpath :: after)
    (h : localize package source = .ok output) :
    ∃ declared segment path,
      Inserted package before subpath after output declared segment path := by
  rw [localize, hsegments] at h
  obtain ⟨head, rest, hhead, hrest, rfl⟩ := localizeSegments_append h
  obtain ⟨piece, tail, hpiece, htail, rfl⟩ := localizeSegments_cons hrest
  change localPath package subpath = .ok piece at hpiece
  rw [localPath_eq, servedPath?] at hpiece
  cases hresolve : package.entryPoints.resolve subpath with
  | error e =>
    rw [hresolve] at hpiece
    cases hpiece
  | ok path =>
    rw [hresolve] at hpiece
    obtain rfl := Except.ok.inj hpiece
    obtain ⟨declared, segment, hdeclares, hsegment, hpath⟩ := filled_of_resolve hresolve
    refine ⟨declared, segment, ⟨String.ofList path⟩, hdeclares, hsegment, ?_, ?_,
      head, tail, hhead, htail, rfl⟩
    · rw [String.toList_ofList]
      exact hresolve
    · rw [String.toList_ofList]
      exact hpath

/-- Every self-import of a localized snippet becomes an absolute path, and this path is in the
package exactly if it comes down again by the names that it goes up from the root. Where all
declared paths go downward, it leaves the package only by one of the known ways out. -/
theorem localize_within_iff {source output : List Char} {before after : List Segment}
    {n : List Char}
    (hroot : package.root.isAbsolute = true)
    (hdeclared : ∀ text, package.entryPoints.Declares text → (⟨text⟩ : Path).Downward)
    (hsegments : segments package.name.toList source = before ++ .specifier n subpath :: after)
    (h : localize package source = .ok output) :
    ∃ declared segment path, Inserted package before subpath after output declared segment path ∧
      (package.root.join path).isAbsolute = true ∧
      ((package.root.join path).Within package.root ↔ package.root.StaysIn path) ∧
      ((package.root.join path).Within package.root ∨
        Resolution.WayOut declared.toList segment) := by
  obtain ⟨declared, segment, path, hinserted⟩ := inserted_of_localize hsegments h
  refine ⟨declared, segment, path, hinserted, Path.isAbsolute_join hroot path,
    Path.within_join_iff, ?_⟩
  have hdownward : (⟨String.ofList declared.toList⟩ : Path).Downward := by
    rw [String.ofList_toList]
    exact hdeclared declared hinserted.declares
  have hpath : path = ⟨String.ofList path.text.toList⟩ := by rw [String.ofList_toList]
  rw [hpath, hinserted.filled]
  exact (Resolution.downward_or_wayOut hdownward
    fun piece hpiece => (hinserted.fromRequest piece hpiece).1).imp_left (·.within package.root)

/-- A package that serves every file of a directory. -/
def wildcardPackage : Package where
  name := "lib"
  main := none
  root := ⟨"/pkg"⟩
  exports := some (.map [("./*", .path "./src/*.ts")])

theorem wildcardPackage_downward (text : String)
    (h : wildcardPackage.entryPoints.Declares text) : (⟨text⟩ : Path).Downward := by
  rcases h with hmain | ⟨target, hexports, hdeclares⟩
  · cases hmain
  · obtain rfl := Option.some.inj hexports
    cases hdeclares with
    | entry hmem h =>
      obtain ⟨rfl, rfl⟩ := Prod.mk.inj (List.mem_singleton.mp hmem)
      cases h
      exact ⟨by decide, by decide⟩

theorem localize_within_iff_wildcard :
    wildcardPackage.root.isAbsolute = true ∧
      (∀ text, wildcardPackage.entryPoints.Declares text → (⟨text⟩ : Path).Downward) ∧
      segments "lib".toList "import 'lib/util'".toList =
        [.verbatim "import '".toList] ++
          .specifier "lib".toList (some "/util".toList) :: [.verbatim ['\'']] ∧
      localize wildcardPackage "import 'lib/util'".toList = .ok "import '/pkg/src/util'".toList ∧
      ∃ declared segment path, Inserted wildcardPackage [.verbatim "import '".toList]
          (some "/util".toList) [.verbatim ['\'']] "import '/pkg/src/util'".toList
          declared segment path ∧
        (wildcardPackage.root.join path).isAbsolute = true ∧
        ((wildcardPackage.root.join path).Within wildcardPackage.root ↔
          wildcardPackage.root.StaysIn path) ∧
        ((wildcardPackage.root.join path).Within wildcardPackage.root ∨
          Resolution.WayOut declared.toList segment) := by
  have hsegments : segments "lib".toList "import 'lib/util'".toList =
      [.verbatim "import '".toList] ++
        .specifier "lib".toList (some "/util".toList) :: [.verbatim ['\'']] := by
    decide +kernel
  have hlocalize : localize wildcardPackage "import 'lib/util'".toList =
      .ok "import '/pkg/src/util'".toList := by
    decide +kernel
  exact ⟨rfl, wildcardPackage_downward, hsegments, hlocalize,
    localize_within_iff rfl wildcardPackage_downward hsegments hlocalize⟩

/-- A subpath with parent directories leads out of the package, though every declared path goes
downward. -/
theorem localize_leaves_package :
    wildcardPackage.root.isAbsolute = true ∧
      (∀ text, wildcardPackage.entryPoints.Declares text → (⟨text⟩ : Path).Downward) ∧
      localize wildcardPackage "import 'lib/../../secret'\n".toList =
        .ok "import '/pkg/src/../../secret'\n".toList ∧
      (⟨"/pkg/src/../../secret"⟩ : Path).names = ["secret"] ∧
      ¬ (⟨"/pkg/src/../../secret"⟩ : Path).Within wildcardPackage.root :=
  ⟨rfl, wildcardPackage_downward, by decide +kernel, by decide +kernel, by decide +kernel⟩

end DocSnippets.Snippet
