import DocSnippets.Proofs.Package.Patterns
import Mathlib.Data.List.TakeWhile

/-!
# Which entry point is selected

A request is served by one path that the package declares, found by choices that are never taken
back: the first known condition that is not null, the entry whose key is the request, or the pattern
with the longest text before its star. A choice that leads nowhere is an error.
-/

namespace DocSnippets

open Text

namespace Resolution

/-- The condition that counts in a map: the first of the known ones that is declared and not null,
wherever the map declares it. -/
inductive Chosen (entries : List (String × ExportTarget)) (target : ExportTarget) : Prop where
  | intro {higher c lower}
      (hpriority : ["node-addons", "node", "import", "require", "default"] = higher ++ c :: lower)
      (hdeclared : entries.lookup c = some target) (hserves : target ≠ .null)
      (hhigher : ∀ d ∈ higher, ∀ other, entries.lookup d = some other → other = .null)

/-- A map has subpaths for keys. -/
def HasSubpaths (entries : List (String × ExportTarget)) : Prop :=
  ∃ e ∈ entries, e.1.toList.head? = some '.'

/-- The entry that a map of subpaths takes for a request, and the segment in place of the star when
its key is a pattern. Of the patterns that fit, the one with the longest text before the star is
taken, the earliest of equally long ones. -/
inductive Taken (request : List Char) (entries : List (String × ExportTarget)) :
    Option (List Char) → ExportTarget → Prop where
  | equal {target} (hkey : entries.lookup (String.ofList request) = some target) :
      Taken request entries none target
  | pattern {earlier key target later lead segment}
      (hunequal : entries.lookup (String.ofList request) = none)
      (hentries : entries = earlier ++ (key, target) :: later)
      (hfits : Fits key.toList request lead segment)
      (hearlier : ∀ e ∈ earlier, ∀ lead' segment', Fits e.1.toList request lead' segment' →
        lead'.length < lead.length)
      (hlater : ∀ e ∈ later, ∀ lead' segment', Fits e.1.toList request lead' segment' →
        lead'.length ≤ lead.length) :
      Taken request entries (some segment) target

/-- No key of a map is the request or a pattern that fits it. -/
def NoneTaken (request : List Char) (entries : List (String × ExportTarget)) : Prop :=
  entries.lookup (String.ofList request) = none ∧
    ∀ e ∈ entries, ∀ lead segment, ¬ Fits e.1.toList request lead segment

/-- The path to which a taken entry leads. -/
inductive Leads : ExportTarget → String → Prop where
  | path (text : String) : Leads (.path text) text
  | condition {entries next text} (hkeys : ¬ HasSubpaths entries) (hchosen : Chosen entries next)
      (hnext : Leads next text) : Leads (.map entries) text

/-- A taken entry leads to no path. -/
inductive Ends : ExportTarget → Prop where
  | null : Ends .null
  | subpaths {entries} (hkeys : HasSubpaths entries) : Ends (.map entries)
  | unchosen {entries} (hkeys : ¬ HasSubpaths entries) (hnone : ∀ next, ¬ Chosen entries next) :
      Ends (.map entries)
  | condition {entries next} (hkeys : ¬ HasSubpaths entries) (hchosen : Chosen entries next)
      (hnext : Ends next) : Ends (.map entries)

/-- A path with the segment in place of every star, if the entry was taken by a pattern. -/
def filled : Option (List Char) → List Char → List Char
  | none, path => path
  | some segment, path => path.flatMap fun c => if c = '*' then segment else [c]

/-- The path by which declared exports serve a request. -/
inductive Serves (request : List Char) : ExportTarget → List Char → Prop where
  | root {text} (hroot : request = rootRequest) : Serves request (.path text) text.toList
  | condition {entries next path} (hkeys : ¬ HasSubpaths entries) (hchosen : Chosen entries next)
      (hnext : Serves request next path) : Serves request (.map entries) path
  | entry {entries segment target text} (hkeys : HasSubpaths entries)
      (htaken : Taken request entries segment target) (hleads : Leads target text) :
      Serves request (.map entries) (filled segment text.toList)

/-- Declared exports do not serve a request. -/
inductive Refuses (request : List Char) : ExportTarget → Prop where
  | path {text} (hroot : request ≠ rootRequest) : Refuses request (.path text)
  | null : Refuses request .null
  | unchosen {entries} (hkeys : ¬ HasSubpaths entries) (hnone : ∀ next, ¬ Chosen entries next) :
      Refuses request (.map entries)
  | condition {entries next} (hkeys : ¬ HasSubpaths entries) (hchosen : Chosen entries next)
      (hnext : Refuses request next) : Refuses request (.map entries)
  | untaken {entries} (hkeys : HasSubpaths entries) (hnone : NoneTaken request entries) :
      Refuses request (.map entries)
  | entry {entries segment target} (hkeys : HasSubpaths entries)
      (htaken : Taken request entries segment target) (hends : Ends target) :
      Refuses request (.map entries)

theorem isNull_iff {target : ExportTarget} : target.isNull = true ↔ target = .null := by
  cases target <;> simp [ExportTarget.isNull]

theorem hasSubpaths_iff {entries : List (String × ExportTarget)} :
    ExportTarget.hasSubpaths entries = true ↔ HasSubpaths entries := by
  simp only [ExportTarget.hasSubpaths, HasSubpaths, List.any_eq_true, decide_eq_true_eq]

theorem filter_eq_none_iff {entries : List (String × ExportTarget)} {c : String} :
    (entries.lookup c).filter (!·.isNull) = none ↔
      ∀ target, entries.lookup c = some target → target = .null := by
  rw [Option.filter_eq_none_iff]
  refine forall₂_congr fun target _ => ?_
  rw [← isNull_iff, Bool.not_eq_true, Bool.not_eq_false']

theorem condition?_eq_some_iff {entries : List (String × ExportTarget)} {target : ExportTarget} :
    condition? entries = some target ↔ Chosen entries target := by
  rw [condition?, List.findSome?_eq_some_iff]
  constructor
  · rintro ⟨higher, c, lower, hpriority, hc, hhigher⟩
    obtain ⟨hdeclared, hserves⟩ := Option.filter_eq_some_iff.mp hc
    refine .intro hpriority hdeclared ?_ fun d hd => filter_eq_none_iff.mp (hhigher d hd)
    rintro rfl
    cases hserves
  · rintro ⟨hpriority, hdeclared, hserves, hhigher⟩
    refine ⟨_, _, _, hpriority, ?_, fun d hd => filter_eq_none_iff.mpr (hhigher d hd)⟩
    refine Option.filter_eq_some_iff.mpr ⟨hdeclared, ?_⟩
    rw [Bool.not_eq_true', ← Bool.not_eq_true, isNull_iff]
    exact hserves

theorem condition?_eq_none_iff {entries : List (String × ExportTarget)} :
    condition? entries = none ↔ ∀ target, ¬ Chosen entries target := by
  rw [Option.eq_none_iff_forall_ne_some]
  exact forall_congr' fun target => not_congr condition?_eq_some_iff

/-- The entry that is taken for a request, with the segment for the star. -/
def taken? (request : List Char) (entries : List (String × ExportTarget)) :
    Option (Option (List Char) × ExportTarget) :=
  match entries.lookup (String.ofList request) with
  | some target => some (none, target)
  | none =>
    ((candidates request entries).foldl better none).map fun k => (some k.captured, k.target)

theorem subpathPath?_eq (request : List Char) (entries : List (String × ExportTarget)) :
    subpathPath? request entries = (taken? request entries).bind fun t => entryPath? t.1 t.2 := by
  unfold subpathPath? taken?
  cases entries.lookup (String.ofList request) with
  | some target => rfl
  | none =>
    cases (candidates request entries).foldl better none with
    | some best => rfl
    | none => rfl

theorem taken?_eq_some_iff {request : List Char} {entries : List (String × ExportTarget)}
    {segment : Option (List Char)} {target : ExportTarget} :
    taken? request entries = some (segment, target) ↔ Taken request entries segment target := by
  constructor
  · intro h
    unfold taken? at h
    split at h
    · next hkey =>
      cases h
      exact .equal hkey
    · next hunequal =>
      obtain ⟨k, hk, hpair⟩ := Option.map_eq_some_iff.mp h
      obtain ⟨rfl, rfl⟩ := Prod.mk.inj hpair
      obtain ⟨earlier, ⟨key, target⟩, later, rfl, hcandidate, hearlier, hlater⟩ :=
        best_eq_some_iff.mp hk
      obtain ⟨lead, hfits, hposition, htarget⟩ := fits_of_candidate? hcandidate
      rw [hposition] at hearlier hlater
      rw [htarget]
      refine .pattern hunequal rfl hfits ?_ ?_
      · intro e he lead' segment' hother
        exact hearlier _ (List.mem_filterMap.mpr ⟨e, he, candidate?_of_fits hother⟩)
      · intro e he lead' segment' hother
        exact hlater _ (List.mem_filterMap.mpr ⟨e, he, candidate?_of_fits hother⟩)
  · intro h
    unfold taken?
    cases h with
    | equal hkey => rw [hkey]
    | @pattern earlier key target later lead segment hunequal hentries hfits hearlier hlater =>
      have hbest : (candidates request entries).foldl better none =
          some ⟨lead.length, segment, target⟩ := by
        refine best_eq_some_iff.mpr
          ⟨earlier, (key, target), later, hentries, candidate?_of_fits hfits, ?_, ?_⟩
        · intro x hx
          obtain ⟨e, he, hcandidate⟩ := List.mem_filterMap.mp hx
          obtain ⟨lead', hother, hposition, -⟩ := fits_of_candidate? hcandidate
          rw [hposition]
          exact hearlier e he lead' x.captured hother
        · intro x hx
          obtain ⟨e, he, hcandidate⟩ := List.mem_filterMap.mp hx
          obtain ⟨lead', hother, hposition, -⟩ := fits_of_candidate? hcandidate
          rw [hposition]
          exact hlater e he lead' x.captured hother
      rw [hunequal, hbest]
      rfl

theorem taken?_eq_none_iff {request : List Char} {entries : List (String × ExportTarget)} :
    taken? request entries = none ↔ NoneTaken request entries := by
  have hcandidates : (∀ e ∈ entries, ∀ lead segment, ¬ Fits e.1.toList request lead segment) ↔
      (candidates request entries).foldl better none = none := by
    rw [foldl_better_eq_none_iff, candidates_eq, List.filterMap_eq_nil_iff]
    exact forall₂_congr fun e _ => candidate?_eq_none_iff.symm
  rw [NoneTaken, hcandidates, taken?]
  cases entries.lookup (String.ofList request) with
  | some target => simp
  | none => simp

theorem substitute_eq (segment : Option (List Char)) (path : List Char) :
    substitute segment path = filled segment path := by
  cases segment with
  | none => rfl
  | some segment => exact replaceAll_singleton '*' segment path

theorem entryPath?_of_chosen {segment : Option (List Char)} {entries : List (String × ExportTarget)}
    {next : ExportTarget} (hkeys : ¬ HasSubpaths entries) (hchosen : Chosen entries next) :
    entryPath? segment (.map entries) = entryPath? segment next := by
  rw [← hasSubpaths_iff] at hkeys
  rw [entryPath?, if_neg hkeys]
  split
  · next hnone =>
    rw [condition?_eq_some_iff.mpr hchosen] at hnone
    cases hnone
  · next other hother =>
    rw [condition?_eq_some_iff.mpr hchosen] at hother
    obtain rfl := Option.some.inj hother
    rfl

theorem entryPath?_of_unchosen {segment : Option (List Char)}
    {entries : List (String × ExportTarget)} (hnone : ∀ next, ¬ Chosen entries next) :
    entryPath? segment (.map entries) = none := by
  rw [entryPath?]
  split
  · rfl
  · split
    · rfl
    · next other hother =>
      rw [condition?_eq_none_iff.mpr hnone] at hother
      cases hother

theorem entryPath?_eq_some_iff {segment : Option (List Char)} {target : ExportTarget}
    {path : List Char} : entryPath? segment target = some path ↔
      ∃ text, Leads target text ∧ path = filled segment text.toList := by
  constructor
  · intro h
    fun_induction entryPath? segment target with
    | case1 text =>
      rw [substitute_eq] at h
      exact ⟨text, .path text, (Option.some.inj h).symm⟩
    | case2 => cases h
    | case3 => cases h
    | case4 => cases h
    | case5 entries hkeys next hnext ih =>
      obtain ⟨text, hleads, rfl⟩ := ih h
      rw [hasSubpaths_iff] at hkeys
      exact ⟨text, .condition hkeys (condition?_eq_some_iff.mp hnext) hleads, rfl⟩
  · rintro ⟨text, hleads, rfl⟩
    induction hleads with
    | path text => rw [entryPath?, substitute_eq]
    | condition hkeys hchosen hnext ih => rwa [entryPath?_of_chosen hkeys hchosen]

theorem entryPath?_eq_none_iff {segment : Option (List Char)} {target : ExportTarget} :
    entryPath? segment target = none ↔ Ends target := by
  constructor
  · intro h
    fun_induction entryPath? segment target with
    | case1 => cases h
    | case2 => exact .null
    | case3 entries hkeys => exact .subpaths (hasSubpaths_iff.mp hkeys)
    | case4 entries hkeys hnone =>
      rw [hasSubpaths_iff] at hkeys
      exact .unchosen hkeys (condition?_eq_none_iff.mp hnone)
    | case5 entries hkeys next hnext ih =>
      rw [hasSubpaths_iff] at hkeys
      exact .condition hkeys (condition?_eq_some_iff.mp hnext) (ih h)
  · intro h
    induction h with
    | null => rw [entryPath?]
    | subpaths hkeys => rw [entryPath?, if_pos (hasSubpaths_iff.mpr hkeys)]
    | unchosen hkeys hnone => exact entryPath?_of_unchosen hnone
    | condition hkeys hchosen hnext ih => rwa [entryPath?_of_chosen hkeys hchosen]

theorem subpathPath?_eq_some_iff {request : List Char} {entries : List (String × ExportTarget)}
    {path : List Char} : subpathPath? request entries = some path ↔
      ∃ segment target text, Taken request entries segment target ∧ Leads target text ∧
        path = filled segment text.toList := by
  rw [subpathPath?_eq, Option.bind_eq_some_iff]
  constructor
  · rintro ⟨⟨segment, target⟩, htaken, hpath⟩
    obtain ⟨text, hleads, hfilled⟩ := entryPath?_eq_some_iff.mp hpath
    exact ⟨segment, target, text, taken?_eq_some_iff.mp htaken, hleads, hfilled⟩
  · rintro ⟨segment, target, text, htaken, hleads, hfilled⟩
    exact ⟨(segment, target), taken?_eq_some_iff.mpr htaken,
      entryPath?_eq_some_iff.mpr ⟨text, hleads, hfilled⟩⟩

theorem subpathPath?_eq_none_iff {request : List Char} {entries : List (String × ExportTarget)} :
    subpathPath? request entries = none ↔ NoneTaken request entries ∨
      ∃ segment target, Taken request entries segment target ∧ Ends target := by
  rw [subpathPath?_eq, Option.bind_eq_none_iff, ← taken?_eq_none_iff]
  constructor
  · intro h
    cases htaken : taken? request entries with
    | none => exact .inl rfl
    | some t =>
      exact .inr ⟨t.1, t.2, taken?_eq_some_iff.mp htaken, entryPath?_eq_none_iff.mp (h t htaken)⟩
  · rintro (hnone | ⟨segment, target, htaken, hends⟩) t ht
    · rw [hnone] at ht
      cases ht
    · rw [taken?_eq_some_iff.mpr htaken] at ht
      obtain rfl := Option.some.inj ht
      exact entryPath?_eq_none_iff.mpr hends

theorem targetPath?_of_chosen {request : List Char} {entries : List (String × ExportTarget)}
    {next : ExportTarget} (hkeys : ¬ HasSubpaths entries) (hchosen : Chosen entries next) :
    targetPath? request (.map entries) = targetPath? request next := by
  rw [← hasSubpaths_iff] at hkeys
  rw [targetPath?, if_neg hkeys]
  split
  · next hnone =>
    rw [condition?_eq_some_iff.mpr hchosen] at hnone
    cases hnone
  · next other hother =>
    rw [condition?_eq_some_iff.mpr hchosen] at hother
    obtain rfl := Option.some.inj hother
    rfl

theorem targetPath?_of_unchosen {request : List Char} {entries : List (String × ExportTarget)}
    (hkeys : ¬ HasSubpaths entries) (hnone : ∀ next, ¬ Chosen entries next) :
    targetPath? request (.map entries) = none := by
  rw [← hasSubpaths_iff] at hkeys
  rw [targetPath?, if_neg hkeys]
  split
  · rfl
  · next other hother =>
    rw [condition?_eq_none_iff.mpr hnone] at hother
    cases hother

theorem targetPath?_eq_some_iff {request : List Char} {target : ExportTarget} {path : List Char} :
    targetPath? request target = some path ↔ Serves request target path := by
  constructor
  · intro h
    fun_induction targetPath? request target with
    | case1 text hroot =>
      obtain rfl := Option.some.inj h
      exact .root hroot
    | case2 => cases h
    | case3 => cases h
    | case4 entries hkeys =>
      obtain ⟨segment, target, text, htaken, hleads, rfl⟩ := subpathPath?_eq_some_iff.mp h
      exact .entry (hasSubpaths_iff.mp hkeys) htaken hleads
    | case5 => cases h
    | case6 entries hkeys next hnext ih =>
      rw [hasSubpaths_iff] at hkeys
      exact .condition hkeys (condition?_eq_some_iff.mp hnext) (ih h)
  · intro h
    induction h with
    | root hroot => rw [targetPath?, if_pos hroot]
    | condition hkeys hchosen hnext ih => rwa [targetPath?_of_chosen hkeys hchosen]
    | entry hkeys htaken hleads =>
      rw [targetPath?, if_pos (hasSubpaths_iff.mpr hkeys)]
      exact subpathPath?_eq_some_iff.mpr ⟨_, _, _, htaken, hleads, rfl⟩

theorem targetPath?_eq_none_iff {request : List Char} {target : ExportTarget} :
    targetPath? request target = none ↔ Refuses request target := by
  constructor
  · intro h
    fun_induction targetPath? request target with
    | case1 => cases h
    | case2 text hroot => exact .path hroot
    | case3 => exact .null
    | case4 entries hkeys =>
      rw [hasSubpaths_iff] at hkeys
      rcases subpathPath?_eq_none_iff.mp h with hnone | ⟨segment, target, htaken, hends⟩
      · exact .untaken hkeys hnone
      · exact .entry hkeys htaken hends
    | case5 entries hkeys hnone =>
      rw [hasSubpaths_iff] at hkeys
      exact .unchosen hkeys (condition?_eq_none_iff.mp hnone)
    | case6 entries hkeys next hnext ih =>
      rw [hasSubpaths_iff] at hkeys
      exact .condition hkeys (condition?_eq_some_iff.mp hnext) (ih h)
  · intro h
    induction h with
    | path hroot => rw [targetPath?, if_neg hroot]
    | null => rw [targetPath?]
    | unchosen hkeys hnone => exact targetPath?_of_unchosen hkeys hnone
    | condition hkeys hchosen hnext ih => rwa [targetPath?_of_chosen hkeys hchosen]
    | untaken hkeys hnone =>
      rw [targetPath?, if_pos (hasSubpaths_iff.mpr hkeys)]
      exact subpathPath?_eq_none_iff.mpr (.inl hnone)
    | entry hkeys htaken hends =>
      rw [targetPath?, if_pos (hasSubpaths_iff.mpr hkeys)]
      exact subpathPath?_eq_none_iff.mpr (.inr ⟨_, _, htaken, hends⟩)

/-- What is asked for by a subpath: all of it after its leading slashes. -/
def Asks (subpath : Option (List Char)) (asked : List Char) : Prop :=
  ∃ slashes, subpath.getD [] = List.replicate slashes '/' ++ asked ∧ asked.head? ≠ some '/'

theorem asks_requested (subpath : Option (List Char)) : Asks subpath (requested subpath) := by
  refine ⟨((subpath.getD []).takeWhile (· = '/')).length, ?_, ?_⟩
  · have hslashes : (subpath.getD []).takeWhile (· = '/') =
        List.replicate ((subpath.getD []).takeWhile (· = '/')).length '/' := by
      refine List.eq_replicate_of_mem fun c hc => ?_
      simpa using List.mem_takeWhile_imp hc
    rw [← hslashes, requested, List.takeWhile_append_dropWhile]
  · intro h
    have hhead := List.head?_dropWhile_not (· = '/') (subpath.getD [])
    rw [requested] at h
    rw [h] at hhead
    simp at hhead

end Resolution

namespace EntryPoints

/-- The path by which a package serves a request, as it is declared. -/
inductive Serves (e : EntryPoints) (request : List Char) : List Char → Prop where
  | main {text} (hexports : e.exports = none) (hroot : request = Resolution.rootRequest)
      (hmain : e.main = some text) : Serves e request text.toList
  | exports {target path} (hexports : e.exports = some target)
      (hserves : Resolution.Serves request target path) : Serves e request path

/-- A package does not serve a request. -/
inductive Refuses (e : EntryPoints) (request : List Char) : Prop where
  | main (hexports : e.exports = none) (hroot : request = Resolution.rootRequest → e.main = none) :
      Refuses e request
  | exports {target} (hexports : e.exports = some target)
      (hrefuses : Resolution.Refuses request target) : Refuses e request

theorem path?_eq_some_iff {e : EntryPoints} {request path : List Char} :
    e.path? request = some path ↔ e.Serves request path := by
  constructor
  · intro h
    rw [path?] at h
    cases hexports : e.exports with
    | none =>
      rw [hexports] at h
      dsimp only at h
      split at h
      · next hroot =>
        obtain ⟨text, hmain, rfl⟩ := Option.map_eq_some_iff.mp h
        exact .main hexports hroot hmain
      · cases h
    | some target =>
      rw [hexports] at h
      exact .exports hexports (Resolution.targetPath?_eq_some_iff.mp h)
  · rintro (⟨hexports, hroot, hmain⟩ | ⟨hexports, hserves⟩)
    · rw [path?, hexports]
      dsimp only
      rw [if_pos hroot, hmain, Option.map_some]
    · rw [path?, hexports]
      exact Resolution.targetPath?_eq_some_iff.mpr hserves

theorem path?_eq_none_iff {e : EntryPoints} {request : List Char} :
    e.path? request = none ↔ e.Refuses request := by
  constructor
  · intro h
    rw [path?] at h
    cases hexports : e.exports with
    | none =>
      rw [hexports] at h
      refine .main hexports fun hroot => ?_
      dsimp only at h
      rw [if_pos hroot] at h
      exact Option.map_eq_none_iff.mp h
    | some target =>
      rw [hexports] at h
      exact .exports hexports (Resolution.targetPath?_eq_none_iff.mp h)
  · rintro (⟨hexports, hroot⟩ | ⟨hexports, hrefuses⟩)
    · rw [path?, hexports]
      dsimp only
      split
      · next hkey => rw [hroot hkey, Option.map_none]
      · rfl
    · rw [path?, hexports]
      exact Resolution.targetPath?_eq_none_iff.mpr hrefuses

/-- A resolution succeeds exactly with a path that serves the request, normalized, and fails exactly
on a request that is refused, with its name. -/
theorem resolve_selects (e : EntryPoints) (subpath : Option (List Char)) :
    ∃ asked, Resolution.Asks subpath asked ∧
      (∀ path, e.resolve subpath = .ok path ↔
        ∃ leaf, e.Serves (Resolution.requestKey asked) leaf ∧ path = Resolution.normalize leaf) ∧
      ∀ error, e.resolve subpath = .error error ↔
        e.Refuses (Resolution.requestKey asked) ∧
          error = .unresolved
            (String.ofList (Resolution.requestName e.package.toList asked)) := by
  refine ⟨Resolution.requested subpath, Resolution.asks_requested subpath, ?_, ?_⟩
  · intro path
    simp only [← path?_eq_some_iff]
    rw [resolve]
    cases e.path? (Resolution.requestKey (Resolution.requested subpath)) with
    | none => simp
    | some leaf => simp [eq_comm]
  · intro error
    rw [← path?_eq_none_iff, resolve]
    cases e.path? (Resolution.requestKey (Resolution.requested subpath)) with
    | none => simp [eq_comm]
    | some leaf => simp

end EntryPoints

end DocSnippets
