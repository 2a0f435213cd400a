import DocSnippets.CommandLine.InputFiles
import DocSnippets.Proofs.Disk.Matching
import DocSnippets.Proofs.Path.Order
import Mathlib.Data.List.Induction

/-!
# Collected files

Entries are gone through in order, and each adds the paths that it stands for and that are not there
yet: a literal one itself, a pattern its files in ascending order. So more entries at the end only
add files at the end, no path is there twice, and the order in which the files of a pattern are
found makes no difference. Paths are compared by their components.
-/

namespace DocSnippets.InputFiles

open Disk (Glob)
open Path (Component Ascending)

/-- The components of paths, by which they are compared. -/
def keys (files : List Path) : List (List Component) := files.map Path.components

theorem keys_cons (p : Path) (files : List Path) : keys (p :: files) = p.components :: keys files :=
  rfl

theorem keys_append (files files' : List Path) :
    keys (files ++ files') = keys files ++ keys files' :=
  List.map_append

/-- What an entry stands for: a literal one for its path, a pattern for the files that match. -/
inductive StandsFor (d : Disk) (base : Path) (entry : String) : Path → Prop where
  | literal (h : isPattern entry = false) : StandsFor d base entry (base.join ⟨entry⟩)
  | matching {g : Glob} {p : Path} (h : isPattern entry = true)
      (hg : Glob.ofText? (base.join ⟨entry⟩).text.toList = some g) (hp : p ∈ g.paths d)
      (hfile : d.isFile p = true) : StandsFor d base entry p

/-- A library for patterns: the paths that match a pattern, in an order of its own. -/
abbrev Finder : Type := Path → Option (List Path)

/-- It refuses the malformed patterns and yields exactly the matching paths of the other ones. -/
def Finder.Exact (find : Finder) (d : Disk) : Prop :=
  ∀ pattern, Option.Rel (fun found g => ∀ p, p ∈ found ↔ p ∈ g.paths d) (find pattern)
    (Glob.ofText? pattern.text.toList)

/-- The paths that an entry adds, with the files of a pattern taken from a finder. -/
def contributionBy? (find : Finder) (d : Disk) (base : Path) (entry : String) :
    Option (List Path) :=
  let full := base.join ⟨entry⟩
  if isPattern entry then
    (find full).map fun found => (found.filter d.isFile).mergeSort Path.le
  else some [full]

/-- The files that entries stand for, with the files of the patterns taken from a finder. -/
def expandBy? (find : Finder) (d : Disk) (entries : List String) (base : Path) :
    Option (List Path) :=
  entries.foldlM (fun files entry =>
    (contributionBy? find d base entry).map fun added => added.foldl pushNew files) []

def finder (d : Disk) : Finder := fun pattern =>
  (Glob.ofText? pattern.text.toList).map fun g => g.paths d

variable {d : Disk} {base : Path} {find : Finder} {entry : String} {entries : List String}
  {files added new : List Path}

theorem finder_exact (d : Disk) : (finder d).Exact d := by
  intro pattern
  rw [finder]
  cases Glob.ofText? pattern.text.toList with
  | none => exact .none
  | some g => exact .some fun p => Iff.rfl

theorem contribution?_eq (d : Disk) (base : Path) (entry : String) :
    contribution? d base entry = contributionBy? (finder d) d base entry := by
  rw [contribution?, contributionBy?, matching?, finder, Option.map_map]
  rfl

theorem expand?_eq (d : Disk) (entries : List String) (base : Path) :
    expand? d entries base = expandBy? (finder d) d entries base := by
  rw [expand?, expandBy?]
  simp only [contribution?_eq]

/-- A pattern adds the files it finds, which are in order already. -/
theorem contribution?_of_paths {g : Glob} (hpattern : isPattern entry = true)
    (hread : Glob.ofText? (base.join ⟨entry⟩).text.toList = some g)
    (hfound : (g.paths d).filter d.isFile = files)
    (hsorted : files.Pairwise fun p q => p.le q = true) :
    contribution? d base entry = some files := by
  rw [contribution?, if_pos hpattern, matching?, hread, Option.map_some, hfound,
    List.mergeSort_of_pairwise hsorted]

/-! ### New paths -/

/-- The paths among others that are not in a list yet, each of them once. -/
structure Fresh (files added new : List Path) : Prop where
  sublist : new.Sublist added
  nodup : (keys new).Nodup
  mem : ∀ k, k ∈ keys new ↔ k ∈ keys added ∧ k ∉ keys files

theorem pushNew_eq (files : List Path) (p : Path) :
    pushNew files p = if p.components ∈ keys files then files else files ++ [p] := by
  have hany : files.any p.same = true ↔ p.components ∈ keys files := by
    rw [List.any_eq_true, keys, List.mem_map]
    simp only [Path.same, decide_eq_true_eq]
    exact exists_congr fun q => and_congr_right' eq_comm
  rw [pushNew]
  simp only [hany]

theorem exists_foldl_pushNew (files added : List Path) :
    ∃ new, added.foldl pushNew files = files ++ new ∧ Fresh files added new := by
  induction added generalizing files with
  | nil => exact ⟨[], (List.append_nil _).symm, .slnil, .nil, by simp [keys]⟩
  | cons p added ih =>
    rw [List.foldl_cons, pushNew_eq]
    split
    · next hold =>
      obtain ⟨new, hfold, hsublist, hnodup, hmem⟩ := ih files
      refine ⟨new, hfold, hsublist.cons p, hnodup, fun k => ?_⟩
      rw [hmem, keys_cons, List.mem_cons]
      constructor
      · exact fun h => ⟨.inr h.1, h.2⟩
      · rintro ⟨rfl | hadded, hnotMem⟩
        · exact absurd hold hnotMem
        · exact ⟨hadded, hnotMem⟩
    · next hnew =>
      obtain ⟨new, hfold, hsublist, hnodup, hmem⟩ := ih (files ++ [p])
      have hmem (k : List Component) :
          k ∈ keys new ↔ k ∈ keys added ∧ k ∉ keys files ∧ k ≠ p.components := by
        rw [hmem, keys_append, List.mem_append, not_or]
        simp [keys]
      refine ⟨p :: new, by rw [hfold, List.append_assoc]; rfl, hsublist.cons_cons p, ?_,
        fun k => ?_⟩
      · rw [keys_cons, List.nodup_cons]
        exact ⟨fun h => ((hmem _).mp h).2.2 rfl, hnodup⟩
      · rw [keys_cons, List.mem_cons, hmem, keys_cons, List.mem_cons]
        constructor
        · rintro (rfl | ⟨hadded, hnotMem, -⟩)
          · exact ⟨.inl rfl, hnew⟩
          · exact ⟨.inr hadded, hnotMem⟩
        · rintro ⟨rfl | hadded, hnotMem⟩
          · exact .inl rfl
          · by_cases hk : k = p.components
            · exact .inl hk
            · exact .inr ⟨hadded, hnotMem, hk⟩

/-- New paths of an ascending list are ascending. -/
theorem Fresh.ascending (h : Fresh files added new)
    (hadded : added.Pairwise fun p q => p.le q = true) : Ascending (keys new) := by
  have hle : (keys new).Pairwise fun a b => Path.componentsLe a b = true :=
    List.pairwise_map.mpr (hadded.sublist h.sublist)
  exact hle.and h.nodup

/-! ### What an entry adds -/

theorem contributionBy?_pairwise (h : contributionBy? find d base entry = some added) :
    added.Pairwise fun p q => p.le q = true := by
  rw [contributionBy?] at h
  split at h
  · obtain ⟨found, -, rfl⟩ := Option.map_eq_some_iff.mp h
    exact Path.mergeSort_pairwise _
  · obtain rfl := Option.some.inj h
    exact List.pairwise_singleton _ _

/-- An entry adds what it stands for. -/
theorem mem_contributionBy? (hfind : find.Exact d)
    (h : contributionBy? find d base entry = some added) (p : Path) :
    p ∈ added ↔ StandsFor d base entry p := by
  rw [contributionBy?] at h
  split at h
  · next hpattern =>
    obtain ⟨found, hfound, rfl⟩ := Option.map_eq_some_iff.mp h
    obtain ⟨g, hg, hmem⟩ : ∃ g, Glob.ofText? (base.join ⟨entry⟩).text.toList = some g ∧
        ∀ p, p ∈ found ↔ p ∈ g.paths d := by
      have hexact := hfind (base.join ⟨entry⟩)
      rw [hfound] at hexact
      cases hg : Glob.ofText? (base.join ⟨entry⟩).text.toList with
      | none => rw [hg] at hexact; cases hexact
      | some g =>
        rw [hg] at hexact
        cases hexact with
        | some hmem => exact ⟨g, rfl, hmem⟩
    rw [List.mem_mergeSort, List.mem_filter, hmem]
    constructor
    · rintro ⟨hp, hfile⟩
      exact .matching hpattern hg hp hfile
    · intro hstands
      cases hstands with
      | literal hliteral =>
        rw [hliteral] at hpattern
        cases hpattern
      | matching _ hg' hp hfile =>
        obtain rfl := Option.some.inj (hg.symm.trans hg')
        exact ⟨hp, hfile⟩
  · next hliteral =>
    obtain rfl := Option.some.inj h
    rw [List.mem_singleton]
    constructor
    · rintro rfl
      exact .literal (Bool.not_eq_true _ ▸ hliteral)
    · intro hstands
      cases hstands with
      | literal => rfl
      | matching hpattern => exact absurd hpattern hliteral

/-- An entry is refused if it is a malformed pattern, with every finder. -/
theorem contributionBy?_eq_none_iff (hfind : find.Exact d) :
    contributionBy? find d base entry = none ↔
      isPattern entry = true ∧ Glob.ofText? (base.join ⟨entry⟩).text.toList = none := by
  have hexact := hfind (base.join ⟨entry⟩)
  rw [contributionBy?]
  split
  · next hpattern =>
    rw [Option.map_eq_none_iff, and_iff_right hpattern]
    generalize find (base.join ⟨entry⟩) = found at hexact
    generalize Glob.ofText? (base.join ⟨entry⟩).text.toList = g at hexact
    cases hexact with
    | none => exact iff_of_true rfl rfl
    | some => simp
  · next hliteral => simp [hliteral]

/-! ### Entries one after the other -/

theorem expandBy?_append (entries entries' : List String) :
    expandBy? find d (entries ++ entries') base = (expandBy? find d entries base).bind fun old =>
      entries'.foldlM (fun files entry =>
        (contributionBy? find d base entry).map fun added => added.foldl pushNew files) old := by
  rw [expandBy?, List.foldlM_append]
  rfl

theorem expandBy?_concat : expandBy? find d (entries ++ [entry]) base = some files ↔
    ∃ old added, expandBy? find d entries base = some old ∧
      contributionBy? find d base entry = some added ∧ files = added.foldl pushNew old := by
  rw [expandBy?_append]
  simp only [List.foldlM_cons, List.foldlM_nil, Option.pure_def, Option.bind_eq_bind,
    Option.bind_fun_some, Option.bind_eq_some_iff, Option.map_eq_some_iff]
  constructor
  · rintro ⟨old, hold, added, hadded, rfl⟩
    exact ⟨old, added, hold, hadded, rfl⟩
  · rintro ⟨old, added, hold, hadded, rfl⟩
    exact ⟨old, hold, added, hadded, rfl⟩

/-- An entry only adds paths at the end. -/
theorem expandBy?_step (h : expandBy? find d (entries ++ [entry]) base = some files) :
    ∃ old added new, expandBy? find d entries base = some old ∧
      contributionBy? find d base entry = some added ∧ files = old ++ new ∧
        Fresh old added new := by
  obtain ⟨old, added, hold, hadded, rfl⟩ := expandBy?_concat.mp h
  obtain ⟨new, hfold, hfresh⟩ := exists_foldl_pushNew old added
  exact ⟨old, added, new, hold, hadded, hfold, hfresh⟩

/-- Further entries leave what is there where it is. -/
theorem expandBy?_front {entries' : List String}
    (h : expandBy? find d (entries ++ entries') base = some files) :
    ∃ front, expandBy? find d entries base = some front ∧ front <+: files := by
  induction entries' using List.reverseRecOn generalizing files with
  | nil => exact ⟨files, by rwa [List.append_nil] at h, List.prefix_refl _⟩
  | append_singleton entries' entry ih =>
    rw [← List.append_assoc] at h
    obtain ⟨old, -, new, hold, -, rfl, -⟩ := expandBy?_step h
    obtain ⟨front, hfront, hprefix⟩ := ih hold
    exact ⟨front, hfront, hprefix.trans (List.prefix_append old new)⟩

/-- No path is there twice. -/
theorem expandBy?_nodup (h : expandBy? find d entries base = some files) :
    (keys files).Nodup := by
  induction entries using List.reverseRecOn generalizing files with
  | nil =>
    obtain rfl := Option.some.inj h
    exact .nil
  | append_singleton entries entry ih =>
    obtain ⟨old, added, new, hold, -, rfl, hfresh⟩ := expandBy?_step h
    rw [keys_append, List.nodup_append]
    refine ⟨ih hold, hfresh.nodup, fun a ha b hb heq => ?_⟩
    exact ((hfresh.mem b).mp hb).2 (heq ▸ ha)

/-- The paths that are there are those that the entries stand for. -/
theorem mem_keys_expandBy? (hfind : find.Exact d)
    (h : expandBy? find d entries base = some files) (k : List Component) :
    k ∈ keys files ↔ ∃ e ∈ entries, ∃ p, StandsFor d base e p ∧ p.components = k := by
  induction entries using List.reverseRecOn generalizing files with
  | nil =>
    obtain rfl := Option.some.inj h
    simp [keys]
  | append_singleton entries entry ih =>
    obtain ⟨old, added, new, hold, hadded, rfl, hfresh⟩ := expandBy?_step h
    have hkeys : k ∈ keys added ↔ ∃ p, StandsFor d base entry p ∧ p.components = k := by
      rw [keys, List.mem_map]
      exact exists_congr fun p => and_congr_left' (mem_contributionBy? hfind hadded p)
    have hmem : k ∈ keys (old ++ new) ↔ k ∈ keys old ∨ k ∈ keys added := by
      rw [keys_append, List.mem_append, hfresh.mem]
      by_cases hk : k ∈ keys old <;> simp [hk]
    rw [hmem, hkeys, ih hold]
    simp only [List.mem_append, List.mem_singleton, or_and_right, exists_or, exists_eq_left]

/-- Each of the paths is one that an entry stands for, as it is spelled there. -/
theorem standsFor_of_mem (hfind : find.Exact d)
    (h : expandBy? find d entries base = some files) {p : Path} (hp : p ∈ files) :
    ∃ e ∈ entries, StandsFor d base e p := by
  induction entries using List.reverseRecOn generalizing files with
  | nil =>
    obtain rfl := Option.some.inj h
    cases hp
  | append_singleton entries entry ih =>
    obtain ⟨old, added, new, hold, hadded, rfl, hfresh⟩ := expandBy?_step h
    rcases List.mem_append.mp hp with hold' | hnew
    · obtain ⟨e, he, hstands⟩ := ih hold hold'
      exact ⟨e, List.mem_append_left _ he, hstands⟩
    · exact ⟨entry, List.mem_append_right _ (List.mem_singleton.mpr rfl),
        (mem_contributionBy? hfind hadded p).mp (hfresh.sublist.subset hnew)⟩

/-- The order in which a finder yields the files of a pattern makes no difference. -/
theorem exists_expandBy? {find' : Finder} (hfind : find.Exact d) (hfind' : find'.Exact d)
    (h : expandBy? find d entries base = some files) :
    ∃ files', expandBy? find' d entries base = some files' ∧ keys files' = keys files := by
  induction entries using List.reverseRecOn generalizing files with
  | nil =>
    obtain rfl := Option.some.inj h
    exact ⟨[], rfl, rfl⟩
  | append_singleton entries entry ih =>
    obtain ⟨old, added, new, hold, hadded, rfl, hfresh⟩ := expandBy?_step h
    obtain ⟨old', hold', hkeys⟩ := ih hold
    obtain ⟨added', hadded'⟩ : ∃ added', contributionBy? find' d base entry = some added' := by
      refine Option.ne_none_iff_exists'.mp fun hnone => ?_
      rw [contributionBy?_eq_none_iff hfind', ← contributionBy?_eq_none_iff hfind, hadded] at hnone
      cases hnone
    obtain ⟨new', hfold, hfresh'⟩ := exists_foldl_pushNew old' added'
    refine ⟨old' ++ new', expandBy?_concat.mpr ⟨old', added', hold', hadded', hfold.symm⟩, ?_⟩
    have hsame (p : Path) : p ∈ added' ↔ p ∈ added :=
      (mem_contributionBy? hfind' hadded' p).trans (mem_contributionBy? hfind hadded p).symm
    have hnew : keys new' = keys new := by
      -- both are in ascending order, so they are equal once they have the same members
      refine (hfresh'.ascending (contributionBy?_pairwise hadded')).eq_of_mem_iff
        (hfresh.ascending (contributionBy?_pairwise hadded)) fun k => ?_
      rw [hfresh'.mem, hfresh.mem, hkeys]
      simp only [keys, List.mem_map, hsame]
    rw [keys_append, keys_append, hkeys, hnew]

/-- What is collected from entries, seen as that of some entries and of further ones. -/
structure Collects (d : Disk) (base : Path) (ps qs : List String) (files : List Path) : Prop where
  front : ∃ front, expand? d ps base = some front ∧ front <+: files
  distinct : (keys files).Nodup
  present : ∀ e ∈ ps ++ qs, ∀ p, StandsFor d base e p → p.components ∈ keys files
  only : ∀ p ∈ files, ∃ e ∈ ps ++ qs, StandsFor d base e p
  ascending : ∀ before e behind, ps ++ qs = before ++ e :: behind →
    ∃ old new, expand? d before base = some old ∧
      expand? d (before ++ [e]) base = some (old ++ new) ∧ old ++ new <+: files ∧
        Ascending (keys new)
  order : ∀ find : Finder, find.Exact d →
    (expandBy? find d (ps ++ qs) base).map keys = some (keys files)

/-- Entries are collected in order and without repetition: each stands for its path or for its files
in ascending order, those that are there already left out, and further entries come behind. -/
theorem expand_collects {ps qs : List String} (h : expand? d (ps ++ qs) base = some files) :
    Collects d base ps qs files := by
  have hexact := finder_exact d
  rw [expand?_eq] at h
  refine {
    front := ?front, distinct := expandBy?_nodup h, present := ?present,
    only := fun p hp => standsFor_of_mem hexact h hp, ascending := ?ascending, order := ?order }
  case front =>
    rw [expand?_eq]
    exact expandBy?_front h
  case present =>
    intro e he p hstands
    exact (mem_keys_expandBy? hexact h p.components).mpr ⟨e, he, p, hstands, rfl⟩
  case ascending =>
    intro before e behind hentries
    rw [hentries, List.append_cons] at h
    obtain ⟨front, hfront, hprefix⟩ := expandBy?_front h
    obtain ⟨old, added, new, hold, hadded, rfl, hfresh⟩ := expandBy?_step hfront
    refine ⟨old, new, ?_, ?_, hprefix, hfresh.ascending (contributionBy?_pairwise hadded)⟩
    · rw [expand?_eq, hold]
    · rw [expand?_eq, hfront]
  case order =>
    intro find hfind
    obtain ⟨files', hfiles', hkeys⟩ := exists_expandBy? hexact hfind h
    rw [hfiles', Option.map_some, hkeys]

/-- Three files, one of which is named before the pattern for all of them. -/
def guideTree : Disk where
  entries := [(["c.md"], .file .empty false), (["b.md"], .file .empty false),
    (["a.md"], .file .empty false), (["docs"], .directory)]
  current := []

/-- A file that is named before a pattern keeps its place, and so does one that is not there. -/
theorem expand_collects_guides :
    expand? guideTree (["b.md", "none.md"] ++ ["*.md"]) ⟨""⟩ =
        some [⟨"b.md"⟩, ⟨"none.md"⟩, ⟨"a.md"⟩, ⟨"c.md"⟩] ∧
      Collects guideTree ⟨""⟩ ["b.md", "none.md"] ["*.md"]
        [⟨"b.md"⟩, ⟨"none.md"⟩, ⟨"a.md"⟩, ⟨"c.md"⟩] := by
  have hexpand : expand? guideTree (["b.md", "none.md"] ++ ["*.md"]) ⟨""⟩ =
      some [⟨"b.md"⟩, ⟨"none.md"⟩, ⟨"a.md"⟩, ⟨"c.md"⟩] := by
    have hliterals : expand? guideTree ["b.md", "none.md"] ⟨""⟩ =
        some [⟨"b.md"⟩, ⟨"none.md"⟩] := by decide
    have hpattern : contribution? guideTree ⟨""⟩ "*.md" =
        some [⟨"a.md"⟩, ⟨"b.md"⟩, ⟨"c.md"⟩] := by
      have hread : Glob.ofText? (Path.join ⟨""⟩ ⟨"*.md"⟩).text.toList = some ⟨⟨"."⟩,
          [.wild [.anyRun, .literal '.', .literal 'm', .literal 'd']], false⟩ := rfl
      have hfind : guideTree.find ⟨"."⟩ = .ok ([], .directory) := rfl
      have hchildren : guideTree.children [] = ["a.md", "b.md", "c.md", "docs"] := by
        simp [Disk.children, guideTree, List.mergeSort, List.MergeSort.Internal.splitInTwo]
      have hsearch : Glob.search guideTree ⟨"."⟩
          [.wild [.anyRun, .literal '.', .literal 'm', .literal 'd']] =
            [⟨"a.md"⟩, ⟨"b.md"⟩, ⟨"c.md"⟩] := by
        rw [Glob.search_wild_of_find hfind, hchildren]
        decide
      refine contribution?_of_paths rfl hread ?_ (by decide)
      rw [Glob.paths, hsearch]
      decide
    rw [expand?_eq] at hliterals ⊢
    rw [contribution?_eq] at hpattern
    exact expandBy?_concat.mpr ⟨_, _, hliterals, hpattern, by decide⟩
  exact ⟨hexpand, expand_collects hexpand⟩

end DocSnippets.InputFiles
