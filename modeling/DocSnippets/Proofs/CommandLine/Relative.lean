import DocSnippets.Proofs.CommandLine.Collection
import DocSnippets.Proofs.Disk.Approach
import DocSnippets.Proofs.Path.Parent

/-!
# Files from another directory

Seen from a directory, entries collect what they collect in it: the same files, by paths with that
of the directory in front. The path of the directory is read as a part of the patterns, so it must
not hold wildcards, and a dot at its start is dropped from the files of a pattern only.
-/

namespace DocSnippets

namespace InputFiles

open Text
open Path (Component component?)
open Disk (Glob GlobPart Literal)

variable {d : Disk} {l : Location} {base : Path} {e : String} {entries : List String}

/-- An entry that leads down by names: it is relative, and no part of it is a dot, is two dots or
matches them. -/
structure Steady (e : String) : Prop where
  relative : (⟨e⟩ : Path).isAbsolute = false
  literal : isPattern e = false → (⟨e⟩ : Path).components.head? ≠ some .current
  pattern : isPattern e = true → ∀ g, Glob.ofText? e.toList = some g → ∀ part ∈ g.parts,
    part.meets ['.'] = false ∧ part.meets ['.', '.'] = false

theorem Steady.parts {g : Glob} (h : Steady e) (hpattern : isPattern e = true)
    (hg : Glob.ofText? e.toList = some g) : ∀ part ∈ g.parts, part.Steady := by
  intro part hpart
  obtain ⟨hdot, hdots⟩ := h.pattern hpattern g hg part hpart
  refine { noSlash := fun text htext => ?_, noUp := hdots, noDot := hdot }
  exact Glob.notMem_of_plain hg (htext ▸ hpart)

theorem keys_mergeSort (files : List Path) :
    keys (files.mergeSort Path.le) = (keys files).mergeSort Path.componentsLe :=
  List.map_mergeSort fun _ _ _ _ => rfl

theorem mergeSort_map_append (front : List Component) (ks : List (List Component)) :
    (ks.map (front ++ ·)).mergeSort Path.componentsLe =
      (ks.mergeSort Path.componentsLe).map (front ++ ·) := by
  symm
  apply List.map_mergeSort
  intro a _ b _
  exact (Path.componentsLe_append front).symm

/-- The files of two searches have the same components, behind those of the directory. -/
theorem keys_eq_of_forall₂ {b : Path} {budget : Nat} {bs qs : List Path}
    (hseat : Glob.Seat d b l budget) (h : List.Forall₂ (Glob.Twin b budget 0) bs qs)
    (hfiles : ∀ q ∈ qs, Disk.isFile { d with current := l } q = true) :
    keys bs = (keys qs).map (b.components ++ ·) := by
  induction h with
  | nil => rfl
  | cons hbq _ ih =>
    obtain ⟨hfile, hfiles⟩ := List.forall_mem_cons.mp hfiles
    rw [keys_cons, keys_cons, List.map_cons, ih hfiles]
    cases hbq with
    | here h =>
      rw [← hseat.isFile_eq (.here h), Disk.isFile, hseat.find] at hfile
      cases hfile
    | below h => rw [h.components hseat.text_ne]

/-- Base and entry together are short enough for everything below the base. -/
def Roomy (d : Disk) (base : Path) (l : Location) (e : String) : Prop :=
  Glob.Roomy d l (byteLength base.text.toList + (byteLength e.toList + 1))

/-- A directory without wildcards in its path, which does not start with a dot. -/
structure PlainBase (d : Disk) (base : Path) (l : Location) : Prop where
  find : d.find base = .ok (l, .directory)
  literal : Literal base.text.toList
  dotless : base.components.head? ≠ some .current
  named : d.Named

namespace PlainBase

theorem text_ne (h : PlainBase d base l) : base.text ≠ "" := Disk.text_ne_of_find h.find

theorem keys_paths {g : Glob} (h : PlainBase d base l) (hsteady : Steady e)
    (hpattern : isPattern e = true) (hroomy : Roomy d base l e)
    (hg : Glob.ofText? e.toList = some g) :
    keys ((Glob.paths ⟨Glob.scopeOf base, (Glob.frontParts base).map .plain ++ g.parts,
        g.onlyDirectories⟩ d).filter d.isFile) =
      (keys ((g.paths { d with current := l }).filter
        (Disk.isFile { d with current := l }))).map (base.components ++ ·) := by
  obtain ⟨b, hseat, hcomponents, hsearch⟩ :=
    Glob.exists_seat h.find h.dotless h.named hroomy
  have hne : (⟨e⟩ : Path).text ≠ "" := by
    rintro rfl
    cases hpattern
  have hscope : g.scope = ⟨"."⟩ :=
    Glob.scope_of_relative hg (of_decide_eq_false hsteady.relative)
  have hpaths := hseat.forall₂_search (hsteady.parts hpattern hg) (.here (Glob.room_parts_le hg))
    fun _ => Glob.head?_parts_ne (p := ⟨e⟩) hg hsteady.relative hne
  rw [← hcomponents, Glob.paths, Glob.paths, hscope]
  dsimp only
  rw [hsearch]
  refine keys_eq_of_forall₂ hseat (List.rel_filter (fun _ _ hq => ?_)
    (List.rel_filter (fun _ _ hq => ?_) hpaths)) fun q hq => (List.mem_filter.mp hq).2
  · exact iff_of_eq (congrArg (· = true) (hseat.isFile_eq hq))
  · exact iff_of_eq (congrArg (fun isDirectory => (!g.onlyDirectories || isDirectory) = true)
      (hseat.isDirectory_eq hq))

/-- An entry adds the same files in the directory and from it. -/
theorem keys_contribution? (h : PlainBase d base l) (hsteady : Steady e)
    (hroomy : isPattern e = true → Roomy d base l e) : (contribution? d base e).map keys =
      (contribution? { d with current := l } ⟨""⟩ e).map fun added =>
        (keys added).map (base.components ++ ·) := by
  rw [contribution?, contribution?, Path.empty_join]
  cases hpattern : isPattern e with
  | false =>
    have hcomponents := Path.components_eq_of_dotless (hsteady.literal hpattern)
    rw [hsteady.relative] at hcomponents
    simp [keys, Path.components_join hsteady.relative h.text_ne, hcomponents]
  | true =>
    have hne : (⟨e⟩ : Path).text ≠ "" := by
      rintro rfl
      cases hpattern
    rw [if_pos rfl, if_pos rfl, matching?, matching?,
      Glob.ofText?_join h.literal h.text_ne hsteady.relative hne]
    dsimp only
    cases hg : Glob.ofText? e.toList with
    | none => rfl
    | some g =>
      simp only [Option.map_some, Option.some_inj]
      rw [keys_mergeSort, keys_mergeSort, h.keys_paths hsteady hpattern (hroomy hpattern) hg,
        mergeSort_map_append]

end PlainBase

/-- New paths are told by their components, which a directory in front of them does not change. -/
theorem keys_foldl_pushNew (front : List Component) {files files' added added' : List Path}
    (hfiles : keys files = (keys files').map (front ++ ·))
    (hadded : keys added = (keys added').map (front ++ ·)) :
    keys (added.foldl pushNew files) = (keys (added'.foldl pushNew files')).map (front ++ ·) := by
  induction added' generalizing files files' added with
  | nil =>
    obtain rfl : added = [] := List.map_eq_nil_iff.mp hadded
    exact hfiles
  | cons q added' ih =>
    cases added with
    | nil => cases hadded
    | cons p added =>
      obtain ⟨hp, hadded⟩ := List.cons.inj hadded
      have hmem : p.components ∈ keys files ↔ q.components ∈ keys files' := by
        rw [hfiles, hp, List.mem_map_of_injective (List.append_right_injective front)]
      have hnext : keys (pushNew files p) = (keys (pushNew files' q)).map (front ++ ·) := by
        rw [pushNew_eq, pushNew_eq]
        simp only [hmem]
        split
        · exact hfiles
        · rw [keys_append, keys_append, List.map_append, hfiles]
          simp [keys, hp]
      rw [List.foldl_cons, List.foldl_cons]
      exact ih hnext hadded

/-- What entries collect in a directory and from it. -/
theorem PlainBase.keys_expand? (h : PlainBase d base l) (hsteady : ∀ e ∈ entries, Steady e)
    (hroomy : ∀ e ∈ entries, isPattern e = true → Roomy d base l e) :
    (expand? d entries base).map keys =
      (expand? { d with current := l } entries ⟨""⟩).map fun files =>
        (keys files).map (base.components ++ ·) := by
  have hrun : ∀ files files' : List Path, keys files = (keys files').map (base.components ++ ·) →
      (entries.foldlM (fun files entry => (contribution? d base entry).map fun added =>
        added.foldl pushNew files) files).map keys =
      (entries.foldlM (fun files entry =>
        (contribution? { d with current := l } ⟨""⟩ entry).map fun added =>
          added.foldl pushNew files) files').map fun files =>
            (keys files).map (base.components ++ ·) := by
    induction entries with
    | nil =>
      intro files files' hfiles
      exact congrArg some hfiles
    | cons e entries ih =>
      intro files files' hfiles
      obtain ⟨he, hsteady⟩ := List.forall_mem_cons.mp hsteady
      obtain ⟨hroom, hroomy⟩ := List.forall_mem_cons.mp hroomy
      have hadded := h.keys_contribution? he hroom
      rw [List.foldlM_cons, List.foldlM_cons]
      cases hD : contribution? { d with current := l } ⟨""⟩ e with
      | none =>
        rw [hD, Option.map_none, Option.map_eq_none_iff] at hadded
        rw [hadded]
        rfl
      | some added' =>
        rw [hD, Option.map_some, Option.map_eq_some_iff] at hadded
        obtain ⟨added, hB, hkeys⟩ := hadded
        rw [hB]
        exact ih hsteady hroomy _ _ (keys_foldl_pushNew _ hfiles hkeys)
  exact hrun [] [] rfl

/-- What entries collect in a directory is what they collect from it, with the path of the directory
in front, and these are the same places. -/
structure Relocated (d : Disk) (base : Path) (l : Location) (entries : List String) : Prop where
  same : (expand? d entries base).map keys =
    (expand? { d with current := l } entries ⟨""⟩).map fun files => keys (files.map base.join)
  places : ∀ files, expand? { d with current := l } entries ⟨""⟩ = some files →
    ∀ q ∈ files, d.place (base.join q) = Disk.place { d with current := l } q

/-- The paths that such an entry stands for are relative and do not start with a dot. -/
theorem Steady.dotless {q : Path} (hsteady : Steady e) (hnamed : d.Named)
    (hstands : StandsFor d ⟨""⟩ e q) :
    q.isAbsolute = false ∧ q.components.head? ≠ some .current := by
  cases hstands with
  | literal hliteral =>
    rw [Path.empty_join]
    exact ⟨hsteady.relative, hsteady.literal hliteral⟩
  | matching hpattern hg hp hfile =>
    rw [Path.empty_join] at hg
    have hscope := Glob.scope_of_relative hg (of_decide_eq_false hsteady.relative)
    obtain ⟨names, hnames⟩ := Glob.leadsOn_of_mem_search hnamed
      (fun part hpart => (hsteady.parts hpattern hg part hpart).toDownward)
      (List.mem_of_mem_filter hp)
    rw [Disk.way_of_isFile hfile, hscope] at hnames
    have hcomponents : q.components = names.map .name := hnames
    constructor
    · rw [← Bool.not_eq_true, ← Path.root_mem_components_iff, hcomponents]
      simp
    · rw [hcomponents]
      cases names <;> simp

/-- Entries that lead down by names collect the same in a directory and from it, unless the path of
the directory holds wildcards or starts with a dot, or the paths get too long. -/
theorem expand_relocated (hbase : PlainBase d base l) (hsteady : ∀ e ∈ entries, Steady e)
    (hroomy : ∀ e ∈ entries, isPattern e = true → Roomy d base l e) :
    Relocated d base l entries := by
  have hdotless {files : List Path}
      (hfiles : expand? { d with current := l } entries ⟨""⟩ = some files) {q : Path}
      (hq : q ∈ files) : q.isAbsolute = false ∧ q.components.head? ≠ some .current := by
    rw [expand?_eq] at hfiles
    obtain ⟨e, he, hstands⟩ := standsFor_of_mem (finder_exact _) hfiles hq
    have hnamed : Disk.Named { d with current := l } := hbase.named
    exact (hsteady e he).dotless hnamed hstands
  have hjoin {q : Path} (hrelative : q.isAbsolute = false)
      (hdot : q.components.head? ≠ some .current) :
      (base.join q).components = base.components ++ q.components := by
    have hcomponents := Path.components_eq_of_dotless hdot
    rw [hrelative] at hcomponents
    rw [Path.components_join hrelative hbase.text_ne, hcomponents]
    rfl
  constructor
  case same =>
    rw [hbase.keys_expand? hsteady hroomy]
    cases hfiles : expand? { d with current := l } entries ⟨""⟩ with
    | none => rfl
    | some files =>
      rw [Option.map_some, Option.map_some, keys, keys, List.map_map, List.map_map]
      refine congrArg some (List.map_congr_left fun q hq => ?_)
      obtain ⟨hrelative, hdot⟩ := hdotless hfiles hq
      exact (hjoin hrelative hdot).symm
  case places =>
    intro files hfiles q hq
    obtain ⟨hrelative, hdot⟩ := hdotless hfiles hq
    have horigin : Disk.origin { d with current := l } q = d.place base := by
      rw [← (Disk.find_directory_iff.mp hbase.find).2.2, Disk.origin, hrelative]
      rfl
    rw [Disk.place, Disk.place, horigin, hjoin hrelative hdot, List.foldl_append, Disk.place,
      Disk.origin, Disk.origin, Path.isAbsolute_join_eq hrelative]

/-- A package with a guide below its directory. -/
def packageTree : Disk where
  entries := [(["p"], .directory), (["p", "README.md"], .file .empty false),
    (["p", "docs"], .directory), (["p", "docs", "a.md"], .file .empty false)]
  current := ["p", "docs"]

/-- The files of the package are the same from its directory and from the one below. -/
theorem expand_relocated_package :
    PlainBase packageTree ⟨"/p"⟩ ["p"] ∧
      Relocated packageTree ⟨"/p"⟩ ["p"] ["README.md", "**/*.md"] := by
  have hbase : PlainBase packageTree ⟨"/p"⟩ ["p"] := ⟨rfl, by decide, by decide, by decide⟩
  refine ⟨hbase, expand_relocated hbase (fun e he => ?_) fun e he hpattern => ?_⟩
  · rcases List.mem_pair.mp he with rfl | rfl
    · exact ⟨by decide, fun _ => by decide, fun hpattern => absurd hpattern (by decide)⟩
    · refine ⟨by decide, fun hliteral => absurd hliteral (by decide), fun _ g hg => ?_⟩
      have hread : Glob.ofText? "**/*.md".toList = some ⟨⟨"."⟩, [.anyDepth,
          .wild [.anyRun, .literal '.', .literal 'm', .literal 'd']], false⟩ := rfl
      obtain rfl := Option.some.inj (hread.symm.trans hg)
      decide
  · intro names entry hentry
    have hshort : ∀ x ∈ packageTree.entries, ∀ e ∈ ["README.md", "**/*.md"],
        byteLength "/p".toList + (byteLength e.toList + 1) + Glob.span (x.1.drop 1) ≤
          Disk.pathLimit := by decide
    exact hshort _ hentry e he

theorem expand?_singleton : expand? d [e] base =
    (contribution? d base e).map fun added => added.foldl pushNew [] := by
  cases h : contribution? d base e <;> simp [expand?, h]

/-- The directory of a package whose name holds brackets. -/
def bracketTree : Disk where
  entries := [(["p[1]"], .directory), (["p[1]", "README.md"], .file .empty false)]
  current := []

/-- Brackets in the path of the directory are read as a part of the pattern, and nothing matches. -/
theorem brackets_misread :
    bracketTree.find ⟨"/p[1]"⟩ = .ok (["p[1]"], .directory) ∧
      expand? bracketTree ["*.md"] ⟨"/p[1]"⟩ = some [] ∧
      expand? { bracketTree with current := ["p[1]"] } ["*.md"] ⟨""⟩ = some [⟨"README.md"⟩] := by
  have hinside : contribution? bracketTree ⟨"/p[1]"⟩ "*.md" = some [] := by
    have hread : Glob.ofText? (Path.join ⟨"/p[1]"⟩ ⟨"*.md"⟩).text.toList = some ⟨⟨"/"⟩,
        [.wild [.literal 'p', .among [⟨'1', '1'⟩]],
          .wild [.anyRun, .literal '.', .literal 'm', .literal 'd']], false⟩ := rfl
    have hroot : bracketTree.find ⟨"/"⟩ = .ok ([], .directory) := rfl
    have hchildren : bracketTree.children [] = ["p[1]"] := by
      simp [Disk.children, bracketTree]
    have hsearch : Glob.search bracketTree ⟨"/"⟩ [.wild [.literal 'p', .among [⟨'1', '1'⟩]],
        .wild [.anyRun, .literal '.', .literal 'm', .literal 'd']] = [] := by
      rw [Glob.search_wild_of_find hroot, hchildren]
      decide
    refine contribution?_of_paths rfl hread ?_ (by decide)
    rw [Glob.paths, hsearch]
    decide
  have hthere : contribution? { bracketTree with current := ["p[1]"] } ⟨""⟩ "*.md" =
      some [⟨"README.md"⟩] := by
    have hread : Glob.ofText? (Path.join ⟨""⟩ ⟨"*.md"⟩).text.toList = some ⟨⟨"."⟩,
        [.wild [.anyRun, .literal '.', .literal 'm', .literal 'd']], false⟩ := rfl
    have hfind : Disk.find { bracketTree with current := ["p[1]"] } ⟨"."⟩ =
        .ok (["p[1]"], .directory) := rfl
    have hchildren : Disk.children { bracketTree with current := ["p[1]"] } ["p[1]"] =
        ["README.md"] := by
      simp [Disk.children, bracketTree]
    have hsearch : Glob.search { bracketTree with current := ["p[1]"] } ⟨"."⟩
        [.wild [.anyRun, .literal '.', .literal 'm', .literal 'd']] = [⟨"README.md"⟩] := by
      rw [Glob.search_wild_of_find hfind, hchildren]
      decide
    refine contribution?_of_paths rfl hread ?_ (by decide)
    rw [Glob.paths, hsearch]
    decide
  refine ⟨rfl, ?_, ?_⟩
  · rw [expand?_singleton, hinside]
    rfl
  · rw [expand?_singleton, hthere]
    decide

end InputFiles

end DocSnippets
