import DocSnippets.Proofs.CommandLine.Collection
import DocSnippets.Proofs.Compiler.Ancestor
import DocSnippets.Proofs.Disk.Matching
import DocSnippets.Proofs.Path.Parent

/-!
# Files that are collected once

Collected paths have different components, and still two of them can lead to one file: if only one
is absolute, if only one starts with a dot, or if one goes up behind what they share. Entries that
lead on from a common place by names give no such paths.
-/

namespace DocSnippets

open Text
open Path (Component component? Straight Descending)

namespace Path

variable {p q : Path}

/-- Two paths with different components that can lead to the same place. -/
inductive Respelled (p q : Path) : Prop where
  | kind (h : p.isAbsolute ≠ q.isAbsolute)
  | dot (h : ¬ (p.components.head? = some .current ↔ q.components.head? = some .current))
  | up (h : .parent ∈ p.behind q ∨ .parent ∈ q.behind p)

theorem Misaligned.respelled (h : Misaligned p q) : p.Respelled q := by
  obtain ⟨n, rest, rest', ⟨hp, hq⟩ | ⟨hq, hp⟩⟩ := h
  · exact .dot (by simp [hp, hq])
  · exact .dot (by simp [hp, hq])

/-- Components that lead nowhere are at most a dot at the start. -/
theorem behind_eq_nil_or (h : Descending (p.behind q))
    (hnames : (p.behind q).filterMap Component.name? = []) :
    p.behind q = [] ∨ p.shared q = [] ∧ p.components.head? = some .current := by
  cases hbehind : p.behind q with
  | nil => exact .inl rfl
  | cons c rest =>
    right
    rw [hbehind] at h hnames
    have hcomponents := shared_append_behind p q
    rw [hbehind] at hcomponents
    cases c with
    | root => exact absurd List.mem_cons_self h.noRoot
    | parent => exact absurd List.mem_cons_self h.noParent
    | name n => cases hnames
    | current =>
      have hshared : p.shared q = [] := by
        by_contra hne
        have hmem : .current ∈ p.behind q := hbehind ▸ List.mem_cons_self
        exact current_notMem_tail p (behind_subset_tail hne hmem)
      rw [hshared] at hcomponents
      exact ⟨hshared, by rw [hcomponents]; rfl⟩

/-- Straight paths to the same place have the same components, up to a dot at the start. -/
theorem Straight.respelled (h : Straight p q) (hne : p.components ≠ q.components)
    (hnames : (p.behind q).filterMap Component.name? = (q.behind p).filterMap Component.name?) :
    p.Respelled q := by
  cases hhead : ((p.behind q).filterMap Component.name?).head? with
  | some n =>
    exact (misaligned_of_heads h.descending_first h.descending_second hhead
      (hnames ▸ hhead)).respelled
  | none =>
    have hnil := List.head?_eq_none_iff.mp hhead
    obtain ⟨hp, hq, hapart⟩ := exists_behind p q
    rcases behind_eq_nil_or h.descending_first hnil with hpnil | ⟨hshared, hdot⟩
    · rcases behind_eq_nil_or h.descending_second (hnames ▸ hnil) with hqnil | ⟨hshared, hdot⟩
      · exact absurd (by rw [hp, hq, hpnil, hqnil]) hne
      · rw [shared_comm] at hshared
        rw [hshared, hpnil] at hp
        exact .dot (by simp [hp, hdot])
    · rw [hshared] at hp hq
      rw [List.nil_append] at hp hq
      rw [hp] at hdot
      exact .dot fun hiff => hapart .current hdot (hq ▸ hiff.mp (hp ▸ hdot))

end Path

namespace Disk

variable {d : Disk} {p q : Path}

/-- Both paths lead to one file. -/
def SameFile (d : Disk) (p q : Path) : Prop :=
  ∃ l content executable, d.find p = .ok (l, .file content executable) ∧
    d.find q = .ok (l, .file content executable)

theorem place_eq_of_find {l : Location} {e : Entry} (h : d.find p = .ok (l, e)) :
    d.place p = l := (eq_place_of_locate (find_eq_ok_iff.mp h).1).symm

theorem place_eq_shared (h : Straight p q) : d.place p =
    (p.shared q).foldl Component.enter (d.origin p) ++
      (p.behind q).filterMap Component.name? := by
  calc d.place p = (p.shared q ++ p.behind q).foldl Component.enter (d.origin p) :=
        congrArg (List.foldl Component.enter (d.origin p)) (Path.shared_append_behind p q)
    _ = _ := by rw [List.foldl_append, h.descending_first.foldl_enter]

/-- Paths that lead to one file are the same or differ in one of three ways. -/
theorem SameFile.respelled (h : d.SameFile p q) (hne : p.components ≠ q.components) :
    p.Respelled q := by
  obtain ⟨l, content, executable, hp, hq⟩ := h
  by_cases hkind : p.isAbsolute = q.isAbsolute
  · by_cases hup : .parent ∈ p.behind q ∨ .parent ∈ q.behind p
    · exact .up hup
    · have hstraight : Straight p q := ⟨hkind, fun h => hup (.inl h), fun h => hup (.inr h)⟩
      have hstraight' : Straight q p := ⟨hkind.symm, hstraight.second, hstraight.first⟩
      have horigin : d.origin p = d.origin q := by rw [origin, origin, hkind]
      have hplace : d.place p = d.place q :=
        (place_eq_of_find hp).trans (place_eq_of_find hq).symm
      rw [place_eq_shared hstraight, place_eq_shared hstraight', Path.shared_comm q p,
        horigin] at hplace
      exact hstraight.respelled hne (List.append_cancel_left hplace)
  · exact .kind hkind

end Disk

namespace Path

/-- A path of names behind some components. -/
def NamesBehind (top : List Component) (p : Path) : Prop :=
  ∃ names : List String, p.components = top ++ names.map .name

theorem sharedComponents_append (top as bs : List Component) :
    sharedComponents (top ++ as) (top ++ bs) = top ++ sharedComponents as bs := by
  induction top with
  | nil => rfl
  | cons c top ih => rw [List.cons_append, List.cons_append, sharedComponents, if_pos rfl, ih]; rfl

variable {p q : Path} {top : List Component}

theorem NamesBehind.behind_subset {names : List String} (hp : p.components = top ++ names.map .name)
    (hq : q.NamesBehind top) : p.behind q ⊆ names.map .name := by
  obtain ⟨names', hq⟩ := hq
  rw [behind, shared, hp, hq, sharedComponents_append, List.length_append, List.drop_append,
    List.drop_eq_nil_of_le (Nat.le_add_right _ _), Nat.add_sub_cancel_left, List.nil_append]
  exact List.drop_subset _ _

/-- Paths of names behind the same components are not spelled in different ways. -/
theorem NamesBehind.not_respelled (hp : p.NamesBehind top) (hq : q.NamesBehind top) :
    ¬ p.Respelled q := by
  have hup {p q : Path} (hp : p.NamesBehind top) (hq : q.NamesBehind top) :
      .parent ∉ p.behind q := by
    obtain ⟨names, hp⟩ := hp
    intro hmem
    obtain ⟨n, -, hn⟩ := List.mem_map.mp (NamesBehind.behind_subset hp hq hmem)
    cases hn
  have hroot {p : Path} (hp : p.NamesBehind top) : p.isAbsolute = true ↔ .root ∈ top := by
    obtain ⟨names, hp⟩ := hp
    rw [← root_mem_components_iff, hp]
    simp
  have hdot {p : Path} (hp : p.NamesBehind top) :
      p.components.head? = some .current ↔ top.head? = some .current := by
    obtain ⟨names, hp⟩ := hp
    rw [hp]
    cases top with
    | nil => cases names <;> simp
    | cons c top => rfl
  intro h
  cases h with
  | kind h => exact h (Bool.eq_iff_iff.mpr ((hroot hp).trans (hroot hq).symm))
  | dot h => exact h ((hdot hp).trans (hdot hq).symm)
  | up h => exact h.elim (hup hp hq) (hup hq hp)

end Path

namespace InputFiles

open Disk (Glob GlobPart Literal)

variable {d : Disk} {base p : Path} {entries : List String} {files : List Path}
  {top : List Component}

/-- Entries that lead on by names from one place: literal ones have names behind its components,
patterns have parts that do not go up behind those that lead there. -/
structure Onward (base : Path) (entries : List String) (top : List Component) : Prop where
  literal : ∀ e ∈ entries, isPattern e = false → (base.join ⟨e⟩).NamesBehind top
  pattern : ∀ e ∈ entries, isPattern e = true → ∀ g : Glob,
    Glob.ofText? (base.join ⟨e⟩).text.toList = some g →
      ∃ (front : List (List Char)) (back : List GlobPart),
        g.parts = front.map .plain ++ back ∧
        g.scope.way ++ front.filterMap component? = top ∧
        ∀ part ∈ back, part.meets ['.', '.'] = false

theorem Onward.namesBehind (h : Onward base entries top) (hd : d.Named) {e : String}
    (he : e ∈ entries) (hstands : StandsFor d base e p) : p.NamesBehind top := by
  cases hstands with
  | literal hliteral => exact h.literal e he hliteral
  | matching hpattern hg hp hfile =>
    obtain ⟨front, back, hparts, htop, hback⟩ := h.pattern e he hpattern _ hg
    have hslash {text : List Char} (hmem : .plain text ∈ front.map .plain ++ back) :
        '/' ∉ text := Glob.notMem_of_plain hg (hparts ▸ hmem)
    have hsearch := Glob.mem_search_follow (hparts ▸ List.mem_of_mem_filter hp)
    have hdown {part : GlobPart} (hpart : part ∈ back) : part.Downward :=
      ⟨fun text htext => hslash (List.mem_append_right _ (htext ▸ hpart)), hback part hpart⟩
    obtain ⟨names, hnames⟩ := Glob.leadsOn_of_mem_search hd (fun _ => hdown) hsearch
    refine ⟨names, ?_⟩
    rw [← Disk.way_of_isFile hfile, hnames, Glob.way_follow, htop]
    exact fun text htext => hslash (List.mem_append_left _ (List.mem_map_of_mem htext))

/-- A base without wildcards that does not start with a dot is a place that relative entries lead on
from, unless they go up. -/
theorem onward_of_base (hbase : Literal base.text.toList) (hne : base.text ≠ "")
    (hdot : base.components.head? ≠ some .current)
    (hliteral : ∀ e ∈ entries, isPattern e = false → (⟨e⟩ : Path).Downward)
    (hpattern : ∀ e ∈ entries, isPattern e = true → (⟨e⟩ : Path).isAbsolute = false ∧
      ∀ g, Glob.ofText? e.toList = some g → ∀ part ∈ g.parts, part.meets ['.', '.'] = false) :
    Onward base entries base.components := by
  constructor
  case literal =>
    intro e he hplain
    obtain ⟨hrelative, hparent⟩ := hliteral e he hplain
    rw [Path.parent_mem_components_iff] at hparent
    obtain ⟨names, hnames⟩ := Path.exists_names hparent
    exact ⟨names, by rw [Path.components_join hrelative hne, hnames]⟩
  case pattern =>
    intro e he hwild g hg
    obtain ⟨hrelative, hback⟩ := hpattern e he hwild
    have hnonempty : (⟨e⟩ : Path).text ≠ "" := by
      rintro rfl
      cases hwild
    rw [Glob.ofText?_join hbase hne hrelative hnonempty, Option.map_eq_some_iff] at hg
    obtain ⟨g', hg', rfl⟩ := hg
    refine ⟨Glob.frontParts base, g'.parts, rfl, ?_, hback g' hg'⟩
    rw [Glob.way_scopeOf, Glob.filterMap_frontParts, ← Path.components_eq_of_dotless hdot]

/-- How far the files that are collected are different ones. -/
structure Distinct (d : Disk) (base : Path) (entries : List String) (files : List Path) : Prop where
  respelled : files.Pairwise fun p q => d.SameFile p q → p.Respelled q
  onward : d.Named → ∀ top, Onward base entries top →
    files.Pairwise fun p q => ¬ d.SameFile p q

/-- A file is collected twice only by paths that are spelled in different ways, and never by entries
that lead on from one place by names. -/
theorem expand_distinct (h : expand? d entries base = some files) :
    Distinct d base entries files := by
  rw [expand?_eq] at h
  have hrespelled : files.Pairwise fun p q => d.SameFile p q → p.Respelled q := by
    have hnodup := expandBy?_nodup h
    rw [keys, List.Nodup, List.pairwise_map] at hnodup
    exact hnodup.imp fun hne hsame => hsame.respelled hne
  refine ⟨hrespelled, fun hd top honward => ?_⟩
  have hnames : ∀ p ∈ files, p.NamesBehind top := by
    intro p hp
    obtain ⟨e, he, hstands⟩ := standsFor_of_mem (finder_exact d) h hp
    exact honward.namesBehind hd he hstands
  exact hrespelled.imp_of_mem fun hp hq hrespelled hsame =>
    (hnames _ hp).not_respelled (hnames _ hq) (hrespelled hsame)

/-- Two files in a directory. -/
def manualTree : Disk where
  entries := [(["docs"], .directory), (["docs", "a.md"], .file .empty false),
    (["docs", "b.md"], .file .empty false)]
  current := []

theorem contribution?_manual : contribution? manualTree ⟨"docs"⟩ ".//*.md" =
    some [⟨"docs/./a.md"⟩, ⟨"docs/./b.md"⟩] := by
  have hread : Glob.ofText? (Path.join ⟨"docs"⟩ ⟨".//*.md"⟩).text.toList = some ⟨⟨"."⟩,
      [.plain ['d', 'o', 'c', 's'], .plain ['.'], .plain [],
        .wild [.anyRun, .literal '.', .literal 'm', .literal 'd']], false⟩ := rfl
  have hfind : manualTree.find ⟨"docs/./"⟩ = .ok (["docs"], .directory) := rfl
  have hchildren : manualTree.children ["docs"] = ["a.md", "b.md"] := by
    simp [Disk.children, manualTree, List.mergeSort, List.MergeSort.Internal.splitInTwo]
  have hsearch : Glob.search manualTree ⟨"."⟩ [.plain ['d', 'o', 'c', 's'], .plain ['.'],
      .plain [], .wild [.anyRun, .literal '.', .literal 'm', .literal 'd']] =
        [⟨"docs/./a.md"⟩, ⟨"docs/./b.md"⟩] := by
    rw [Glob.search, Glob.search, Glob.search]
    change Glob.search manualTree ⟨"docs/./"⟩ _ = _
    rw [Glob.search_wild_of_find hfind, hchildren]
    decide
  refine contribution?_of_paths rfl hread ?_ (by decide)
  rw [Glob.paths, hsearch]
  decide

/-- The file is named with a dot and matched by a pattern with a dot and doubled slashes. -/
theorem expand_distinct_manual :
    expand? manualTree (["./a.md"] ++ [".//*.md"]) ⟨"docs"⟩ =
        some [⟨"docs/./a.md"⟩, ⟨"docs/./b.md"⟩] ∧
      ¬ manualTree.SameFile ⟨"docs/./a.md"⟩ ⟨"docs/./b.md"⟩ := by
  have hexpand : expand? manualTree (["./a.md"] ++ [".//*.md"]) ⟨"docs"⟩ =
      some [⟨"docs/./a.md"⟩, ⟨"docs/./b.md"⟩] := by
    have hliteral : expand? manualTree ["./a.md"] ⟨"docs"⟩ = some [⟨"docs/./a.md"⟩] := by decide
    have hpattern := contribution?_manual
    rw [expand?_eq] at hliteral ⊢
    rw [contribution?_eq] at hpattern
    exact expandBy?_concat.mpr ⟨_, _, hliteral, hpattern, by decide⟩
  have honward : Onward ⟨"docs"⟩ (["./a.md"] ++ [".//*.md"]) [.name "docs"] := by
    refine onward_of_base (by decide) (by decide) (by decide) ?_ ?_
    · intro e he hliteral
      rcases List.mem_pair.mp he with rfl | rfl
      · exact ⟨by decide, by decide⟩
      · cases hliteral
    · intro e he hpattern
      rcases List.mem_pair.mp he with rfl | rfl
      · cases hpattern
      · refine ⟨by decide, fun g hg => ?_⟩
        have hread : Glob.ofText? ".//*.md".toList = some ⟨⟨"."⟩, [.plain ['.'], .plain [],
            .wild [.anyRun, .literal '.', .literal 'm', .literal 'd']], false⟩ := rfl
        obtain rfl := Option.some.inj (hread.symm.trans hg)
        decide
  have hdistinct := (expand_distinct hexpand).onward (by decide) _ honward
  exact ⟨hexpand, List.pairwise_pair.mp hdistinct⟩

/-- A dot at the start makes another path of the same file. -/
theorem collected_twice :
    expand? manualTree ["docs/a.md", "./docs/a.md"] ⟨""⟩ =
        some [⟨"docs/a.md"⟩, ⟨"./docs/a.md"⟩] ∧
      manualTree.SameFile ⟨"docs/a.md"⟩ ⟨"./docs/a.md"⟩ ∧
      ∀ e ∈ ["docs/a.md", "./docs/a.md"], (⟨e⟩ : Path).Downward := by
  refine ⟨by decide, ⟨["docs", "a.md"], .empty, false, rfl, rfl⟩, fun e he => ?_⟩
  rcases List.mem_pair.mp he with rfl | rfl
  · exact ⟨by decide, by decide⟩
  · exact ⟨by decide, by decide⟩

end InputFiles

end DocSnippets
