import DocSnippets.Proofs.Disk.Matching
import DocSnippets.Proofs.Path.Parent
import Mathlib.Data.List.Forall2

/-!
# Searching from a directory

A path in a directory leads where the rest of it leads from there. So a search that starts in a
directory finds what the same search finds with this directory as the current one: step by step, the
paths of the two searches differ by the path of the directory alone. The paths have to be short
enough, and no part of the pattern may be a dot, two dots or match them.
-/

namespace DocSnippets

open Text

theorem Text.byteLength_splitOn (sep : Char) (text : List Char) :
    ((splitOn sep text).map fun part => byteLength part + sep.utf8Size).sum =
      byteLength text + sep.utf8Size := by
  induction text with
  | nil => simp [splitOn, byteLength]
  | cons c text ih =>
    rw [splitOn]
    split
    · next hc =>
      rw [List.map_cons, List.sum_cons, ih, byteLength, byteLength, hc]
      omega
    · cases hparts : splitOn sep text with
      | nil => exact absurd hparts (splitOn_ne_nil sep text)
      | cons part parts =>
        rw [hparts, List.map_cons, List.sum_cons] at ih
        rw [List.map_cons, List.sum_cons, byteLength, byteLength]
        omega

namespace Disk

open Path (Component component? IsName)

variable {d : Disk} {l m : Location} {base p q : Path}

/-! ### Paths in a directory -/

theorem walk_current {here : Location} {parts : List (List Char)} :
    walk { d with current := l } here parts = .ok m ↔ d.walk here parts = .ok m := by
  have hthere : Keeps { d with current := l } d := fun _ h => h
  have hback : Keeps d { d with current := l } := fun _ h => h
  exact ⟨walk_keeps hthere, walk_keeps hback⟩

theorem locate_join (hbase : d.find base = .ok (l, .directory)) (hq : q.isAbsolute = false) :
    d.locate (base.join q) = .ok m ↔ pathFault? (base.join q) = none ∧
      d.walk l (splitOn '/' q.text.toList) = .ok m := by
  obtain ⟨-, hpass, hplace⟩ := find_directory_iff.mp hbase
  have hwalk : d.walk (d.origin base) (splitOn '/' base.asDirectory) = .ok l := by
    rw [passable_components_iff, ← Path.filterMap_asDirectory] at hpass
    rw [place_eq, ← Path.filterMap_asDirectory] at hplace
    exact (walk_directory_iff.mpr ⟨hpass, hplace⟩).1
  have horigin : d.origin (base.join q) = d.origin base := by
    rw [origin, origin, Path.isAbsolute_join_eq hq]
  rw [locate_eq_ok_iff, horigin, Path.toList_join hq (text_ne_of_find hbase),
    splitOn_append_cons, walk_append, hwalk]
  rfl

theorem locate_moved (hq : q.isAbsolute = false) :
    locate { d with current := l } q = .ok m ↔ pathFault? q = none ∧
      d.walk l (splitOn '/' q.text.toList) = .ok m := by
  have horigin : origin { d with current := l } q = l := by
    rw [origin, hq]
    rfl
  rw [locate_eq_ok_iff, horigin, walk_current]

theorem byteLength_join (hq : q.isAbsolute = false) (hp : p.text ≠ "") :
    byteLength (p.join q).text.toList =
      byteLength p.asDirectory + 1 + byteLength q.text.toList := by
  rw [Path.toList_join hq hp, byteLength_append, byteLength, ← Nat.add_assoc]
  rfl

theorem byteLength_asDirectory_le (p : Path) :
    byteLength p.asDirectory ≤ byteLength p.text.toList := by
  rcases Path.asDirectory_eq p with hdir | hdir
  · exact Nat.le_of_eq (congrArg byteLength hdir.symm)
  · rw [hdir, byteLength_append]
    exact Nat.le_add_right _ _

theorem pathFault?_join (hbase : pathFault? base = none) (hq : q.isAbsolute = false) :
    pathFault? (base.join q) = none ↔ '\x00' ∉ q.text.toList ∧
      byteLength (base.join q).text.toList ≤ pathLimit := by
  obtain ⟨hnul, hnonempty, -⟩ := pathFault?_eq_none_iff.mp hbase
  have hp : base.text ≠ "" := fun hempty => hnonempty (String.toList_eq_nil_iff.mpr hempty)
  have hnulDir : '\x00' ∉ base.asDirectory := fun hmem => hnul (by
    rcases Path.asDirectory_eq base with hdir | hdir <;> simp [hdir, hmem])
  rw [pathFault?_eq_none_iff, Path.toList_join hq hp]
  simp only [List.mem_append, List.mem_cons, hnulDir, false_or, not_or]
  constructor
  · rintro ⟨⟨-, hnul⟩, -, hfits⟩
    exact ⟨hnul, hfits⟩
  · rintro ⟨hnul, hfits⟩
    exact ⟨⟨by decide, hnul⟩, by simp, hfits⟩

/-- A path that is short enough is found from a directory as it is from the current one. -/
theorem find_join_iff (hbase : d.find base = .ok (l, .directory)) (hq : q.isAbsolute = false)
    (hne : q.text ≠ "") {x : Location × Entry}
    (hfits : find { d with current := l } q = .ok x →
      byteLength (base.join q).text.toList ≤ pathLimit) :
    d.find (base.join q) = .ok x ↔ find { d with current := l } q = .ok x := by
  have hfault := (locate_eq_ok_iff.mp (find_eq_ok_iff.mp hbase).1).1
  obtain ⟨m, e⟩ := x
  have hentry : entry? { d with current := l } m = d.entry? m := rfl
  have hlength := byteLength_join hq (text_ne_of_find hbase)
  have hnonempty : q.text.toList ≠ [] := fun hnil => hne (String.toList_eq_nil_iff.mp hnil)
  constructor
  · intro h
    rw [find_eq_ok_iff, locate_join hbase hq, pathFault?_join hfault hq] at h
    rw [find_eq_ok_iff, locate_moved hq, hentry, pathFault?_eq_none_iff]
    obtain ⟨⟨⟨hnul, hshort⟩, hwalk⟩, hfound⟩ := h
    exact ⟨⟨⟨hnul, hnonempty, by omega⟩, hwalk⟩, hfound⟩
  · intro h
    have hshort := hfits h
    rw [find_eq_ok_iff, locate_moved hq, hentry, pathFault?_eq_none_iff] at h
    rw [find_eq_ok_iff, locate_join hbase hq, pathFault?_join hfault hq]
    exact ⟨⟨⟨h.1.1.1, hshort⟩, h.1.2⟩, h.2⟩

namespace Glob

/-- The length of names with a slash each. -/
def span (names : List String) : Nat := (names.map fun n => byteLength n.toList + 1).sum

theorem span_concat (names : List String) (n : String) :
    span (names ++ [n]) = span names + (byteLength n.toList + 1) := by
  simp [span]

/-- The length of the parts without wildcards, with a slash each. -/
def room : List GlobPart → Nat
  | [] => 0
  | .plain text :: parts => byteLength text + 1 + room parts
  | _ :: parts => room parts

theorem room_tail_le (part : GlobPart) (parts : List GlobPart) :
    room parts ≤ room (part :: parts) := by
  cases part with
  | plain text => exact Nat.le_add_left _ _
  | wild tokens => exact Nat.le_refl _
  | anyDepth => exact Nat.le_refl _

/-- A path in a directory that a search reaches by names, and the same one without the directory.
It is at most as long as the pattern and the names together, with `rest` still to come. -/
structure Below (base : Path) (budget rest : Nat) (b q : Path) : Prop where
  joined : b = base.join q
  names : ∃ names : List String, names ≠ [] ∧ q.components = names.map .name ∧
    byteLength q.text.toList + 1 + rest ≤ budget + span names

variable {budget rest rest' : Nat} {b : Path}

namespace Below

theorem mono (h : Below base budget rest b q) (hrest : rest' ≤ rest) :
    Below base budget rest' b q := by
  obtain ⟨hjoined, names, hne, hcomponents, hlength⟩ := h
  exact ⟨hjoined, names, hne, hcomponents, by omega⟩

theorem isAbsolute (h : Below base budget rest b q) : q.isAbsolute = false := by
  obtain ⟨names, -, hcomponents, -⟩ := h.names
  rw [← Bool.not_eq_true, ← Path.root_mem_components_iff, hcomponents]
  simp

theorem text_ne (h : Below base budget rest b q) : q.text ≠ "" := by
  obtain ⟨names, hne, hcomponents, -⟩ := h.names
  intro hempty
  obtain rfl : q = ⟨""⟩ := by rw [← hempty]
  have hnil : names.map Component.name = [] := hcomponents.symm
  exact hne (List.map_eq_nil_iff.mp hnil)

theorem not_same (h : Below base budget rest b q) : ¬ q.same ⟨"."⟩ = true := by
  obtain ⟨names, hne, hcomponents, -⟩ := h.names
  rw [Path.same_dot_iff, hcomponents]
  cases names with
  | nil => exact absurd rfl hne
  | cons n names => simp

theorem ne_dot (h : Below base budget rest b q) : q ≠ ⟨"."⟩ := by
  rintro rfl
  exact h.not_same (by decide)

/-- Behind the components of the directory, those of both paths are the same. -/
theorem components (h : Below base budget rest b q) (hbase : base.text ≠ "") :
    b.components = base.components ++ q.components := by
  obtain ⟨names, -, hcomponents, -⟩ := h.names
  have hdotless : q.components.head? ≠ some .current := by
    rw [hcomponents]
    cases names <;> simp
  have hparts := Path.components_eq_of_dotless hdotless
  rw [h.isAbsolute, if_neg Bool.false_ne_true, List.nil_append] at hparts
  rw [h.joined, Path.components_join h.isAbsolute hbase, ← hparts]

end Below

theorem below_of_not_same (h : ¬ p.same ⟨"."⟩ = true) (name : String) :
    below p name = p.join ⟨name⟩ := if_neg h

/-- The paths to everything below a place are short enough, with some characters before them. -/
def Roomy (d : Disk) (l : Location) (before : Nat) : Prop :=
  ∀ names e, (l ++ names, e) ∈ d.entries → before + span names ≤ pathLimit

/-- A directory that a search goes through, by a path without a dot at its start. -/
structure Seat (d : Disk) (base : Path) (l : Location) (budget : Nat) : Prop where
  find : d.find base = .ok (l, .directory)
  dotless : base.components.head? ≠ some .current
  named : d.Named
  roomy : Roomy d l (byteLength base.text.toList + budget)

namespace Seat

theorem text_ne (h : Seat d base l budget) : base.text ≠ "" := text_ne_of_find h.find

theorem not_same (h : Seat d base l budget) : ¬ base.same ⟨"."⟩ = true := by
  rw [Path.same_dot_iff]
  intro hdot
  exact h.dotless (by rw [hdot]; rfl)

variable {text : List Char} {n : String}

theorem not_same_below (hseat : Seat d base l budget) (h : Below base budget rest b q) :
    ¬ b.same ⟨"."⟩ = true := by
  rw [Path.same_dot_iff, h.components hseat.text_ne]
  intro hdot
  cases hcomponents : base.components with
  | nil => exact Path.components_ne_nil hseat.text_ne hcomponents
  | cons c rest =>
    rw [hcomponents] at hdot
    exact hseat.dotless (by rw [hcomponents, (List.cons.inj hdot).1]; rfl)

/-- One part more leads both paths on. -/
theorem below_eq (hseat : Seat d base l budget) (h : Below base budget rest b q)
    (hn : '/' ∉ n.toList) :
    below b n = base.join (below q n) ∧ (below q n).components =
        q.components ++ [n.toList].filterMap component? ∧
      byteLength (below q n).text.toList ≤ byteLength q.text.toList + 1 + byteLength n.toList := by
  have hrelative := Path.isAbsolute_of_notMem hn
  have hjoin : (q.join ⟨n⟩).isAbsolute = false :=
    (Path.isAbsolute_join_eq hrelative q).trans h.isAbsolute
  have hb : b.text ≠ "" := h.joined ▸ Path.join_ne_empty h.text_ne base
  rw [below_of_not_same (hseat.not_same_below h), below_of_not_same h.not_same]
  refine ⟨?_, ?_, ?_⟩
  · rw [h.joined] at hb ⊢
    exact Path.join_join h.isAbsolute hrelative hjoin hseat.text_ne hb h.text_ne
  · rw [Path.components_join hrelative h.text_ne, splitOn_of_notMem hn]
  · rw [byteLength_join hrelative h.text_ne]
    have hle := byteLength_asDirectory_le q
    dsimp only
    omega

theorem below_name (hseat : Seat d base l budget) (h : Below base budget rest b q)
    (hn : IsName n.toList) : Below base budget rest (below b n) (below q n) := by
  obtain ⟨hjoined, hcomponents, hlength⟩ := hseat.below_eq h hn.noSlash
  obtain ⟨names, -, hnames, hfits⟩ := h.names
  refine ⟨hjoined, names ++ [n], by simp, ?_, ?_⟩
  · rw [hcomponents, hnames, Path.filterMap_component?, Path.component?_name hn,
      String.ofList_toList, List.map_append]
    rfl
  · rw [span_concat]
    omega

theorem below_plain (hseat : Seat d base l budget)
    (h : Below base budget (byteLength text + 1 + rest) b q) (hslash : '/' ∉ text)
    (hdot : text ≠ ['.']) (hdots : text ≠ ['.', '.']) :
    Below base budget rest (below b (String.ofList text)) (below q (String.ofList text)) := by
  have hslash' : '/' ∉ (String.ofList text).toList := String.toList_ofList.symm ▸ hslash
  obtain ⟨hjoined, hcomponents, hlength⟩ := hseat.below_eq h hslash'
  obtain ⟨names, hne, hnames, hfits⟩ := h.names
  rw [String.toList_ofList] at hcomponents hlength
  by_cases hnil : text = []
  · refine ⟨hjoined, names, hne, ?_, by omega⟩
    rw [hcomponents, hnames, hnil]
    exact List.append_nil _
  · refine ⟨hjoined, names ++ [String.ofList text], by simp, ?_, ?_⟩
    · rw [hcomponents, hnames, Path.filterMap_component?,
        Path.component?_name ⟨hnil, hdot, hdots, hslash⟩, List.map_append]
      rfl
    · rw [span_concat]
      omega

/-- The first name below the directory is a name in the current directory. -/
theorem below_first (hseat : Seat d base l budget) (hn : IsName n.toList) (hrest : rest ≤ budget) :
    Below base budget rest (below base n) (below ⟨"."⟩ n) := by
  have hcurrent : below ⟨"."⟩ n = ⟨n⟩ := if_pos (by decide)
  rw [below_of_not_same hseat.not_same, hcurrent]
  refine ⟨rfl, [n], List.cons_ne_nil _ _, (Path.components_name hn).2, ?_⟩
  simp only [span, List.map_cons, List.map_nil, List.sum_cons, List.sum_nil]
  omega

end Seat

/-- The paths of a search in a directory and of the same search in the current directory. -/
inductive Twin (base : Path) (budget rest : Nat) : Path → Path → Prop where
  | here (h : rest ≤ budget) : Twin base budget rest base ⟨"."⟩
  | below {b q : Path} (h : Below base budget rest b q) : Twin base budget rest b q

theorem Twin.mono (h : Twin base budget rest b q) (hrest : rest' ≤ rest) :
    Twin base budget rest' b q := by
  cases h with
  | here h => exact .here (Nat.le_trans hrest h)
  | below h => exact .below (h.mono hrest)

theorem foldl_enter_names (names : List String) (here : Location) :
    (names.map Component.name).foldl Component.enter here = here ++ names := by
  have hdescending : Path.Descending (names.map .name) := ⟨by simp, by simp⟩
  rw [hdescending.foldl_enter, List.filterMap_map]
  exact congrArg (here ++ ·) List.filterMap_some

namespace Seat

/-- What is found below the place is an entry of the tree. -/
theorem mem_entries_of_find {names : List String} {e : Entry} (hne : names ≠ [])
    (hcomponents : q.components = names.map .name)
    (h : Disk.find { d with current := l } q = .ok (m, e)) : (l ++ names, e) ∈ d.entries := by
  obtain ⟨hlocate, hentry⟩ := find_eq_ok_iff.mp h
  have hrelative : q.isAbsolute = false := by
    rw [← Bool.not_eq_true, ← Path.root_mem_components_iff, hcomponents]
    simp
  have hplace : m = l ++ names := by
    rw [eq_place_of_locate hlocate, place, origin, hrelative, hcomponents]
    exact foldl_enter_names names l
  have hm : m ≠ [] := by simp [hplace, hne]
  have hlookup : d.entries.lookup m = some e := (if_neg hm).symm.trans hentry
  obtain ⟨before, behind, hentries, -⟩ := List.lookup_eq_some_iff.mp hlookup
  rw [← hplace, hentries]
  exact List.mem_append_right before List.mem_cons_self

/-- Both paths find the same. -/
theorem find_iff (hseat : Seat d base l budget) (h : Twin base budget rest b q)
    (x : Location × Entry) : d.find b = .ok x ↔ Disk.find { d with current := l } q = .ok x := by
  cases h with
  | here =>
    have hdir := (find_eq_ok_iff.mp hseat.find).2
    have hcurrent : Disk.find { d with current := l } ⟨"."⟩ = .ok (l, .directory) :=
      find_directory_iff.mpr ⟨by decide, ⟨hdir, by decide, hdir⟩, rfl⟩
    rw [hseat.find, hcurrent]
  | below h =>
    obtain ⟨m, e⟩ := x
    rw [h.joined]
    refine find_join_iff hseat.find h.isAbsolute h.text_ne fun hfind => ?_
    obtain ⟨names, hne, hcomponents, hlength⟩ := h.names
    have hshort := hseat.roomy names e (mem_entries_of_find hne hcomponents hfind)
    have hdir := byteLength_asDirectory_le base
    rw [byteLength_join h.isAbsolute hseat.text_ne]
    omega

theorem isDirectory_eq (hseat : Seat d base l budget) (h : Twin base budget rest b q) :
    d.isDirectory b = Disk.isDirectory { d with current := l } q := by
  rw [Bool.eq_iff_iff, isDirectory_iff, isDirectory_iff]
  exact exists_congr fun m => hseat.find_iff h (m, .directory)

theorem isThere_eq (hseat : Seat d base l budget) (h : Twin base budget rest b q) :
    d.isThere b = Disk.isThere { d with current := l } q := by
  rw [Bool.eq_iff_iff, isThere_iff, isThere_iff]
  exact exists_congr fun x => hseat.find_iff h x

theorem isFile_eq (hseat : Seat d base l budget) (h : Twin base budget rest b q) :
    d.isFile b = Disk.isFile { d with current := l } q := by
  rw [Bool.eq_iff_iff, isFile_iff_find, isFile_iff_find]
  exact exists_congr fun m => exists_congr fun content => exists_congr fun executable =>
    hseat.find_iff h (m, .file content executable)

theorem below_twin (hseat : Seat d base l budget) (h : Twin base budget rest b q) {n : String}
    (hn : IsName n.toList) : Below base budget rest (below b n) (below q n) := by
  cases h with
  | here h => exact hseat.below_first hn h
  | below h => exact hseat.below_name h hn

theorem forall₂_childrenOf (hseat : Seat d base l budget) (h : Twin base budget rest b q) :
    List.Forall₂ (Below base budget rest) (childrenOf d b)
      (childrenOf { d with current := l } q) := by
  by_cases hdir : d.isDirectory b = true
  · obtain ⟨m, hfind⟩ := isDirectory_iff.mp hdir
    rw [childrenOf_eq hfind, childrenOf_eq ((hseat.find_iff h _).mp hfind)]
    rw [List.forall₂_map_left_iff, List.forall₂_map_right_iff]
    exact List.forall₂_same.mpr fun n hn =>
      hseat.below_twin h (hseat.named.isName_of_mem_children hn)
  · have hdir' := hseat.isDirectory_eq h ▸ hdir
    rw [childrenOf_eq_nil hdir, childrenOf_eq_nil hdir']
    exact .nil

theorem forall₂_descendants (hseat : Seat d base l budget) (depth : Nat)
    (h : Twin base budget rest b q) : List.Forall₂ (Below base budget rest)
      (descendants d depth b) (descendants { d with current := l } depth q) := by
  induction depth generalizing b q with
  | zero => exact .nil
  | succ depth ih =>
    exact List.rel_flatMap (hseat.forall₂_childrenOf h) fun _ _ hc => .cons hc (ih (.below hc))

theorem nameMatches_eq (hseat : Seat d base l budget) (h : Below base budget rest b q)
    (part : GlobPart) : nameMatches part b = nameMatches part q := by
  have hname : b.fileName? = q.fileName? := by
    rw [Path.fileName?, Path.fileName?, h.components hseat.text_ne,
      List.getLast?_append_of_ne_nil _ (Path.components_ne_nil h.text_ne)]
  rw [nameMatches, nameMatches, hname]

theorem forall₂_named (hseat : Seat d base l budget) (part : GlobPart) {bs qs : List Path}
    (h : List.Forall₂ (Below base budget rest) bs qs) : List.Forall₂ (Below base budget rest)
      (bs.filter (nameMatches part)) (qs.filter (nameMatches part)) := by
  refine List.rel_filter (fun b q hbq => ?_) h
  exact iff_of_eq (congrArg (· = true) (hseat.nameMatches_eq hbq part))

/-- A part without wildcards leads both paths on. -/
theorem below_text {text : List Char} {parts : List GlobPart} (hseat : Seat d base l budget)
    (hpart : (GlobPart.plain text).Steady) (h : Twin base budget (room (.plain text :: parts)) b q)
    (hfirst : q = ⟨"."⟩ → text ≠ []) : Below base budget (room parts)
      (Glob.below b (String.ofList text)) (Glob.below q (String.ofList text)) := by
  have hslash := hpart.noSlash text rfl
  obtain ⟨hdot, hdots⟩ := not_or.mp hpart.not_dots
  cases h with
  | here h =>
    have hname : IsName (String.ofList text).toList :=
      String.toList_ofList.symm ▸ ⟨hfirst rfl, hdot, hdots, hslash⟩
    exact hseat.below_first hname (Nat.le_trans (room_tail_le _ parts) h)
  | below h => exact hseat.below_plain h hslash hdot hdots

/-- The same search finds the same in both places. -/
theorem forall₂_search {parts : List GlobPart} (hseat : Seat d base l budget)
    (hparts : ∀ part ∈ parts, part.Steady) (h : Twin base budget (room parts) b q)
    (hfirst : q = ⟨"."⟩ → parts.head? ≠ some (.plain [])) :
    List.Forall₂ (Twin base budget 0) (search d b parts)
      (search { d with current := l } q parts) := by
  -- Each plain part uses up its share of the room; a name that was matched brings its own along.
  induction b, parts using search.induct d generalizing q with
  | case1 b =>
    rw [search, search]
    exact .cons h .nil
  | @case2 b text parts next isThere hthere ih =>
    obtain ⟨hpart, hparts⟩ := List.forall_mem_cons.mp hparts
    have hbelow := hseat.below_text hpart h fun hq htext => hfirst hq (by rw [htext]; rfl)
    rw [search_plain hpart, search_plain hpart, ← hseat.isThere_eq (.below hbelow)]
    split
    · exact ih hparts (.below hbelow) fun hdot => absurd hdot hbelow.ne_dot
    · exact .nil
  | @case3 b text parts next isThere hthere =>
    obtain ⟨hpart, hparts⟩ := List.forall_mem_cons.mp hparts
    have hbelow := hseat.below_text hpart h fun hq htext => hfirst hq (by rw [htext]; rfl)
    rw [search_plain hpart, search_plain hpart, ← hseat.isThere_eq (.below hbelow)]
    split
    · next hthere' => exact absurd ((if_neg hpart.not_dots).trans hthere') hthere
    · exact .nil
  | case4 b tokens parts hdir ih =>
    obtain ⟨hpart, hparts⟩ := List.forall_mem_cons.mp hparts
    rw [search_wild hpart, search_wild hpart, ← hseat.isDirectory_eq h, if_pos hdir, if_pos hdir]
    exact List.rel_flatMap (hseat.forall₂_named _ (hseat.forall₂_childrenOf h)) fun c c' hc =>
      ih c hparts (.below hc) fun hdot => absurd hdot hc.ne_dot
  | case5 b tokens parts hdir =>
    have hpart := (List.forall_mem_cons.mp hparts).1
    rw [search_wild hpart, search_wild hpart, ← hseat.isDirectory_eq h, if_neg hdir, if_neg hdir]
    exact .nil
  | case6 b =>
    rw [search, search]
    refine List.Forall₂.imp (fun c c' hc => .below hc) ?_
    refine List.rel_filter (fun c c' hc => ?_) (hseat.forall₂_descendants _ h)
    exact iff_of_eq (congrArg (· = true) (hseat.isDirectory_eq (.below hc)))
  | case7 b parts ih =>
    rw [search, search]
    refine ih (List.forall_mem_cons.mp hparts).2 h fun _ hhead => ?_
    cases hhead
  | case8 b part parts hpart ih =>
    have hsteady := (List.forall_mem_cons.mp (List.forall_mem_cons.mp hparts).2).2
    rw [search, search]
    · refine List.rel_flatMap (hseat.forall₂_named _ (hseat.forall₂_descendants _ h)) ?_
      intro c c' hc
      exact ih c hsteady (.below (hc.mono (room_tail_le part parts))) fun hdot =>
        absurd hdot hc.ne_dot
    · exact hpart
    · exact hpart

end Seat

end Glob

end Disk

end DocSnippets
