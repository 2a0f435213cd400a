import DocSnippets.Package.Discovery
import DocSnippets.Proofs.Disk.Growth
import DocSnippets.Proofs.Disk.Passage
import DocSnippets.Proofs.Path.Parent
import Mathlib.Data.List.Infix

/-!
# The nearest package

Going up from a directory follows its path as it is spelled: the places to which fewer and fewer of
the components lead are tried in turn. Where no component goes up, these are the directories that
enclose the start, from itself to the root, or to the current directory for a relative path, and the
deepest one with a manifest is found. Behind a component that goes up they are other directories.
-/

namespace DocSnippets

open Text
open Path (Component)

namespace Path

variable {p q : Path}

/-- The components of a path behind its root. -/
def steps (p : Path) : List Component :=
  if p.isAbsolute then p.components.tail else p.components

theorem components_eq_root_append (p : Path) :
    p.components = (if p.isAbsolute then [.root] else []) ++ p.steps := by
  obtain ⟨dot, -, hcomponents⟩ := components_eq p
  rw [steps]
  cases habsolute : p.isAbsolute with
  | false => rfl
  | true =>
    rw [hcomponents, habsolute]
    rfl

theorem steps_of_top (h : p.components = [] ∨ p.components = [.root]) : p.steps = [] := by
  rw [steps]
  rcases h with hnil | hroot
  · simp [hnil]
  · rw [if_pos (root_mem_components_iff.mp (hroot ▸ List.mem_cons_self)), hroot]
    rfl

theorem IsParent.exists_steps (h : p.IsParent q) : ∃ c, p.steps = q.steps ++ [c] := by
  obtain ⟨c, -, hcomponents⟩ := h.components
  refine ⟨c, ?_⟩
  rw [components_eq_root_append, components_eq_root_append q, h.kind, List.append_assoc]
    at hcomponents
  exact List.append_cancel_left hcomponents

theorem descending_steps (h : .parent ∉ p.components) : Descending p.steps := by
  have hcomponents := components_eq_root_append p
  constructor
  case noParent => exact fun hmem => h (hcomponents ▸ List.mem_append_right _ hmem)
  case noRoot =>
    rw [steps]
    cases habsolute : p.isAbsolute with
    | false => exact root_notMem_components habsolute
    | true => exact (regular_components p).rootFirst

/-- What a path shares with a path above it. -/
structure Front (p q : Path) : Prop where
  kind : q.isAbsolute = p.isAbsolute
  components : ∃ cs, p.components = q.components ++ cs
  text : q = p ∨ ∃ rest, rest ≠ [] ∧ p.text.toList = q.text.toList ++ rest

theorem Above.front (h : p.Above q) : p.Front q := by
  induction h with
  | refl => exact ⟨rfl, ⟨[], (List.append_nil _).symm⟩, .inl rfl⟩
  | @tail middle above _ hparent ih =>
    have hstep := isParent_of_parent? hparent
    obtain ⟨c, -, hcomponents⟩ := hstep.components
    obtain ⟨rest, hrest, htext⟩ := hstep.text
    obtain ⟨cs, hcs⟩ := ih.components
    refine ⟨hstep.kind.trans ih.kind, ⟨c :: cs, ?_⟩, .inr ?_⟩
    · rw [hcs, hcomponents, List.append_assoc]
      rfl
    · rcases ih.text with rfl | ⟨more, -, hmore⟩
      · exact ⟨rest, hrest, htext⟩
      · exact ⟨rest ++ more, by simp [hrest], by rw [hmore, htext, List.append_assoc]⟩

end Path

namespace Disk

variable {d : Disk} {p q : Path}

/-- The places to which a path leads when its components are taken off, one after the other. -/
def placesUp (d : Disk) (p : Path) : List Location :=
  p.steps.inits.reverse.map fun cs => cs.foldl Component.enter (d.origin p)

theorem place_eq_steps (d : Disk) (p : Path) :
    d.place p = p.steps.foldl Component.enter (d.origin p) := by
  rw [place, Path.components_eq_root_append, origin]
  cases p.isAbsolute <;> rfl

theorem placesUp_of_steps_nil (h : p.steps = []) : d.placesUp p = [d.place p] := by
  rw [placesUp, place_eq_steps, h]
  rfl

theorem placesUp_of_isParent (h : p.IsParent q) : d.placesUp p = d.place p :: d.placesUp q := by
  obtain ⟨c, hsteps⟩ := h.exists_steps
  rw [placesUp, place_eq_steps, hsteps, List.inits_append, placesUp, origin, origin, h.kind]
  simp

section Descending

variable {m : Location} (h : Path.Descending p.steps)
include h

theorem placesUp_eq_names (d : Disk) : d.placesUp p =
    p.steps.inits.reverse.map fun cs => d.origin p ++ cs.filterMap Component.name? := by
  apply List.map_congr_left
  intro cs hcs
  have hinit : cs <+: p.steps := (List.mem_inits cs p.steps).mp (List.mem_reverse.mp hcs)
  have hdescending : Path.Descending cs :=
    ⟨fun hmem => h.noRoot (hinit.subset hmem), fun hmem => h.noParent (hinit.subset hmem)⟩
  exact hdescending.foldl_enter (d.origin p)

theorem mem_placesUp_iff : m ∈ d.placesUp p ↔ m <+: d.place p ∧ d.origin p <+: m := by
  rw [placesUp_eq_names h, place_eq_steps, h.foldl_enter, List.mem_map]
  constructor
  · rintro ⟨cs, hcs, rfl⟩
    have hinit : cs <+: p.steps := (List.mem_inits cs p.steps).mp (List.mem_reverse.mp hcs)
    exact ⟨(List.prefix_append_right_inj _).mpr (hinit.filterMap _), List.prefix_append _ _⟩
  · rintro ⟨hplace, names, rfl⟩
    obtain ⟨cs, hinit, rfl⟩ :=
      List.prefix_filterMap_iff.mp ((List.prefix_append_right_inj _).mp hplace)
    exact ⟨cs, List.mem_reverse.mpr ((List.mem_inits cs p.steps).mpr hinit), rfl⟩

/-- Each place encloses the places before it. -/
theorem placesUp_pairwise (d : Disk) : (d.placesUp p).Pairwise fun a b => b <+: a := by
  have hinits : p.steps.inits.Pairwise fun a b => a <+: b := by
    rw [List.pairwise_iff_getElem]
    intro i j hi hj hlt
    rw [List.getElem_inits, List.getElem_inits]
    exact List.take_prefix_take_left (Nat.le_of_lt hlt)
  rw [placesUp_eq_names h, List.pairwise_map, List.pairwise_reverse]
  exact hinits.imp fun hinit => (List.prefix_append_right_inj _).mpr (hinit.filterMap _)

end Descending

end Disk

namespace Package

/-- The directory at a place holds a manifest, which is a file. -/
def HoldsManifest (d : Disk) (l : Location) : Prop :=
  ∃ content executable, d.entry? (l ++ [manifestName]) = some (.file content executable)

/-- A path that is the start or stands above it, and whose manifest is the one at a place. -/
structure Spells (d : Disk) (start root : Path) (place : Location) : Prop where
  above : start.Above root
  manifest : d.locate (manifestOf root) = .ok (place ++ [manifestName])

/-- The first of some places with a manifest is found, and nothing if there is none. -/
inductive FirstAmong (d : Disk) (start : Path) : List Location → Option Path → Prop where
  | found {before behind : List Location} {place : Location} {root : Path}
      (hroot : Spells d start root place) (hplace : HoldsManifest d place)
      (hbefore : ∀ m ∈ before, ¬ HoldsManifest d m) :
      FirstAmong d start (before ++ place :: behind) (some root)
  | nowhere {places : List Location} (h : ∀ m ∈ places, ¬ HoldsManifest d m) :
      FirstAmong d start places none

/-- The deepest directory with a manifest is found among those that enclose a place and lie below
the origin of the start, and nothing if none of them has one. -/
inductive Nearest (d : Disk) (start : Path) (l : Location) : Option Path → Prop where
  | found {place : Location} {root : Path} (hroot : Spells d start root place)
      (hplace : HoldsManifest d place) (hencloses : place <+: l)
      (hbelow : d.origin start <+: place)
      (hdeepest : ∀ m, m <+: l → d.origin start <+: m → HoldsManifest d m → m <+: place) :
      Nearest d start l (some root)
  | nowhere (h : ∀ m, m <+: l → d.origin start <+: m → ¬ HoldsManifest d m) :
      Nearest d start l none

variable {d : Disk} {start p q : Path} {l : Location}

theorem FirstAmong.cons {places : List Location} {found : Option Path} {m : Location}
    (hm : ¬ HoldsManifest d m) (h : FirstAmong d start places found) :
    FirstAmong d start (m :: places) found := by
  cases h with
  | found hroot hplace hbefore =>
    exact .found hroot hplace (List.forall_mem_cons.mpr ⟨hm, hbefore⟩)
  | nowhere h => exact .nowhere (List.forall_mem_cons.mpr ⟨hm, h⟩)

theorem isName_manifestName : Path.IsName manifestName.toList := by
  constructor <;> decide

/-- A slash stands between a path and its manifest, unless the path is empty or ends with one. -/
theorem toList_manifestOf (p : Path) : ∃ slash, (slash = [] ∨ slash = ['/']) ∧
    (manifestOf p).text.toList = p.text.toList ++ (slash ++ manifestName.toList) := by
  rw [manifestOf, Path.join, if_neg (by decide)]
  split
  · exact ⟨[], .inl rfl, String.toList_append⟩
  · refine ⟨['/'], .inr rfl, ?_⟩
    rw [String.toList_append, String.toList_append, List.append_assoc]
    rfl

/-- A path above another one has a manifest with a good path, if the other one has. -/
theorem pathFault?_manifestOf (hstart : Disk.pathFault? start = none)
    (hfits : byteLength (manifestOf start).text.toList ≤ Disk.pathLimit)
    (hq : start.Front q) : Disk.pathFault? (manifestOf q) = none := by
  have hslash : byteLength ['/'] = 1 := by decide
  have hname : '\x00' ∉ manifestName.toList := by decide
  obtain ⟨slash, hcases, htext⟩ := toList_manifestOf q
  obtain ⟨slash', -, htext'⟩ := toList_manifestOf start
  obtain ⟨hnul, -, -⟩ := Disk.pathFault?_eq_none_iff.mp hstart
  have hfront : '\x00' ∉ q.text.toList := by
    rcases hq.text with rfl | ⟨rest, -, hrest⟩
    · exact hnul
    · exact fun hmem => hnul (hrest ▸ List.mem_append_left rest hmem)
  refine Disk.pathFault?_eq_none_iff.mpr ⟨?_, ?_, ?_⟩
  · rw [htext]
    rcases hcases with rfl | rfl <;> simp [hfront, hname]
  · rw [htext]
    simp [manifestName]
  · rcases hq.text with rfl | ⟨rest, hne, hrest⟩
    · exact hfits
    · -- What was taken off is at least as long as the slash that may be put in its place.
      obtain ⟨c, rest, rfl⟩ := List.exists_cons_of_ne_nil hne
      have hpos : 0 < c.utf8Size := c.utf8Size_pos
      rw [htext', hrest] at hfits
      rw [htext]
      simp only [byteLength_append, byteLength] at hfits ⊢
      rcases hcases with rfl | rfl
      · rw [byteLength]
        omega
      · omega

theorem locate_manifestOf (hstart : d.find start = .ok (l, .directory))
    (hfits : byteLength (manifestOf start).text.toList ≤ Disk.pathLimit) (hq : start.Front q) :
    d.locate (manifestOf q) = .ok (d.place q ++ [manifestName]) := by
  obtain ⟨hfault, hpass, -⟩ := Disk.find_directory_iff.mp hstart
  have horigin : d.origin q = d.origin start := by rw [Disk.origin, hq.kind, Disk.origin]
  obtain ⟨cs, hcs⟩ := hq.components
  rw [hcs, Disk.passable_append_iff, ← horigin] at hpass
  have hshort : byteLength manifestName.toList ≤ Disk.nameLimit := by decide
  exact (Disk.locate_join_iff isName_manifestName).mpr
    ⟨pathFault?_manifestOf hfault hfits hq, hpass.1, hshort, rfl⟩

theorem isFile_manifestOf_iff (hstart : d.find start = .ok (l, .directory))
    (hfits : byteLength (manifestOf start).text.toList ≤ Disk.pathLimit) (hq : start.Front q) :
    d.isFile (manifestOf q) = true ↔ HoldsManifest d (d.place q) := by
  have hmanifest := locate_manifestOf hstart hfits hq
  rw [Disk.isFile_iff, HoldsManifest]
  constructor
  · rintro ⟨m, content, executable, hlocate, hentry⟩
    obtain rfl := Except.ok.inj (hmanifest.symm.trans hlocate)
    exact ⟨content, executable, hentry⟩
  · rintro ⟨content, executable, hentry⟩
    exact ⟨_, content, executable, hmanifest, hentry⟩

/-- A path is tried before those above it. -/
theorem FirstAmong.try_path (hstart : d.find start = .ok (l, .directory))
    (hfits : byteLength (manifestOf start).text.toList ≤ Disk.pathLimit) (hp : start.Above p)
    {paths : List Path} {places : List Location}
    (h : FirstAmong d start places (paths.find? fun q => d.isFile (manifestOf q))) :
    FirstAmong d start (d.place p :: places)
      ((p :: paths).find? fun q => d.isFile (manifestOf q)) := by
  have hholds := isFile_manifestOf_iff hstart hfits hp.front
  rw [List.find?_cons]
  cases hfile : d.isFile (manifestOf p) with
  | true =>
    rw [hfile, eq_self, true_iff] at hholds
    have hroot : Spells d start p (d.place p) := ⟨hp, locate_manifestOf hstart hfits hp.front⟩
    have hbefore : ∀ m ∈ ([] : List Location), ¬ HoldsManifest d m := List.forall_mem_nil _
    exact .found hroot hholds hbefore
  | false =>
    rw [hfile] at hholds
    exact h.cons fun hplace => Bool.false_ne_true (hholds.mpr hplace)

/-- Going up tries the places on the way one after the other. -/
theorem firstAmong_pathsUp (hstart : d.find start = .ok (l, .directory))
    (hfits : byteLength (manifestOf start).text.toList ≤ Disk.pathLimit) {fuel : Nat}
    (hp : start.Above p) (hfuel : p.steps.length ≤ fuel) :
    FirstAmong d start (d.placesUp p)
      ((pathsUp fuel p).find? fun q => d.isFile (manifestOf q)) := by
  have hnone : FirstAmong d start [] (([] : List Path).find? fun q => d.isFile (manifestOf q)) :=
    .nowhere (List.forall_mem_nil _)
  induction fuel generalizing p with
  | zero =>
    have hnil := List.eq_nil_of_length_eq_zero (Nat.le_zero.mp hfuel)
    rw [Disk.placesUp_of_steps_nil hnil, pathsUp]
    exact hnone.try_path hstart hfits hp
  | succ fuel ih =>
    rw [pathsUp]
    rcases Path.parent?_spec p with ⟨hparent, htop⟩ | ⟨q, hparent, hq⟩
    · rw [hparent, Disk.placesUp_of_steps_nil (Path.steps_of_top htop)]
      exact hnone.try_path hstart hfits hp
    · obtain ⟨c, hsteps⟩ := hq.exists_steps
      have hlength : q.steps.length ≤ fuel := by
        rw [hsteps, List.length_append, List.length_singleton] at hfuel
        omega
      rw [hparent, Disk.placesUp_of_isParent hq]
      exact (ih (hp.tail hparent) hlength).try_path hstart hfits hp

theorem findRoot?_firstAmong (hstart : d.find start = .ok (l, .directory))
    (hfits : byteLength (manifestOf start).text.toList ≤ Disk.pathLimit) :
    FirstAmong d start (d.placesUp start) (findRoot? d start) := by
  apply firstAmong_pathsUp hstart hfits .refl
  have hlength := congrArg List.length (Path.components_eq_root_append start)
  rw [List.length_append] at hlength
  omega

theorem FirstAmong.nearest {found : Option Path} (hdown : .parent ∉ start.components)
    (h : FirstAmong d start (d.placesUp start) found) :
    Nearest d start (d.place start) found := by
  have hdescending := Path.descending_steps hdown
  have hmem (m : Location) := Disk.mem_placesUp_iff (d := d) (m := m) hdescending
  have hpairwise := Disk.placesUp_pairwise hdescending d
  generalize d.placesUp start = places at h hmem hpairwise
  cases h with
  | nowhere h => exact .nowhere fun m hplace horigin => h m ((hmem m).mpr ⟨hplace, horigin⟩)
  | @found before behind place root hroot hplace hbefore =>
    obtain ⟨hencloses, hbelow⟩ :=
      (hmem place).mp (List.mem_append_right before List.mem_cons_self)
    refine .found hroot hplace hencloses hbelow fun m hm horigin hholds => ?_
    rcases List.mem_append.mp ((hmem m).mpr ⟨hm, horigin⟩) with hfront | hback
    · exact absurd hholds (hbefore m hfront)
    · rcases List.mem_cons.mp hback with rfl | hback
      · exact List.prefix_rfl
      · exact (List.pairwise_cons.mp (List.pairwise_append.mp hpairwise).2.1).1 m hback

/-- Going up from a directory finds the first place with a manifest on the way that the path spells.
Where no component goes up, this is the deepest directory with a manifest that encloses the start,
down from the root or, for a relative path, from the current directory. -/
theorem findRoot_nearest (hstart : d.find start = .ok (l, .directory))
    (hfits : byteLength (manifestOf start).text.toList ≤ Disk.pathLimit) :
    FirstAmong d start (d.placesUp start) (findRoot? d start) ∧
      (.parent ∉ start.components → Nearest d start l (findRoot? d start)) := by
  have hfirst := findRoot?_firstAmong hstart hfits
  obtain ⟨-, -, rfl⟩ := Disk.find_directory_iff.mp hstart
  exact ⟨hfirst, fun hdown => hfirst.nearest hdown⟩

/-- A package in a package, and a directory beside the inner one. -/
def nestedTree : Disk where
  entries := [(["lib"], .directory), (["lib", "package.json"], .file .empty false),
    (["lib", "docs"], .directory), (["lib", "docs", "guides"], .directory),
    (["lib", "app"], .directory), (["lib", "app", "package.json"], .file .empty false)]
  current := ["lib", "docs"]

/-- A start with a dot and doubled slashes, two directories below the package. -/
theorem findRoot_nearest_nested :
    nestedTree.find ⟨"/lib/.//docs/guides/"⟩ = .ok (["lib", "docs", "guides"], .directory) ∧
      byteLength (manifestOf ⟨"/lib/.//docs/guides/"⟩).text.toList ≤ Disk.pathLimit ∧
      FirstAmong nestedTree ⟨"/lib/.//docs/guides/"⟩ [["lib", "docs", "guides"], ["lib", "docs"],
        ["lib"], []] (some ⟨"/lib"⟩) ∧
      Nearest nestedTree ⟨"/lib/.//docs/guides/"⟩ ["lib", "docs", "guides"] (some ⟨"/lib"⟩) := by
  have hstart : nestedTree.find ⟨"/lib/.//docs/guides/"⟩ =
      .ok (["lib", "docs", "guides"], .directory) := rfl
  have hfits : byteLength (manifestOf ⟨"/lib/.//docs/guides/"⟩).text.toList ≤ Disk.pathLimit := by
    decide
  obtain ⟨hfirst, hnearest⟩ := findRoot_nearest hstart hfits
  exact ⟨hstart, hfits, hfirst, hnearest (by decide)⟩

/-- A relative start is not left behind: the package above the current directory is not found. -/
example : findRoot? nestedTree ⟨"guides"⟩ = none := rfl

/-- A package in a directory that is in no package. -/
def innerTree : Disk where
  entries := [(["lib"], .directory), (["lib", "app"], .directory),
    (["lib", "app", "package.json"], .file .empty false)]
  current := []

/-- A path that goes up at its end leads to a directory in no package, and the package that the path
has left is found. -/
theorem left_package_found :
    innerTree.find ⟨"lib/app/.."⟩ = .ok (["lib"], .directory) ∧
      findRoot? innerTree ⟨"lib/app/.."⟩ = some ⟨"lib/app"⟩ ∧
      innerTree.find ⟨"lib/app"⟩ = .ok (["lib", "app"], .directory) ∧
      ¬ ["lib", "app"] <+: ["lib"] ∧
      ∀ m, m <+: ["lib"] → ¬ HoldsManifest innerTree m := by
  refine ⟨rfl, rfl, rfl, by decide, fun m hm => ?_⟩
  rw [← List.mem_inits] at hm
  rintro ⟨content, executable, hentry⟩
  simp only [List.inits, List.map_cons, List.map_nil, List.mem_cons, List.not_mem_nil,
    or_false] at hm
  rcases hm with rfl | rfl <;> cases hentry

end Package

end DocSnippets
