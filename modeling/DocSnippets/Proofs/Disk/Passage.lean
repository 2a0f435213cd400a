import DocSnippets.Proofs.Disk.Walk
import DocSnippets.Proofs.Path.Components

/-!
# The way to a directory

A walk that ends in a directory has gone through directories alone. So the components of a path
decide whether it leads to a directory, and to which; dots and doubled slashes play no part. A name
in a directory is found exactly if the way to the directory is free.
-/

namespace DocSnippets

open Text

namespace Path

theorem text_of_component? {part : List Char} {c : Component} (h : component? part = some c) :
    c.text.toList = part := by
  unfold component? at h
  split at h
  · cases h
  · split at h
    · next hdots =>
      obtain rfl := Option.some.inj h
      exact hdots.symm
    · obtain rfl := Option.some.inj h
      exact String.toList_ofList

theorem component?_eq_none_iff {part : List Char} :
    component? part = none ↔ part = [] ∨ part = ['.'] := by
  unfold component?
  split
  · next h => simp [h]
  · next h =>
    refine iff_of_false ?_ h
    split <;> exact Option.some_ne_none _

theorem component?_name {name : List Char} (h : IsName name) :
    component? name = some (.name (String.ofList name)) := by
  rw [component?, if_neg (not_or.mpr ⟨h.ne_nil, h.ne_dot⟩), if_neg h.ne_dots]

/-- The components of a path that lead anywhere are its parts. -/
theorem foldl_components (p : Path) (here : List String) (h : p.isAbsolute = true → here = []) :
    p.components.foldl Component.enter here =
      ((splitOn '/' p.text.toList).filterMap component?).foldl Component.enter here := by
  cases habsolute : p.isAbsolute with
  | false => exact foldl_enter_components habsolute here
  | true =>
    rw [h habsolute]
    exact names_eq p

end Path

namespace Disk

open Path (Component component? IsName)

/-- The place from which the components of a path are followed. -/
def origin (d : Disk) (p : Path) : Location := if p.isAbsolute then [] else d.current

/-- The place to which the components of a path lead, one after the other. -/
def place (d : Disk) (p : Path) : Location := p.components.foldl Component.enter (d.origin p)

/-- Components that lead from a place through directories alone. -/
def Passable (d : Disk) : Location → List Component → Prop
  | here, [] => d.entry? here = some .directory
  | here, c :: cs => d.entry? here = some .directory ∧ byteLength c.text.toList ≤ nameLimit ∧
      d.Passable (c.enter here) cs

variable {d : Disk} {here l : Location} {p : Path} {parts : List (List Char)}

theorem Passable.directory {cs : List Component} (h : d.Passable here cs) :
    d.entry? here = some .directory := by
  cases cs with
  | nil => exact h
  | cons c cs => exact h.1

theorem passable_append_iff (front back : List Component) : d.Passable here (front ++ back) ↔
    d.Passable here front ∧ d.Passable (front.foldl Component.enter here) back := by
  induction front generalizing here with
  | nil =>
    rw [List.nil_append, List.foldl_nil]
    exact ⟨fun h => ⟨h.directory, h⟩, And.right⟩
  | cons c front ih =>
    rw [List.cons_append, List.foldl_cons, Passable, Passable, ih, and_assoc, and_assoc]

/-- From a directory the walk goes on where its first part leads. -/
theorem walk_cons (h : d.entry? here = some .directory) (part : List Char) :
    d.walk here (part :: parts) =
      if nameLimit < byteLength part then .error .nameTooLong
      else d.walk (((component? part).map fun c => c.enter here).getD here) parts := by
  rw [walk, h]
  dsimp only
  split
  · rfl
  · rw [component?]
    split
    · rfl
    · split <;> rfl

theorem directory_of_walk {part : List Char} (h : d.walk here (part :: parts) = .ok l) :
    d.entry? here = some .directory := by
  rw [walk] at h
  split at h
  · cases h
  · cases h
  · assumption

theorem walk_directory_iff : d.walk here parts = .ok l ∧ d.entry? l = some .directory ↔
    d.Passable here (parts.filterMap component?) ∧
      l = (parts.filterMap component?).foldl Component.enter here := by
  induction parts generalizing here with
  | nil =>
    rw [walk, List.filterMap_nil, List.foldl_nil, Passable, Except.ok.injEq]
    constructor
    · rintro ⟨rfl, hdir⟩
      exact ⟨hdir, rfl⟩
    · rintro ⟨hdir, rfl⟩
      exact ⟨rfl, hdir⟩
  | cons part parts ih =>
    by_cases hdir : d.entry? here = some .directory
    · rw [walk_cons hdir, List.filterMap_cons]
      cases hpart : component? part with
      | none =>
        have hfits : ¬ nameLimit < byteLength part := by
          rcases Path.component?_eq_none_iff.mp hpart with rfl | rfl <;> decide
        rw [if_neg hfits]
        exact ih
      | some c =>
        simp only [List.foldl_cons, Passable, hdir, true_and, Path.text_of_component? hpart]
        by_cases hfits : nameLimit < byteLength part
        · simp [if_pos hfits, Nat.not_le.mpr hfits]
        · rw [if_neg hfits, and_iff_right (Nat.not_lt.mp hfits)]
          exact ih
    · refine iff_of_false ?_ ?_
      · exact fun h => hdir (directory_of_walk h.1)
      · exact fun h => hdir h.1.directory

theorem origin_nil (h : p.isAbsolute = true) : d.origin p = [] := if_pos h

theorem place_eq (d : Disk) (p : Path) : d.place p =
    ((splitOn '/' p.text.toList).filterMap component?).foldl Component.enter (d.origin p) :=
  Path.foldl_components p (d.origin p) origin_nil

theorem passable_components_iff : d.Passable (d.origin p) p.components ↔
    d.Passable (d.origin p) ((splitOn '/' p.text.toList).filterMap component?) := by
  obtain ⟨dot, hdot, hcomponents⟩ := Path.components_eq p
  have hdots : d.Passable (d.origin p)
      (dot ++ (splitOn '/' p.text.toList).filterMap component?) ↔
        d.Passable (d.origin p) ((splitOn '/' p.text.toList).filterMap component?) := by
    have hshort : byteLength Component.current.text.toList ≤ nameLimit := by decide
    rcases hdot with rfl | rfl
    · rfl
    · exact ⟨fun h => h.2.2, fun h => ⟨h.directory, hshort, h⟩⟩
  rw [hcomponents]
  cases habsolute : p.isAbsolute with
  | false => exact hdots
  | true =>
    have hshort : byteLength Component.root.text.toList ≤ nameLimit := by decide
    rw [origin_nil habsolute] at hdots ⊢
    exact ⟨fun h => hdots.mp h.2.2, fun h => ⟨rfl, hshort, hdots.mpr h⟩⟩

theorem pathFault?_eq_none_iff : pathFault? p = none ↔
    '\x00' ∉ p.text.toList ∧ p.text.toList ≠ [] ∧ byteLength p.text.toList ≤ pathLimit := by
  rw [pathFault?]
  split_ifs with hnul hnil hlong
  · simp at hnul
    simp [hnul]
  · simp [hnil]
  · simp [Nat.not_le.mpr hlong]
  · simp at hnul
    simp [hnul, hnil, Nat.not_lt.mp hlong]

theorem isFile_iff : d.isFile p = true ↔
    ∃ l content executable, d.locate p = .ok l ∧ d.entry? l = some (.file content executable) := by
  rw [isFile]
  constructor
  · intro h
    split at h
    · next l content executable hfind => exact ⟨l, content, executable, find_eq_ok_iff.mp hfind⟩
    · cases h
  · rintro ⟨l, content, executable, hfile⟩
    rw [find_eq_ok_iff.mpr hfile]

theorem locate_eq_ok_iff : d.locate p = .ok l ↔
    pathFault? p = none ∧ d.walk (d.origin p) (splitOn '/' p.text.toList) = .ok l := by
  unfold locate origin
  cases pathFault? p with
  | some fault => simp
  | none => simp

/-- A path leads to a directory if its components do. -/
theorem find_directory_iff : d.find p = .ok (l, .directory) ↔
    pathFault? p = none ∧ d.Passable (d.origin p) p.components ∧ l = d.place p := by
  rw [find_eq_ok_iff, locate_eq_ok_iff, and_assoc, walk_directory_iff, passable_components_iff,
    place_eq]

theorem eq_of_walk (h : d.walk here parts = .ok l) :
    l = (parts.filterMap component?).foldl Component.enter here := by
  induction parts generalizing here with
  | nil => exact (Except.ok.inj h).symm
  | cons part parts ih =>
    rw [walk_cons (directory_of_walk h)] at h
    split at h
    · cases h
    · rw [ih h, List.filterMap_cons]
      cases component? part <;> rfl

/-- A path that is found leads where its components lead. -/
theorem eq_place_of_locate (h : d.locate p = .ok l) : l = d.place p := by
  rw [place_eq]
  exact eq_of_walk (locate_eq_ok_iff.mp h).2

/-- A name is looked up in the directory that the parts before it lead to. -/
theorem walk_name_iff {name : List Char} (h : IsName name) :
    d.walk here (parts ++ [name]) = .ok l ↔ d.Passable here (parts.filterMap component?) ∧
      byteLength name ≤ nameLimit ∧
        l = (parts.filterMap component?).foldl Component.enter here ++ [String.ofList name] := by
  have hlast {m : Location} (hdir : d.entry? m = some .directory) : d.walk m [name] = .ok l ↔
      byteLength name ≤ nameLimit ∧ l = m ++ [String.ofList name] := by
    rw [walk_cons hdir, Path.component?_name h]
    split
    · next hlong => simp [Nat.not_le.mpr hlong]
    · next hfits =>
      rw [and_iff_right (Nat.not_lt.mp hfits), walk, Except.ok.injEq, eq_comm]
      rfl
  rw [walk_append]
  constructor
  · intro hwalk
    cases hfront : d.walk here parts with
    | error fault => rw [hfront] at hwalk; cases hwalk
    | ok m =>
      rw [hfront] at hwalk
      have hdir := directory_of_walk hwalk
      obtain ⟨hpass, rfl⟩ := walk_directory_iff.mp ⟨hfront, hdir⟩
      exact ⟨hpass, (hlast hdir).mp hwalk⟩
  · rintro ⟨hpass, hrest⟩
    obtain ⟨hfront, hdir⟩ := walk_directory_iff.mpr ⟨hpass, rfl⟩
    rw [hfront]
    exact (hlast hdir).mpr hrest

theorem locate_join_iff {name : String} (h : IsName name.toList) :
    d.locate (p.join ⟨name⟩) = .ok l ↔ pathFault? (p.join ⟨name⟩) = none ∧
      d.Passable (d.origin p) p.components ∧ byteLength name.toList ≤ nameLimit ∧
        l = d.place p ++ [name] := by
  have hrelative : (⟨name⟩ : Path).isAbsolute = false := (Path.components_name h).1
  have horigin : d.origin (p.join ⟨name⟩) = d.origin p := by
    rw [origin, Path.isAbsolute_join_eq hrelative, origin]
  obtain ⟨front, hparts, hfront⟩ := Path.exists_splitOn_join hrelative p
  rw [splitOn_of_notMem h.noSlash] at hparts
  rw [locate_eq_ok_iff, hparts, walk_name_iff h, hfront, horigin, ← passable_components_iff,
    ← place_eq, String.ofList_toList]

end Disk

end DocSnippets
