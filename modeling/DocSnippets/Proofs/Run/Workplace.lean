import DocSnippets.Proofs.Compiler.Confined
import DocSnippets.Proofs.Run.Placing

/-!
# Working in a work directory

The steps of a worker touch the files of its own number alone. So the directories of the tree stay,
the file of a number that is still to be written is never a directory, and whether a snippet can be
written is decided by the lengths of its name and path. What is reported for a snippet therefore
does not depend on its number or on the random part of the directory's name.
-/

namespace DocSnippets

open Text
open Disk (childPath Keeps)

namespace WorkDirectory

/-- A work directory made below `root`, with the tree in which it was made. -/
structure Made (w : WorkDirectory) (root : List Char) (suffix : String) (home : Disk) : Prop where
  random : RandomPart suffix
  root_absolute : root = [] ∨ root.head? = some '/'
  path : w.path = childPath root (WorkFile.directoryName suffix).toList
  located : home.locate w.path = .ok w.location
  directory : home.entry? w.location = some .directory
  bare : ∀ name, home.entry? (w.location ++ [name]) = none

/-- The name and the path of a snippet file are not too long. -/
def Fits (w : WorkDirectory) (id : Nat) (dialect : Dialect) : Prop :=
  byteLength (WorkFile.snippetName id dialect).toList ≤ Disk.nameLimit ∧
    byteLength (w.snippetPath id dialect).text.toList ≤ Disk.pathLimit

instance (w : WorkDirectory) (id : Nat) (dialect : Dialect) : Decidable (w.Fits id dialect) :=
  inferInstanceAs (Decidable (_ ∧ _))

theorem made_of_createIn {d home : Disk} {parent : Path} {suffix : String} {w : WorkDirectory}
    (hrandom : RandomPart suffix) (hunused : Unused d parent suffix)
    (h : createIn d parent suffix = .ok (w, home)) :
    w.Made (d.absolute parent).asDirectory suffix home := by
  rw [createIn_eq hrandom hunused] at h
  cases hlocate : d.locate (pathIn d parent suffix) with
  | error fault => rw [hlocate] at h; cases h
  | ok l =>
    rw [hlocate] at h
    obtain ⟨rfl, rfl⟩ := Prod.mk.inj (Except.ok.inj h)
    have hbelow := hunused l hlocate
    have hnone : d.entry? l = none := by simpa using hbelow []
    have hl : l ≠ [] := by
      rintro rfl
      cases hnone
    have hkeeps : Keeps d (d.put l .directory) := Disk.keeps_put (by simp [hnone]) _
    refine ⟨hrandom, Path.asDirectory_absolute (d.absolute_head parent), rfl,
      Disk.locate_keeps hkeeps (pathIn_absolute d parent suffix) hlocate, ?_, fun name => ?_⟩
    · rw [Disk.entry?_put hl, if_pos rfl]
    · rw [Disk.entry?_put hl, if_neg (by simp)]
      exact hbelow [name]

namespace Made

variable {w : WorkDirectory} {root : List Char} {suffix : String} {home : Disk}

theorem toList_path (h : w.Made root suffix home) :
    w.path.text.toList = root ++ '/' :: (WorkFile.mark ++ suffix.toList) := by
  rw [h.path, childPath, String.toList_ofList, WorkFile.toList_directoryName]

theorem path_noNul (h : w.Made root suffix home) : '\x00' ∉ w.path.text.toList := by
  intro hmem
  have hlocated := h.located
  unfold Disk.locate Disk.pathFault? at hlocated
  simp [hmem] at hlocated

theorem snippetPath_eq (h : w.Made root suffix home) (id : Nat) (dialect : Dialect) :
    w.snippetPath id dialect =
      childPath w.path.text.toList (WorkFile.snippetName id dialect).toList :=
  snippetPath_of_path h.toList_path (h.random.notMem (by decide)) id dialect

theorem projectFor_snippetPath (h : w.Made root suffix home) (id : Nat) (dialect : Dialect) :
    WorkFile.projectFor (w.snippetPath id dialect) =
      childPath w.path.text.toList (WorkFile.projectName id).toList := by
  rw [h.snippetPath_eq]
  exact WorkFile.projectFor_append _ id dialect

def place (h : w.Made root suffix home) (hroot : Unmarked root) (id : Nat) : Place where
  root := root
  random := suffix.toList
  id := id
  root_absolute := h.root_absolute
  root_unmarked := hroot
  random_noDash := h.random.notMem (by decide)
  random_noSlash := h.random.notMem (by decide)
  random_noBlank := h.random.notMem (by decide)

theorem place_file (h : w.Made root suffix home) (hroot : Unmarked root) (id : Nat)
    (dialect : Dialect) : (h.place hroot id).file dialect = w.snippetPath id dialect := by
  rw [h.snippetPath_eq, h.toList_path, Place.file, childPath]
  simp only [Place.base, Place.within, place, List.append_assoc, List.cons_append,
    List.nil_append]

/-- Whether a snippet file fits is the same for all random parts. -/
theorem fits_iff (h : w.Made root suffix home) (id : Nat) (dialect : Dialect) :
    w.Fits id dialect ↔
      byteLength (WorkFile.snippetName id dialect).toList ≤ Disk.nameLimit ∧
        byteLength root + 22 + byteLength (WorkFile.snippetName id dialect).toList ≤
          Disk.pathLimit := by
  have hslash : '/'.utf8Size = 1 := by decide
  have hlength : byteLength (w.snippetPath id dialect).text.toList =
      byteLength root + 22 + byteLength (WorkFile.snippetName id dialect).toList := by
    have hdirectory := h.random.byteLength_directoryName
    rw [h.snippetPath_eq, childPath, String.toList_ofList, h.toList_path,
      ← WorkFile.toList_directoryName]
    simp only [byteLength_append, byteLength, hslash, hdirectory]
    omega
  unfold Fits
  rw [hlength]

/-- Where the names in the work directory are, in every tree that keeps the directories. -/
theorem locate_childPath (h : w.Made root suffix home) {d : Disk} (hkeeps : Keeps home d)
    {name : List Char} (hname : Path.IsName name) (hnul : '\x00' ∉ name) :
    d.locate (childPath w.path.text.toList name) =
      if byteLength name ≤ Disk.nameLimit ∧
          byteLength (childPath w.path.text.toList name).text.toList ≤ Disk.pathLimit then
        .ok (w.location ++ [String.ofList name])
      else .error .nameTooLong := by
  have hhead : ∃ rest, w.path.text.toList = '/' :: rest := by
    rcases h.root_absolute with hroot | hroot
    · exact ⟨_, by rw [h.toList_path, hroot, List.nil_append]⟩
    · obtain ⟨rest, hrest⟩ := List.head?_eq_some_iff.mp hroot
      exact ⟨_, by rw [h.toList_path, hrest, List.cons_append]⟩
  obtain ⟨rest, hrest⟩ := hhead
  have habsolute : (childPath w.path.text.toList name).isAbsolute = true := by
    simp [Path.isAbsolute, childPath, hrest]
  have hwalk : d.walk [] (splitOn '/' w.path.text.toList) = .ok w.location := by
    have hpath : w.path.isAbsolute = true := by simp [Path.isAbsolute, hrest]
    have hlocated := Disk.locate_keeps hkeeps hpath h.located
    unfold Disk.locate at hlocated
    split at hlocated
    · cases hlocated
    · rwa [if_pos hpath] at hlocated
  have hslash : '/'.utf8Size = 1 := by decide
  have hlength : byteLength (childPath w.path.text.toList name).text.toList =
      byteLength w.path.text.toList + 1 + byteLength name := by
    rw [childPath, String.toList_ofList, byteLength_append, byteLength, hslash]
    omega
  rw [Disk.locate_childPath d habsolute hname, Disk.pathFault?_childPath hnul,
    if_neg h.path_noNul, hwalk, hlength]
  simp only [Except.bind, Disk.walk_name d w.location hname,
    hkeeps w.location h.directory]
  by_cases hfits : byteLength name ≤ Disk.nameLimit ∧
      byteLength w.path.text.toList + 1 + byteLength name ≤ Disk.pathLimit
  · rw [if_pos hfits, if_neg (Nat.not_lt.mpr hfits.2)]
    dsimp only
    rw [if_neg (Nat.not_lt.mpr hfits.1)]
  · rw [if_neg hfits]
    by_cases hpath : Disk.pathLimit < byteLength w.path.text.toList + 1 + byteLength name
    · rw [if_pos hpath]
    · have hlong : Disk.nameLimit < byteLength name := by
        by_contra hshort
        exact hfits ⟨Nat.not_lt.mp hshort, Nat.not_lt.mp hpath⟩
      rw [if_neg hpath]
      dsimp only
      rw [if_pos hlong]

end Made

end WorkDirectory

end DocSnippets
