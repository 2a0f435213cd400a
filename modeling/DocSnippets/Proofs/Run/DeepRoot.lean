import DocSnippets.Proofs.Run.Alone
import DocSnippets.Proofs.Run.Occasions

/-!
# Work roots with long paths

The root directory can be spelled with many slashes. A work directory can be made below such a work
root as long as its path is short enough for the system, and only the snippet files fit in it whose
numbers have few enough digits. So whether a snippet can be compiled there depends on its number.
-/

namespace DocSnippets

open Text
open Disk (childPath Keeps)

/-- The root directory, spelled with one slash more than `n`. -/
def Path.slashes (n : Nat) : Path := ⟨String.ofList (List.replicate (n + 1) '/')⟩

namespace Path

@[simp] theorem toList_slashes (n : Nat) :
    (slashes n).text.toList = List.replicate (n + 1) '/' := by
  rw [slashes, String.toList_ofList]

theorem isAbsolute_slashes (n : Nat) : (slashes n).isAbsolute = true := by
  simp [isAbsolute, List.replicate_succ]

theorem asDirectory_slashes (n : Nat) : (slashes n).asDirectory = List.replicate n '/' := by
  unfold asDirectory
  rw [toList_slashes, if_pos (by simp [List.getLast?_replicate]), List.dropLast_replicate]
  rfl

theorem unmarked_slashes (n : Nat) : Unmarked (slashes n).text.toList := by
  rw [toList_slashes]
  exact Unmarked.of_noDash (by simp)

end Path

namespace Text

theorem byteLength_slashes (n : Nat) : byteLength (List.replicate n '/') = n := by
  have hslash : '/'.utf8Size = 1 := by decide
  induction n with
  | zero => rfl
  | succ n ih =>
    rw [List.replicate_succ, byteLength, ih, hslash]
    omega

end Text

namespace Disk

open Path

theorem absolute_slashes (d : Disk) (n : Nat) : d.absolute (slashes n) = slashes n := by
  rw [absolute, join, if_pos (isAbsolute_slashes n)]

theorem locate_slashes (d : Disk) {n : Nat} (hshort : n < pathLimit) :
    d.locate (slashes n) = .ok [] := by
  have hfault : pathFault? (slashes n) = none := by
    unfold pathFault?
    dsimp only
    rw [toList_slashes, byteLength_slashes, if_neg (by simp), if_neg (by simp),
      if_neg (Nat.not_lt.mpr hshort)]
  rw [locate, hfault]
  dsimp only
  rw [if_pos (isAbsolute_slashes n), toList_slashes, splitOn_replicate]
  exact walk_blanks rfl _

/-- The root directory needs not be made, however it is spelled. -/
theorem makeDirectories_slashes (d : Disk) {n : Nat} (hshort : n < pathLimit) :
    d.makeDirectories (slashes n) = (none, d) := by
  have hdrop : dropSlashes (slashes n) = slashes n := by
    unfold dropSlashes
    dsimp only
    rw [toList_slashes, if_pos (by simp)]
  have hmake : d.makeDirectory (slashes n) = .error .exists := by
    rw [makeDirectory_eq hdrop, locate_slashes d hshort]
    rfl
  have hdirectory : d.isDirectory (slashes n) = true := by
    rw [isDirectory, find, locate_slashes d hshort]
    rfl
  have hne : (slashes n).text ≠ "" := by
    intro hempty
    have hlist := congrArg String.toList hempty
    simp [List.replicate_succ] at hlist
  rw [makeDirectories, if_neg hne]
  cases (slashes n).components.length with
  | zero =>
    rw [makeWithParents, ensureDirectory, hmake]
    dsimp only
    rw [if_pos hdirectory]
    rfl
  | succ depth =>
    rw [makeWithParents, hmake]
    dsimp only
    rw [if_pos hdirectory]

/-- A name below the root directory, spelled with `n` slashes and one before the name. -/
theorem locate_below_slashes (d : Disk) {n : Nat} {name : List Char} (hname : IsName name)
    (hnul : '\x00' ∉ name) (hshort : byteLength name ≤ nameLimit)
    (hfits : n + 1 + byteLength name ≤ pathLimit) :
    d.locate (childPath (List.replicate n '/') name) = .ok [String.ofList name] := by
  have habsolute : (childPath (List.replicate n '/') name).isAbsolute = true := by
    rw [← asDirectory_slashes]
    exact childPath_asDirectory_absolute (isAbsolute_slashes n) name
  have hroot : d.entry? [] = some .directory := rfl
  rw [locate_childPath d habsolute hname, pathFault?_childPath hnul, byteLength_slashes,
    if_neg (by simp), if_neg (Nat.not_lt.mpr hfits)]
  dsimp only
  rw [splitOn_replicate, walk_blanks hroot, Except.bind, walk_name d [] hname, hroot]
  dsimp only
  rw [if_neg (Nat.not_lt.mpr hshort), List.nil_append]

end Disk

namespace WorkDirectory

variable {d : Disk} {n : Nat} {suffix : String}

theorem locate_pathIn_slashes (hrandom : RandomPart suffix) (hfits : n + 21 ≤ Disk.pathLimit)
    (d : Disk) :
    d.locate (pathIn d (.slashes n) suffix) = .ok [WorkFile.directoryName suffix] := by
  have hlength := hrandom.byteLength_directoryName
  rw [pathIn, Disk.absolute_slashes, Path.asDirectory_slashes,
    Disk.locate_below_slashes d hrandom.isName (hrandom.notMem_directoryName (by decide) (by decide))
      (by rw [hlength]; decide) (by omega), String.ofList_toList]

theorem unused_slashes (hrandom : RandomPart suffix) (hfits : n + 21 ≤ Disk.pathLimit)
    (h : ∀ below, d.entry? (WorkFile.directoryName suffix :: below) = none) :
    Unused d (.slashes n) suffix := by
  intro l hlocate below
  rw [locate_pathIn_slashes hrandom hfits] at hlocate
  obtain rfl := Except.ok.inj hlocate
  exact h below

/-- A work directory is made below the root directory, if its path is short enough. -/
theorem exists_made_slashes (hrandom : RandomPart suffix) (hfits : n + 21 ≤ Disk.pathLimit)
    (hunused : Unused d (.slashes n) suffix) :
    ∃ w home, createIn d (.slashes n) suffix = .ok (w, home) ∧
      w.Made (List.replicate n '/') suffix home := by
  have hcreated := createIn_eq hrandom hunused
  rw [locate_pathIn_slashes hrandom hfits] at hcreated
  have hmade := made_of_createIn hrandom hunused hcreated
  rw [Disk.absolute_slashes, Path.asDirectory_slashes] at hmade
  exact ⟨_, _, hcreated, hmade⟩

/-- A snippet file fits below the root directory, spelled with `n` slashes, if its name does. -/
theorem Made.fits_slashes {w : WorkDirectory} {home : Disk}
    (h : w.Made (List.replicate n '/') suffix home) (id : Nat) (dialect : Dialect) :
    w.Fits id dialect ↔ byteLength (WorkFile.snippetName id dialect).toList ≤ Disk.nameLimit ∧
      n + 22 + byteLength (WorkFile.snippetName id dialect).toList ≤ Disk.pathLimit := by
  rw [h.fits_iff, byteLength_slashes]

end WorkDirectory

namespace Run

variable {r : Run} {n : Nat} {files : List Path} {o : Occasion} {s : Prepared}
  {rest snippets : List Prepared} {reply : String → Dialect → CompilerOptions → Reply}

/-- What a run below the root directory results in. -/
theorem exists_made_of_slashes (hroot : r.parent = .slashes n) (hrandom : RandomPart o.random)
    (hfits : n + 21 ≤ Disk.pathLimit) (hunused : WorkDirectory.Unused o.disk (.slashes n) o.random)
    (hprepare : r.prepare o.disk files = .ok snippets) (hne : snippets ≠ []) :
    ∃ directory home, directory.Made (List.replicate n '/') o.random home ∧
      (r.on files o).results = .ok ({ r with jobs := o.jobs }.compile
        (o.schedule snippets.length ({ r with jobs := o.jobs }.workers snippets.length))
        snippets directory home).1 := by
  obtain ⟨directory, home, hcreated, hmade⟩ :=
    WorkDirectory.exists_made_slashes hrandom hfits hunused
  refine ⟨directory, home, hmade, ?_⟩
  rw [on_results, hprepare]
  dsimp only
  rw [if_neg hne, hroot, Disk.makeDirectories_slashes o.disk (by omega), hcreated]

/-- One worker gives the numbers in the order of the snippets. -/
theorem on_slashes_inOrder (hroot : r.parent = .slashes n) (hrandom : RandomPart o.random)
    (hfits : n + 21 ≤ Disk.pathLimit) (hunused : WorkDirectory.Unused o.disk (.slashes n) o.random)
    (hconfined : r.compiler.Confined reply) (hprepare : r.prepare o.disk files = .ok snippets)
    (hne : snippets ≠ []) (hjobs : o.jobs ≤ 1) :
    ∃ directory home, directory.Made (List.replicate n '/') o.random home ∧
      (r.on files o).results = .ok (snippets.mapIdx fun i s =>
        Workshop.resultAt ⟨r.compiler, r.options, directory⟩ reply (1 + i) s) := by
  obtain ⟨directory, home, hmade, hresults⟩ :=
    exists_made_of_slashes hroot hrandom hfits hunused hprepare hne
  have hcrew : { r with jobs := o.jobs }.workers snippets.length = 1 := by
    unfold workers
    dsimp only
    omega
  refine ⟨directory, home, hmade, ?_⟩
  rw [hresults, compile]
  dsimp only
  rw [if_pos hcrew, (Workshop.compileAll_numbered (w := ⟨r.compiler, r.options, directory⟩) hmade
    hconfined snippets (Tidy.start hmade [])).1]

/-- Of two workers the first one can get the last number for the first snippet. -/
theorem on_slashes_lateFirst (hroot : r.parent = .slashes n) (hrandom : RandomPart o.random)
    (hfits : n + 21 ≤ Disk.pathLimit) (hunused : WorkDirectory.Unused o.disk (.slashes n) o.random)
    (hconfined : r.compiler.Confined reply) (hprepare : r.prepare o.disk files = .ok (s :: rest))
    (hne : rest ≠ []) (hjobs : o.jobs = 2)
    (hschedule : o.schedule (rest.length + 1) 2 = Pool.lateFirst (rest.length + 1)) :
    ∃ directory home results, directory.Made (List.replicate n '/') o.random home ∧
      (r.on files o).results = .ok results ∧ results.head? =
        some (Workshop.resultAt ⟨r.compiler, r.options, directory⟩ reply (rest.length + 1) s) := by
  obtain ⟨directory, home, hmade, hresults⟩ :=
    exists_made_of_slashes hroot hrandom hfits hunused hprepare (List.cons_ne_nil s rest)
  have hcrew : { r with jobs := o.jobs }.workers (s :: rest).length = 2 := by
    have hpos := List.length_pos_iff.mpr hne
    unfold workers
    rw [List.length_cons]
    dsimp only
    omega
  refine ⟨directory, home, _, hmade, hresults, ?_⟩
  rw [compile]
  dsimp only
  rw [hcrew, if_neg (by decide), List.length_cons, hschedule]
  exact Pool.lateFirst_results (w := ⟨r.compiler, r.options, directory⟩) hmade hconfined s rest

end Run

end DocSnippets
