import DocSnippets.Compiler.Tsc
import DocSnippets.Proofs.Run.Placing

/-!
# Local compilers

A local compiler changes a tree only inside the directory of the snippet file that it is given. The
compiler program is local when it changes nothing outside the directory of its project file, because
the project file stands beside the snippet.
-/

namespace DocSnippets

open Text
open Disk (childPath)

namespace Path

theorem isAbsolute_ne_nil {p : Path} (h : p.isAbsolute = true) : p.text.toList ≠ [] := by
  intro hnil
  unfold isAbsolute at h
  rw [hnil] at h
  cases h

end Path

namespace Disk

variable {d : Disk} {directory : Path} {l : Location}

theorem pathFault?_of_childPath {name : List Char} (hne : directory.text.toList ≠ [])
    (h : pathFault? (childPath directory.asDirectory name) = none) :
    pathFault? directory = none := by
  have hslash : '/'.utf8Size = 1 := by decide
  unfold pathFault? childPath at h
  dsimp only at h
  rw [String.toList_ofList] at h
  unfold pathFault?
  dsimp only
  split at h
  · cases h
  · next hnul =>
    split at h
    · cases h
    · split at h
      · cases h
      · next hlong =>
        rw [byteLength_append, byteLength, hslash] at hlong
        have hmem : '\x00' ∉ directory.text.toList := by
          intro hmem
          refine hnul (List.contains_iff_mem.mpr ?_)
          rcases directory.asDirectory_eq with htext | htext
          · rw [htext] at hmem
            exact List.mem_append_left _ hmem
          · rw [htext] at hmem
            rcases List.mem_append.mp hmem with hmem | hmem
            · exact List.mem_append_left _ hmem
            · exact absurd hmem (by decide)
        have hshort : ¬ pathLimit < byteLength directory.text.toList := by
          rcases directory.asDirectory_eq with htext | htext
          · rw [htext]
            omega
          · rw [htext, byteLength_append, byteLength, hslash, byteLength]
            omega
        rw [if_neg (by simpa using hmem), if_neg hne, if_neg hshort]

theorem walk_asDirectory (h : d.walk [] (splitOn '/' directory.asDirectory) = .ok l)
    (hdir : d.entry? l = some .directory) :
    d.walk [] (splitOn '/' directory.text.toList) = .ok l := by
  rcases directory.asDirectory_eq with htext | htext
  · rwa [htext]
  · rw [htext, splitOn_append_cons, walk_append, h]
    exact walk_blanks hdir 1

/-- A name in a directory that leads anywhere leads right below a directory of the tree. -/
theorem exists_top_of_locate_join {name : String} (habsolute : directory.isAbsolute = true)
    (hname : Path.IsName name.toList) (h : d.locate (directory.join ⟨name⟩) = .ok l) :
    ∃ top, pathFault? (childPath directory.asDirectory name.toList) = none ∧
      d.walk [] (splitOn '/' directory.asDirectory) = .ok top ∧
      d.entry? top = some .directory ∧ l = top ++ [name] := by
  rw [Path.join_name (Path.isAbsolute_ne_nil habsolute) hname.noSlash,
    locate_childPath d (Path.childPath_asDirectory_absolute habsolute _) hname] at h
  split at h
  · cases h
  · next hfault =>
    cases hwalk : d.walk [] (splitOn '/' directory.asDirectory) with
    | error fault => rw [hwalk] at h; cases h
    | ok top =>
      rw [hwalk] at h
      simp only [Except.bind, walk_name d top hname] at h
      split at h
      · cases h
      · cases h
      · next hdir =>
        split at h
        · cases h
        · exact ⟨top, hfault, rfl, hdir, by rw [← Except.ok.inj h, String.ofList_toList]⟩

/-- A name in a directory is right below the place of the directory. -/
theorem locate_join_name {name : String} (habsolute : directory.isAbsolute = true)
    (hname : Path.IsName name.toList) (h : d.locate (directory.join ⟨name⟩) = .ok l) :
    ∃ top, d.locate directory = .ok top ∧ l = top ++ [name] := by
  obtain ⟨top, hfault, hwalk, hdir, rfl⟩ := exists_top_of_locate_join habsolute hname h
  refine ⟨top, ?_, rfl⟩
  unfold locate
  rw [pathFault?_of_childPath (Path.isAbsolute_ne_nil habsolute) hfault, if_pos habsolute]
  exact walk_asDirectory hwalk hdir

/-- Writing a file in a directory changes nothing outside the directory. -/
theorem writeText_outside {d' : Disk} {name text : String} (habsolute : directory.isAbsolute = true)
    (hname : Path.IsName name.toList) (h : d.writeText (directory.join ⟨name⟩) text = .ok d')
    (houtside : ∀ top, d.locate directory = .ok top → ¬ top <+: l) :
    d'.entry? l = d.entry? l := by
  refine writeText_entry? h fun hlocate => ?_
  obtain ⟨top, htop, rfl⟩ := locate_join_name habsolute hname hlocate
  exact houtside top htop (List.prefix_append top [name])

end Disk

/-- A compiler that changes a tree only inside the directory of the snippet file that it is given.
There it may write anything, and it may remove the directory with all that is in it. -/
structure Compiler.Local (c : Compiler) : Prop where
  current : ∀ r d, (c r d).2.current = d.current
  outside : ∀ (r : Request) (d : Disk) (directory : Path) (id : Nat) (dialect : Dialect)
    (l : Location), directory.isAbsolute = true →
    r.file = directory.join ⟨WorkFile.snippetName id dialect⟩ →
    (∀ top, d.locate directory = .ok top → ¬ top <+: l) →
    Disk.entry? (c r d).2 l = d.entry? l

theorem WorkFile.projectFor_join {directory : Path} (habsolute : directory.isAbsolute = true)
    (id : Nat) (dialect : Dialect) :
    projectFor (directory.join ⟨snippetName id dialect⟩) = directory.join ⟨projectName id⟩ := by
  have hne := Path.isAbsolute_ne_nil habsolute
  rw [Path.join_name hne (isName_snippetName id dialect).noSlash,
    Path.join_name hne (isName_projectName id).noSlash]
  exact projectFor_append directory.asDirectory id dialect

/-- A machine whose programs change nothing outside the directory of the project file that they are
started on. -/
def Machine.Local (m : Machine) : Prop :=
  ∀ (program : Location) (directory : Path) (id : Nat) (d : Disk) (l : Location),
    directory.isAbsolute = true → (∀ top, d.locate directory = .ok top → ¬ top <+: l) →
    Disk.entry?
      (m.behaviour program (Tsc.arguments (directory.join ⟨WorkFile.projectName id⟩)) d).2 l =
        d.entry? l

/-- A program that was started has run in the given directory. -/
theorem Machine.exists_inside_of_launch {m : Machine} {d d' : Disk} {root command : Path}
    {arguments : List String} {e : Execution}
    (h : m.launch d root command arguments = .ok (e, d')) :
    ∃ inside program, d.enter root = .ok inside ∧
      e = (m.behaviour program arguments inside).1 ∧
      d' = { (m.behaviour program arguments inside).2 with current := d.current } := by
  unfold launch at h
  simp only [bind, Except.bind] at h
  split at h
  · cases h
  cases henter : d.enter root with
  | error fault => simp only [henter] at h; cases h
  | ok inside =>
    simp only [henter] at h
    split at h
    · cases h
    · next program hprogram =>
      obtain ⟨rfl, rfl⟩ := Prod.mk.inj (Except.ok.inj h)
      exact ⟨inside, program, rfl, rfl, rfl⟩

theorem Disk.exists_of_enter {d inside : Disk} {directory : Path}
    (h : d.enter directory = .ok inside) : ∃ place, inside = { d with current := place } := by
  unfold enter at h
  cases hfind : d.find directory with
  | error fault => simp only [hfind, bind, Except.bind] at h; cases h
  | ok found =>
    obtain ⟨place, entry⟩ := found
    cases entry with
    | file content executable => simp only [hfind, bind, Except.bind] at h; cases h
    | directory =>
      simp only [hfind, bind, Except.bind] at h
      exact ⟨place, (Except.ok.inj h).symm⟩

/-- A program that was started has run in the caller's tree, seen from another directory. -/
theorem Machine.exists_of_launch {m : Machine} {d d' : Disk} {root command : Path}
    {arguments : List String} {e : Execution}
    (h : m.launch d root command arguments = .ok (e, d')) :
    ∃ program place, d' =
      { (m.behaviour program arguments { d with current := place }).2 with
        current := d.current } := by
  obtain ⟨inside, program, henter, -, rfl⟩ := exists_inside_of_launch h
  obtain ⟨place, rfl⟩ := Disk.exists_of_enter henter
  exact ⟨program, place, rfl⟩

/-- The compiler program is a local compiler on a machine whose programs are local. -/
theorem Tsc.compiler_local {m : Machine} (hlocal : m.Local) (root : Path) :
    (Tsc.compiler m root).Local where
  current r d := by
    unfold compiler ProjectFile.write
    split
    · rfl
    · next written hwritten =>
      have hcurrent := Disk.writeText_current hwritten
      dsimp only
      split
      · exact hcurrent
      · next e left hlaunch =>
        obtain ⟨program, place, rfl⟩ := Machine.exists_of_launch hlaunch
        exact hcurrent
  outside r d directory id dialect l habsolute hfile houtside := by
    have hproject : WorkFile.projectFor r.file = directory.join ⟨WorkFile.projectName id⟩ := by
      rw [hfile, WorkFile.projectFor_join habsolute]
    unfold compiler ProjectFile.write
    rw [hproject]
    split
    · rfl
    · next written hwritten =>
      have hentry : written.entry? l = d.entry? l :=
        Disk.writeText_outside habsolute (WorkFile.isName_projectName id) hwritten houtside
      dsimp only
      split
      · exact hentry
      · next e left hlaunch =>
        obtain ⟨program, place, rfl⟩ := Machine.exists_of_launch hlaunch
        refine Eq.trans ?_ hentry
        refine hlocal program directory id { written with current := place } l habsolute ?_
        intro top htop
        refine houtside top ?_
        -- The directory is found where it was before the project file was written.
        obtain ⟨spot, e, hlocate, hfree, rfl⟩ := Disk.exists_of_writeText hwritten
        obtain ⟨top', htop', -⟩ :=
          Disk.locate_join_name habsolute (WorkFile.isName_projectName id) hlocate
        have hkeeps : Disk.Keeps d { d.put spot e with current := place } := Disk.keeps_put hfree e
        have hagain := Disk.locate_keeps hkeeps habsolute htop'
        rw [htop] at hagain
        rwa [← Except.ok.inj hagain] at htop'

end DocSnippets
