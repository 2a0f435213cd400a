import DocSnippets.Proofs.Compiler.Local
import DocSnippets.Proofs.Disk.Growth
import DocSnippets.Proofs.Run.Course
import DocSnippets.Proofs.Run.Numbering

/-!
# What a run leaves behind

A run with a local compiler works inside its work directory, whatever becomes of the snippets there,
and removes it in the end. What is left is the tree as it was with the work root and the directories
above it, which are made where they are missing.
-/

namespace DocSnippets

open Disk (Keeps)

namespace WorkDirectory

/-- A work directory in the tree before it was made: its place is known, and nothing is there. -/
structure Fresh (w : WorkDirectory) (before : Disk) : Prop where
  absolute : w.path.isAbsolute = true
  located : before.locate w.path = .ok w.location
  free : ∀ below, before.entry? (w.location ++ below) = none

/-- A tree that is as it was before the work directory was made, except in the work directory. -/
structure Framed (w : WorkDirectory) (before now : Disk) : Prop where
  current : now.current = before.current
  outside : ∀ l, ¬ w.location <+: l → now.entry? l = before.entry? l

variable {w : WorkDirectory} {before now : Disk}

namespace Fresh

theorem location_ne_nil (h : w.Fresh before) : w.location ≠ [] := by
  intro hnil
  have hfree := h.free []
  rw [hnil] at hfree
  cases hfree

theorem framed_put (h : w.Fresh before) (e : Disk.Entry) :
    w.Framed before (before.put w.location e) where
  current := rfl
  outside l hl := by
    rw [Disk.entry?_put h.location_ne_nil, if_neg]
    rintro rfl
    exact hl (List.prefix_refl _)

/-- The work directory stays at its place, also when it is removed. -/
theorem locate_framed (h : w.Fresh before) (hframed : w.Framed before now) :
    now.locate w.path = .ok w.location := by
  refine Disk.locate_keeps (fun l hdir => ?_) h.absolute h.located
  have hl : ¬ w.location <+: l := by
    rintro ⟨below, rfl⟩
    rw [h.free] at hdir
    cases hdir
  rw [hframed.outside l hl, hdir]

/-- Locations outside the work directory are outside the place where its path leads now. -/
theorem not_within (h : w.Fresh before) (hframed : w.Framed before now) {l : Location}
    (hl : ¬ w.location <+: l) : ∀ top, now.locate w.path = .ok top → ¬ top <+: l := by
  intro top htop
  rw [h.locate_framed hframed] at htop
  rwa [← Except.ok.inj htop]

end Fresh

namespace Framed

theorem write (hframed : w.Framed before now) (h : w.Fresh before) {id : Nat} {dialect : Dialect}
    {text : String} {written : Disk}
    (hwritten : now.writeText (w.snippetPath id dialect) text = .ok written) :
    w.Framed before written where
  current := (Disk.writeText_current hwritten).trans hframed.current
  outside l hl := by
    rw [Disk.writeText_outside h.absolute (WorkFile.isName_snippetName id dialect) hwritten
      (h.not_within hframed hl)]
    exact hframed.outside l hl

theorem call (hframed : w.Framed before now) (h : w.Fresh before) {compiler : Compiler}
    (hlocal : compiler.Local) {r : Request} {id : Nat} {dialect : Dialect}
    (hfile : r.file = w.snippetPath id dialect) : w.Framed before (compiler r now).2 where
  current := (hlocal.current r now).trans hframed.current
  outside l hl := by
    rw [hlocal.outside r now w.path id dialect l h.absolute hfile (h.not_within hframed hl)]
    exact hframed.outside l hl

/-- Removing the work directory gives the tree from before it was made. -/
theorem close (hframed : w.Framed before now) (h : w.Fresh before) :
    Disk.Same before (w.close now) where
  current := hframed.current
  entry l := by
    rw [WorkDirectory.close, Disk.entry?_removeTree h.location_ne_nil]
    by_cases hl : w.location <+: l
    · obtain ⟨below, rfl⟩ := hl
      rw [if_pos (Disk.isWithin_iff.mpr (List.prefix_append _ _)), h.free]
    · rw [if_neg fun hwithin => hl (Disk.isWithin_iff.mp hwithin)]
      exact hframed.outside l hl

end Framed

end WorkDirectory

namespace Workshop

open WorkDirectory (Fresh Framed)

variable {w : Workshop} {before : Disk} {shared : Shared}

theorem write_framed (hfresh : w.directory.Fresh before)
    (h : w.directory.Framed before shared.disk) (s : Prepared) (id : Nat) (dialect : Dialect) :
    w.directory.Framed before (write s (w.directory.snippetPath id dialect) shared).2.disk := by
  unfold write
  split
  · next disk hwritten => exact h.write hfresh hwritten
  · exact h

theorem submit_framed (hfresh : w.directory.Fresh before) (hlocal : w.compiler.Local)
    (h : w.directory.Framed before shared.disk) (s : Prepared) (id : Nat)
    (fault : Option Disk.Fault) :
    w.directory.Framed before
      (w.submit s (w.directory.snippetPath id s.block.dialect) fault shared).2.disk := by
  cases fault with
  | some fault => exact h
  | none =>
    have hfile : (w.request s (w.directory.snippetPath id s.block.dialect)).file =
        w.directory.snippetPath id s.block.dialect := rfl
    exact h.call hfresh hlocal hfile

theorem compile_framed (hfresh : w.directory.Fresh before) (hlocal : w.compiler.Local)
    (h : w.directory.Framed before shared.disk) (s : Prepared) :
    w.directory.Framed before (w.compile s shared).2.disk := by
  have hnamed : w.directory.Framed before (w.takeFile s shared).2.disk := h
  have hwritten := write_framed hfresh hnamed s shared.nextId s.block.dialect
  simp only [compile, takeFile_fst]
  exact submit_framed hfresh hlocal hwritten s shared.nextId _

theorem compileAll_framed (hfresh : w.directory.Fresh before) (hlocal : w.compiler.Local)
    (snippets : List Prepared) (h : w.directory.Framed before shared.disk) :
    w.directory.Framed before (w.compileAll snippets shared).2.disk := by
  induction snippets generalizing shared with
  | nil => exact h
  | cons s rest ih =>
    simp only [compileAll]
    exact ih (compile_framed hfresh hlocal h s)

end Workshop

namespace Pool

variable {w : Workshop} {before : Disk}

theorem step_framed (hfresh : w.directory.Fresh before) (hlocal : w.compiler.Local) {count : Nat}
    {p q : Pool} {t : Option Turn} (hnumbered : Numbered w count p)
    (h : w.directory.Framed before p.shared.disk) (hm : Move w p t q) :
    w.directory.Framed before q.shared.disk := by
  cases hm with
  | stay => exact h
  | stop hw hq => exact h
  | take hw hq => exact h
  | name hw => exact h
  | @write worker job file hw =>
    have hfile : Phase.file? (.named job file) = some (job, file) := rfl
    obtain ⟨id, -, -, hpath⟩ := hnumbered.given worker _ job file hw hfile
    have hframed := Workshop.write_framed hfresh h job.snippet id job.snippet.block.dialect
    rwa [← hpath] at hframed
  | @submit worker job file fault hw =>
    have hfile : Phase.file? (.written job file fault) = some (job, file) := rfl
    obtain ⟨id, -, -, hpath⟩ := hnumbered.given worker _ job file hw hfile
    have hframed := Workshop.submit_framed hfresh hlocal h job.snippet id fault
    rwa [← hpath] at hframed
  | store hw => exact h

theorem run_framed (hfresh : w.directory.Fresh before) (hlocal : w.compiler.Local)
    (snippets : List Prepared) (workers : Nat) {home : Disk}
    (h : w.directory.Framed before home) (events : List Event) :
    w.directory.Framed before
      ((start snippets workers ⟨home, 1, []⟩).run w events).shared.disk := by
  have hstart : Numbered w snippets.length (start snippets workers ⟨home, 1, []⟩) :=
    start_numbered w snippets workers home []
  have hhome : w.directory.Framed before (start snippets workers ⟨home, 1, []⟩).shared.disk := h
  generalize start snippets workers ⟨home, 1, []⟩ = p at hstart hhome
  have hall := run_induction
    (P := fun p _ => Numbered w snippets.length p ∧ w.directory.Framed before p.shared.disk)
    (fun p _ t q hp hm => ⟨step_numbered hp.1 hm, step_framed hfresh hlocal hp.1 hp.2 hm⟩) []
    ⟨hstart, hhome⟩ events
  exact hall.2

end Pool

namespace WorkDirectory

variable {d d' left home : Disk} {parent : Path} {suffix : String} {w : WorkDirectory}
  {fault : Disk.Fault}

theorem Unused.of_same (h : Unused d parent suffix) (hsame : Disk.Same d d') :
    Unused d' parent suffix := by
  intro l hlocate below
  rw [pathIn, Disk.absolute_congr hsame.current] at hlocate
  rw [hsame.entry]
  exact h l (hsame.symm.locate_ok hlocate) below

/-- A name that is unused in a grown tree was unused before. -/
theorem Unused.of_grown (h : Unused d' parent suffix) {p : Path} (hmade : d.MadeFor d' p) :
    Unused d parent suffix := by
  intro l hlocate below
  refine hmade.entry?_none (h l ?_ below)
  rw [pathIn, Disk.absolute_congr hmade.current]
  exact Disk.locate_grown hmade.keeps hmade.current hlocate

/-- When the work directory cannot be made, only the directories above it were. -/
theorem create_error (h : create d parent suffix = (.error fault, left)) :
    left = (d.makeDirectories parent).2 := by
  unfold create createWith at h
  split at h
  · next fault' made hparent =>
    rw [hparent]
    exact (Prod.mk.inj h).2.symm
  · next made hparent =>
    rw [hparent]
    split at h
    · exact (Prod.mk.inj h).2.symm
    · cases (Prod.mk.inj h).1

theorem createWith_ok {make : Maker} (h : createWith make d parent suffix = (.ok w, home)) :
    make (d.makeDirectories parent).2 parent suffix = .ok (w, home) := by
  unfold createWith at h
  split at h
  · cases (Prod.mk.inj h).1
  · next made hparent =>
    rw [hparent]
    split at h
    · cases (Prod.mk.inj h).1
    · next w' home' hcreated =>
      obtain ⟨hw, rfl⟩ := Prod.mk.inj h
      rw [hcreated, Except.ok.inj hw]

theorem create_ok (h : create d parent suffix = (.ok w, home)) :
    createIn (d.makeDirectories parent).2 parent suffix = .ok (w, home) :=
  createWith_ok h

theorem isAbsolute_of_createWith {make : Maker} (hmake : make.Absolute)
    (h : createWith make d parent suffix = (.ok w, home)) : w.path.isAbsolute = true :=
  hmake _ _ _ _ _ (createWith_ok h)

theorem createIn_absolute : Maker.Absolute createIn := by
  intro d parent suffix w home h
  rw [path_of_createIn h]
  apply Path.isAbsolute_join
  rw [Path.isAbsolute, Disk.absolute_head, decide_eq_true rfl]

/-- A work directory that was made is fresh in the tree it was made in. -/
theorem fresh_of_createIn (hrandom : RandomPart suffix) (hunused : Unused d parent suffix)
    (h : createIn d parent suffix = .ok (w, home)) :
    w.Fresh d ∧ home = d.put w.location .directory := by
  rw [createIn_eq hrandom hunused] at h
  cases hlocate : d.locate (pathIn d parent suffix) with
  | error fault => rw [hlocate] at h; cases h
  | ok l =>
    rw [hlocate] at h
    obtain ⟨rfl, rfl⟩ := Prod.mk.inj (Except.ok.inj h)
    exact ⟨⟨pathIn_absolute d parent suffix, hlocate, hunused l hlocate⟩, rfl⟩

end WorkDirectory

namespace Run

variable {r : Run} {schedule : Nat → Nat → List Event} {suffix : String} {d : Disk}
  {files : List Path}

theorem compile_framed (snippets : List Prepared) {directory : WorkDirectory} {before home : Disk}
    (hfresh : directory.Fresh before) (hlocal : r.compiler.Local)
    (h : directory.Framed before home) (events : List Event) :
    directory.Framed before (r.compile events snippets directory home).2.disk := by
  unfold compile
  dsimp only
  split
  · exact Workshop.compileAll_framed (w := ⟨r.compiler, r.options, directory⟩) hfresh hlocal
      snippets h
  · exact Pool.run_framed (w := ⟨r.compiler, r.options, directory⟩) hfresh hlocal snippets _ h
      events

/-- A run with a local compiler leaves the tree as it was, with any number of workers and any
schedule, whether it has results or an error: only the work root and directories above it may be
new, and the name of the work directory is unused again. -/
theorem leaves_nothing (hlocal : r.compiler.Local) (hrandom : RandomPart suffix)
    (hunused : WorkDirectory.Unused (d.makeDirectories r.parent).2 r.parent suffix) :
    d.MadeFor (r.executeWith schedule suffix d files).disk r.parent ∧
      WorkDirectory.Unused (r.executeWith schedule suffix d files).disk r.parent suffix := by
  have hcourse := r.executeWith_course schedule suffix d files
  have hmade := d.makeDirectories_made r.parent
  generalize r.executeWith schedule suffix d files = report at hcourse ⊢
  cases hcourse with
  | rejected hprepare => exact ⟨Disk.MadeFor.refl d r.parent, hunused.of_grown hmade⟩
  | idle hprepare => exact ⟨Disk.MadeFor.refl d r.parent, hunused.of_grown hmade⟩
  | homeless hprepare hne hcreate =>
    obtain rfl := WorkDirectory.create_error hcreate
    exact ⟨hmade, hunused⟩
  | @compiled snippets directory home results shared hprepare hne hcreate hcompile =>
    obtain ⟨hfresh, hhome⟩ :=
      WorkDirectory.fresh_of_createIn hrandom hunused (WorkDirectory.create_ok hcreate)
    have hframed : directory.Framed (d.makeDirectories r.parent).2 home := by
      rw [hhome]
      exact hfresh.framed_put .directory
    have hshared := compile_framed snippets hfresh hlocal hframed
      (schedule snippets.length (r.workers snippets.length))
    rw [hcompile] at hshared
    have hsame := hshared.close hfresh
    exact ⟨hmade.of_same hsame, hunused.of_same hsame⟩

/-- A compiler that removes the directory of its snippet file and breaks down. -/
def demolisher : Compiler := fun r d =>
  (.panicked (some r.file.text),
    match d.locate r.file with
    | .ok l => d.removeTree l.dropLast
    | .error _ => d)

theorem demolisher_local : demolisher.Local where
  current r d := by
    unfold demolisher
    dsimp only
    split <;> rfl
  outside r d directory id dialect l habsolute hfile houtside := by
    unfold demolisher
    dsimp only
    split
    · next spot hlocate =>
      rw [hfile] at hlocate
      obtain ⟨top, htop, rfl⟩ :=
        Disk.locate_join_name habsolute (WorkFile.isName_snippetName id dialect) hlocate
      have hl := houtside top htop
      have hne : top ≠ [] := by
        rintro rfl
        exact hl List.nil_prefix
      rw [List.dropLast_concat, Disk.entry?_removeTree hne,
        if_neg fun hwithin => hl (Disk.isWithin_iff.mp hwithin)]
    · rfl

/-- Two snippets, of which the first one takes the work directory away from the second one, and a
work root that is missing together with its parent. -/
def demolition : Run where
  package := ⟨"p", some "index.js", ⟨"/p"⟩, none⟩
  compiler := demolisher
  options := .default
  jobs := 2
  wrap := true
  workRoot := some ⟨"build/work/"⟩

def demolitionTree : Disk where
  entries := [(["p"], .directory),
    (["p", "a.md"], .file "```ts\nlost\n```\n```tsx\nkept\n```\n".toUTF8 false)]
  current := ["p"]

theorem demolition_leaves_nothing :
    demolition.compiler.Local ∧ RandomPart "Ab12cD" ∧
      WorkDirectory.Unused (demolitionTree.makeDirectories demolition.parent).2 demolition.parent
        "Ab12cD" ∧
      demolitionTree.MadeFor
        (demolition.executeWith Pool.roundRobin "Ab12cD" demolitionTree [⟨"a.md"⟩]).disk
        demolition.parent ∧
      WorkDirectory.Unused
        (demolition.executeWith Pool.roundRobin "Ab12cD" demolitionTree [⟨"a.md"⟩]).disk
        demolition.parent "Ab12cD" := by
  have hrandom : RandomPart "Ab12cD" := by decide
  have hunused : WorkDirectory.Unused (demolitionTree.makeDirectories demolition.parent).2
      demolition.parent "Ab12cD" := by
    intro l hl below
    have hplace : l = ["p", "build", "work", "compiled-docs-Ab12cD"] := (Except.ok.inj hl).symm
    have hgrown : (demolitionTree.makeDirectories demolition.parent).2 =
        ⟨(["p", "build", "work"], .directory) :: (["p", "build"], .directory) ::
          demolitionTree.entries, ["p"]⟩ := rfl
    rw [hplace, hgrown]
    unfold Disk.entry?
    simp [demolitionTree, List.lookup_cons]
  exact ⟨demolisher_local, hrandom, hunused, leaves_nothing demolisher_local hrandom hunused⟩

end Run

end DocSnippets
