import DocSnippets.Proofs.Run.DeepRoot
import DocSnippets.Proofs.Run.Preparation

/-!
# Runs that agree

A run with a confined compiler gives the same results on every occasion: with any number of workers,
in any order of their steps, and in a work directory of any name, unless that name comes up in the
path of a documentation file, or the numbers of some snippets make their paths too long.
-/

namespace DocSnippets

namespace Run

variable (r : Run) (files : List Path)

/-- No documentation file is named like a snippet file in a directory with this random part. -/
def Unmentioned (o : Occasion) : Prop :=
  ∀ file ∈ files, ¬ o.random.toList ++ '/' :: WorkFile.snippetMark.toList <:+: file.text.toList

/-- Where the path of one snippet file is short enough for the system, so are those of the others.
-/
def FitAlike (o : Occasion) : Prop :=
  ∀ w : WorkDirectory, w.path = WorkDirectory.pathIn o.disk r.parent o.random →
    ∀ id, 0 < id → id ≤ r.snippetCount files o.disk → ∀ dialect,
      w.Fits id dialect ↔ w.Fits 1 dialect

/-- An ordinary occasion on which no result can show where its snippet was compiled. -/
structure Regular (o : Occasion) : Prop extends r.Ordinary files o where
  unmentioned : Unmentioned files o
  room : r.FitAlike files o

variable {r files}

theorem compile_results {reply : String → Dialect → CompilerOptions → Reply}
    (hconfined : r.compiler.Confined reply) {snippets : List Prepared} {directory : WorkDirectory}
    {root : List Char} {suffix : String} {home : Disk}
    (hmade : directory.Made root suffix home) {f : Prepared → SnippetResult}
    (huniform : Workshop.Uniform ⟨r.compiler, r.options, directory⟩ reply snippets f)
    {events : List Event} (hends : 1 < r.workers snippets.length →
      Pool.Exhausts events snippets.length (r.workers snippets.length)) :
    (r.compile events snippets directory home).1 = snippets.map f := by
  have hcrew : 0 < r.workers snippets.length :=
    Nat.lt_of_lt_of_le Nat.zero_lt_one (Nat.le_max_left _ _)
  unfold compile
  dsimp only
  split
  · refine Workshop.compileAll_confined hmade hconfined (Tidy.start hmade []) ?_
    intro id hle hlt
    exact huniform id hle (by dsimp only at hle hlt; omega)
  · next hmany =>
    have hdone := hends (by omega) ⟨r.compiler, r.options, directory⟩ snippets ⟨home, 1, []⟩ rfl
    exact Pool.rest_results hmade hconfined huniform hcrew hdone

namespace Regular

variable {o : Occasion} {snippets : List Prepared}

theorem root_unmarked (h : r.Regular files o) :
    Unmarked (o.disk.absolute r.parent).asDirectory := by
  refine h.root.of_infix ?_
  unfold Path.asDirectory
  split
  · exact (List.dropLast_prefix _).isInfix
  · exact List.infix_refl _

theorem made (h : r.Regular files o) {directory : WorkDirectory} {home : Disk}
    (hcreated : WorkDirectory.createIn (o.disk.makeDirectories r.parent).2 r.parent o.random =
      .ok (directory, home)) :
    directory.Made (o.disk.absolute r.parent).asDirectory o.random home := by
  have hmade := WorkDirectory.made_of_createIn h.random h.unused hcreated
  rwa [Disk.absolute_congr (o.disk.makeDirectories_made r.parent).current] at hmade

/-- On a regular occasion all numbers give the result of the first one. -/
theorem uniform {reply : String → Dialect → CompilerOptions → Reply} (h : r.Regular files o)
    (hconfined : r.compiler.Confined reply) (hprepare : r.prepare o.disk files = .ok snippets)
    {directory : WorkDirectory} {home : Disk}
    (hmade : directory.Made (o.disk.absolute r.parent).asDirectory o.random home) :
    Workshop.Uniform ⟨r.compiler, r.options, directory⟩ reply snippets
      (Workshop.resultAt ⟨r.compiler, r.options, directory⟩ reply 1) := by
  intro id hpos hle s hs
  have hfile := h.unmentioned _ (prepare_file hprepare s hs)
  have hroom := h.room directory hmade.path id hpos (snippetCount_eq hprepare ▸ hle) s.block.dialect
  exact Workshop.resultAt_eq (w := ⟨r.compiler, r.options, directory⟩)
    (v := ⟨r.compiler, r.options, directory⟩) hmade hmade h.root_unmarked hconfined rfl hfile hfile
    hroom

theorem results_ok {reply : String → Dialect → CompilerOptions → Reply} (h : r.Regular files o)
    (hconfined : r.compiler.Confined reply) {results : List SnippetResult}
    (hok : (r.on files o).results = .ok results) :
    ∃ snippets, r.prepare o.disk files = .ok snippets ∧
      (snippets = [] ∧ results = [] ∨ ∃ directory home,
        directory.Made (o.disk.absolute r.parent).asDirectory o.random home ∧
          results = snippets.map
            (Workshop.resultAt ⟨r.compiler, r.options, directory⟩ reply 1)) := by
  rw [on_results] at hok
  cases hprepare : r.prepare o.disk files with
  | error e => rw [hprepare] at hok; cases hok
  | ok snippets =>
    refine ⟨snippets, rfl, ?_⟩
    rw [hprepare] at hok
    dsimp only at hok
    by_cases hempty : snippets = []
    · rw [if_pos hempty] at hok
      exact Or.inl ⟨hempty, (Except.ok.inj hok).symm⟩
    · rw [if_neg hempty] at hok
      cases hparent : (o.disk.makeDirectories r.parent).1 with
      | some fault => rw [hparent] at hok; cases hok
      | none =>
        rw [hparent] at hok
        dsimp only at hok
        cases hcreated : WorkDirectory.createIn (o.disk.makeDirectories r.parent).2 r.parent
            o.random with
        | error fault => rw [hcreated] at hok; cases hok
        | ok created =>
          obtain ⟨directory, home⟩ := created
          rw [hcreated] at hok
          have hmade := h.made hcreated
          have hends := h.ends
          rw [crew, snippetCount_eq hprepare] at hends
          have hlist := compile_results (r := { r with jobs := o.jobs }) hconfined hmade
            (h.uniform hconfined hprepare hmade) hends
          exact Or.inr ⟨directory, home, hmade, (Except.ok.inj hok).symm.trans hlist⟩

/-- A work directory does not show in the result for a snippet, also when it was made for a run over
other files. -/
theorem resultAt_agree {reply : String → Dialect → CompilerOptions → Reply} {files' : List Path}
    {o' : Occasion} (h : r.Regular files o) (h' : r.Regular files' o')
    (hconfined : r.compiler.Confined reply) (hcurrent : o.disk.current = o'.disk.current)
    {directory directory' : WorkDirectory} {home home' : Disk}
    (hmade : directory.Made (o.disk.absolute r.parent).asDirectory o.random home)
    (hmade' : directory'.Made (o'.disk.absolute r.parent).asDirectory o'.random home')
    {s : Prepared} (hfile : s.block.file ∈ files) (hfile' : s.block.file ∈ files') :
    Workshop.resultAt ⟨r.compiler, r.options, directory⟩ reply 1 s =
      Workshop.resultAt ⟨r.compiler, r.options, directory'⟩ reply 1 s := by
  rw [← Disk.absolute_congr hcurrent] at hmade'
  have hfits : directory.Fits 1 s.block.dialect ↔ directory'.Fits 1 s.block.dialect :=
    (hmade.fits_iff 1 s.block.dialect).trans (hmade'.fits_iff 1 s.block.dialect).symm
  exact Workshop.resultAt_eq (w := ⟨r.compiler, r.options, directory⟩)
    (v := ⟨r.compiler, r.options, directory'⟩) hmade hmade' h.root_unmarked hconfined rfl
    (h.unmentioned _ hfile) (h'.unmentioned _ hfile') hfits

theorem results_eq {reply : String → Dialect → CompilerOptions → Reply} {o' : Occasion}
    (h : r.Regular files o) (h' : r.Regular files o') (hconfined : r.compiler.Confined reply)
    (hcurrent : o.disk.current = o'.disk.current)
    (htexts : ∀ file ∈ files, o.disk.readText file = o'.disk.readText file)
    {results results' : List SnippetResult} (hok : (r.on files o).results = .ok results)
    (hok' : (r.on files o').results = .ok results') : results = results' := by
  obtain ⟨snippets, hprepare, hsource⟩ := h.results_ok hconfined hok
  obtain ⟨snippets', hprepare', hsource'⟩ := h'.results_ok hconfined hok'
  rw [← prepare_congr r htexts] at hprepare'
  obtain rfl := Except.ok.inj (hprepare.symm.trans hprepare')
  rcases hsource with ⟨rfl, rfl⟩ | ⟨directory, home, hmade, rfl⟩
  · rcases hsource' with ⟨-, rfl⟩ | ⟨directory', home', hmade', rfl⟩
    · rfl
    · rfl
  · rcases hsource' with ⟨rfl, rfl⟩ | ⟨directory', home', hmade', rfl⟩
    · rfl
    · refine List.map_congr_left fun s hs => ?_
      have hfile := prepare_file hprepare s hs
      exact h.resultAt_agree h' hconfined hcurrent hmade hmade' hfile hfile

/-- In one tree a run gives results on all regular occasions, or has the same error on all. -/
theorem status_eq {o' : Occasion} (h : r.Regular files o) (h' : r.Regular files o')
    (hdisk : o.disk = o'.disk) :
    (r.on files o).results.map (fun _ => ()) = (r.on files o').results.map fun _ => () := by
  have hcreate := WorkDirectory.createIn_sibling h.random h'.random h.unused (hdisk ▸ h'.unused)
  rw [on_results, on_results, ← hdisk]
  cases r.prepare o.disk files with
  | error e => rfl
  | ok snippets =>
    dsimp only
    split
    · rfl
    · cases (o.disk.makeDirectories r.parent).1 with
      | some fault => rfl
      | none =>
        revert hcreate
        cases WorkDirectory.createIn (o.disk.makeDirectories r.parent).2 r.parent o.random <;>
          cases WorkDirectory.createIn (o.disk.makeDirectories r.parent).2 r.parent o'.random
        · intro hcreate
          rw [Except.error.inj hcreate]
        · intro hcreate
          cases hcreate
        · intro hcreate
          cases hcreate
        · intro _
          rfl

end Regular

/-- On every two regular occasions a run with a confined compiler gives the same results or the same
error, and the same results also where the trees differ but the documentation does not. -/
theorem occasions_agree {reply : String → Dialect → CompilerOptions → Reply}
    (hconfined : r.compiler.Confined reply) {o o' : Occasion} (h : r.Regular files o)
    (h' : r.Regular files o') :
    (o.disk = o'.disk → (r.on files o).results = (r.on files o').results) ∧
      (o.disk.current = o'.disk.current →
        (∀ file ∈ files, o.disk.readText file = o'.disk.readText file) →
        ∀ results results', (r.on files o).results = .ok results →
          (r.on files o').results = .ok results' → results = results') := by
  refine ⟨fun hdisk => ?_, fun hcurrent htexts results results' hok hok' =>
    h.results_eq h' hconfined hcurrent htexts hok hok'⟩
  have hstatus := h.status_eq h' hdisk
  cases hleft : (r.on files o).results with
  | error e =>
    cases hright : (r.on files o').results with
    | error e' => rw [hleft, hright] at hstatus; exact congrArg _ (Except.error.inj hstatus)
    | ok results' => rw [hleft, hright] at hstatus; cases hstatus
  | ok results =>
    cases hright : (r.on files o').results with
    | error e' => rw [hleft, hright] at hstatus; cases hstatus
    | ok results' =>
      have hcurrent : o.disk.current = o'.disk.current := congrArg Disk.current hdisk
      have htexts : ∀ file ∈ files, o.disk.readText file = o'.disk.readText file :=
        fun file _ => congrArg (Disk.readText · file) hdisk
      exact congrArg Except.ok (h.results_eq h' hconfined hcurrent htexts hleft hright)

/-- An objection to all snippets but one that names both files. -/
def objection (source : String) (_ : Dialect) (_ : CompilerOptions) : Reply :=
  if source = "kept" then .success
  else .diagnostics [⟨some 0, some 2322, ⟨[], [(.snippet, " in ".toList), (.project, [])]⟩⟩]

def objector : Compiler := fun r d =>
  ((objection r.source r.dialect r.options).answer r.file,
    match d.writeText (WorkFile.projectFor r.file) "{}" with
    | .ok d' => d'
    | .error _ => d)

theorem objector_confined : objector.Confined objection where
  answers r d := rfl
  literal source dialect options := by
    unfold objection
    split
    · trivial
    · intro r hr
      obtain rfl := List.mem_singleton.mp hr
      refine ⟨Unmarked.nil, fun m hm => ?_⟩
      simp only [List.mem_cons, List.not_mem_nil, or_false] at hm
      rcases hm with rfl | rfl
      · exact Unmarked.of_noDash (by decide)
      · exact Unmarked.nil
  others r d l _ hproject := by
    unfold objector
    dsimp only
    split
    · next d' hwritten => exact Disk.writeText_entry? hwritten hproject
    · rfl

def sampleRun : Run where
  package := ⟨"p", some "index.js", ⟨"/p"⟩, none⟩
  compiler := objector
  options := .default
  jobs := 1
  wrap := true
  workRoot := none

def sampleFiles : List Path := [⟨"a.md"⟩]

def sampleTree : Disk where
  entries := [(["p"], .directory),
    (["p", "a.md"], .file "```ts\nlost\n```\n```tsx\nkept\n```\n".toUTF8 false)]
  current := ["p"]

/-- One snippet after the other. -/
def inOrder : Occasion := ⟨1, fun _ _ => [], "Ab12cD", sampleTree⟩

/-- Two workers in turn. -/
def inTurns : Occasion := ⟨2, Pool.roundRobin, "zZ98yY", sampleTree⟩

theorem sample_count : sampleRun.snippetCount sampleFiles sampleTree = 2 := by decide +kernel

/-- A documentation file in a copy of the work root, named like a snippet file. -/
def archiveFiles : List Path := [⟨"/q/p/compiled-docs-Ab12cD/block-1.ts.md"⟩]

def archiveTree : Disk where
  entries := [(["p"], .directory), (["q"], .directory), (["q", "p"], .directory),
    (["q", "p", "compiled-docs-Ab12cD"], .directory),
    (["q", "p", "compiled-docs-Ab12cD", "block-1.ts.md"], .file "```ts\nlost\n```\n".toUTF8 false)]
  current := ["p"]

theorem ordinary_of_sample {files : List Path} {o : Occasion}
    (hdisk : o.disk = sampleTree ∨ o.disk = archiveTree)
    (hrandom : o.random = "Ab12cD" ∨ o.random = "zZ98yY")
    (hends : 1 < sampleRun.crew files o → Pool.Exhausts
      (o.schedule (sampleRun.snippetCount files o.disk) (sampleRun.crew files o))
      (sampleRun.snippetCount files o.disk) (sampleRun.crew files o)) :
    sampleRun.Ordinary files o where
  random := by rcases hrandom with h | h <;> rw [h] <;> decide
  unused := by
    have hmade : (o.disk.makeDirectories sampleRun.parent).2 = o.disk := by
      rcases hdisk with h | h <;> rw [h] <;> rfl
    rw [hmade]
    intro l hl below
    have hplace : l = ["p", WorkFile.directoryName o.random] := by
      rcases hdisk with h | h <;> rcases hrandom with h' | h' <;> rw [h, h'] at hl <;> rw [h'] <;>
        exact (Except.ok.inj hl).symm
    have hname : (WorkFile.directoryName o.random == "a.md") = false := by
      rcases hrandom with h | h <;> rw [h] <;> decide
    rw [hplace]
    unfold Disk.entry?
    rcases hdisk with h | h <;> simp [h, sampleTree, archiveTree, List.lookup_cons, hname]
  root := by
    unfold Unmarked
    rcases hdisk with h | h <;> rw [h] <;> decide
  ends := hends

theorem fitAlike_of_sample {files : List Path} {o : Occasion}
    (hrandom : o.random = "Ab12cD" ∨ o.random = "zZ98yY")
    (hfour : sampleRun.snippetCount files o.disk ≤ 4) : sampleRun.FitAlike files o := by
  have habsolute : o.disk.absolute sampleRun.parent = sampleRun.parent := by
    rw [Disk.absolute, Path.join, if_pos (by decide)]
  intro w hpath id hpos hle dialect
  have hfits : ∀ i ∈ [1, 2, 3, 4], w.Fits i dialect := by
    unfold WorkDirectory.Fits WorkDirectory.snippetPath
    rw [hpath, WorkDirectory.pathIn, habsolute]
    rcases hrandom with h | h <;> rw [h] <;> cases dialect <;> decide +kernel
  exact iff_of_true (hfits id (by simp; omega)) (hfits 1 (by simp))

/-- Occasions for up to four snippets of the sample. -/
theorem regular_of_sample {files : List Path} (hfiles : ∀ file ∈ files, file = ⟨"a.md"⟩)
    {count : Nat} (hcount : sampleRun.snippetCount files sampleTree = count) (hfour : count ≤ 4)
    {o : Occasion} (hdisk : o.disk = sampleTree)
    (hrandom : o.random = "Ab12cD" ∨ o.random = "zZ98yY")
    (hends : 1 < sampleRun.crew files o →
      Pool.Exhausts (o.schedule count (sampleRun.crew files o)) count (sampleRun.crew files o)) :
    sampleRun.Regular files o where
  toOrdinary := ordinary_of_sample (Or.inl hdisk) hrandom (by rwa [hdisk, hcount])
  unmentioned := by
    intro file hfile hinfix
    obtain rfl := hfiles file hfile
    have hslash : '/' ∈ "a.md".toList := hinfix.subset (by simp)
    exact absurd hslash (by decide)
  room := fitAlike_of_sample hrandom (by rwa [hdisk, hcount])

theorem sample_regular {o : Occasion} (hdisk : o.disk = sampleTree)
    (hrandom : o.random = "Ab12cD" ∨ o.random = "zZ98yY")
    (hends : 1 < sampleRun.crew sampleFiles o →
      Pool.Exhausts (o.schedule 2 (sampleRun.crew sampleFiles o)) 2
        (sampleRun.crew sampleFiles o)) :
    sampleRun.Regular sampleFiles o :=
  regular_of_sample (fun _ hfile => List.mem_singleton.mp hfile) sample_count (by decide) hdisk
    hrandom hends

theorem sample_agree :
    objector.Confined objection ∧ sampleRun.Regular sampleFiles inOrder ∧
      sampleRun.Regular sampleFiles inTurns ∧
      (sampleRun.on sampleFiles inOrder).results = (sampleRun.on sampleFiles inTurns).results :=
  have horder : sampleRun.Regular sampleFiles inOrder :=
    sample_regular rfl (Or.inl rfl) fun hmany =>
      absurd hmany (not_one_lt_crew (Nat.le_refl 1))
  have hturns : sampleRun.Regular sampleFiles inTurns :=
    sample_regular rfl (Or.inr rfl) fun hmany =>
      Pool.roundRobin_exhausts 2 (Nat.zero_lt_of_lt hmany)
  ⟨objector_confined, horder, hturns, (occasions_agree objector_confined horder hturns).1 rfl⟩

def inArchive (random : String) : Occasion := ⟨1, fun _ _ => [], random, archiveTree⟩

/-- In the archive all is as it should be, but for the name of the documentation file. -/
theorem ordinary_inArchive {files : List Path} {random : String}
    (hrandom : random = "Ab12cD" ∨ random = "zZ98yY")
    (hfour : sampleRun.snippetCount files archiveTree ≤ 4) :
    sampleRun.Ordinary files (inArchive random) ∧ sampleRun.FitAlike files (inArchive random) := by
  refine ⟨ordinary_of_sample (Or.inr rfl) hrandom fun hmany => ?_, fitAlike_of_sample hrandom hfour⟩
  exact absurd hmany (not_one_lt_crew (Nat.le_refl 1))

theorem archive_count : sampleRun.snippetCount archiveFiles archiveTree = 1 := by decide +kernel

/-- The name of the work directory shows in the label of a snippet, and the label is put in more
often. -/
theorem archive_results_ne :
    (sampleRun.on archiveFiles (inArchive "Ab12cD")).results ≠
      (sampleRun.on archiveFiles (inArchive "zZ98yY")).results := by
  intro hsame
  have hfailures := congrArg (fun results : Except RunError (List SnippetResult) =>
    results.toOption.map (·.map (·.failure))) hsame
  revert hfailures
  decide +kernel

/-- A compiler without objections. -/
def assent (_ : String) (_ : Dialect) (_ : CompilerOptions) : Reply := .success

def assenter : Compiler := fun _ d => (.finished .success, d)

theorem assenter_confined : assenter.Confined assent where
  answers _ _ := rfl
  literal _ _ _ := trivial
  others _ _ _ _ _ := rfl

/-- A run whose work root leaves room for nine snippet files. -/
def deepRun : Run where
  package := ⟨"p", some "index.js", ⟨"/"⟩, none⟩
  compiler := assenter
  options := .default
  jobs := 1
  wrap := true
  workRoot := some (.slashes 4063)

/-- Nine snippets in one file and one in another. -/
def deepTree : Disk where
  entries := [(["a.md"], .file (String.join (List.replicate 9 "```ts\nkept\n```\n")).toUTF8 false),
    (["b.md"], .file "```ts\nkept\n```\n".toUTF8 false)]
  current := []

def deepFiles : List Path := [⟨"a.md"⟩, ⟨"b.md"⟩]

def deepInOrder : Occasion := ⟨1, fun _ _ => [], "Ab12cD", deepTree⟩

def deepLateFirst : Occasion := ⟨2, fun snippets _ => Pool.lateFirst snippets, "Ab12cD", deepTree⟩

theorem deep_unused : WorkDirectory.Unused deepTree (.slashes 4063) "Ab12cD" := by
  apply WorkDirectory.unused_slashes (by decide) (by decide)
  intro below
  have hname : (WorkFile.directoryName "Ab12cD" == "a.md") = false ∧
      (WorkFile.directoryName "Ab12cD" == "b.md") = false := by decide
  unfold Disk.entry?
  simp [deepTree, List.lookup_cons, hname]

theorem ordinary_of_deep {files : List Path} {o : Occasion} (hdisk : o.disk = deepTree)
    (hrandom : o.random = "Ab12cD")
    (hends : 1 < deepRun.crew files o → Pool.Exhausts
      (o.schedule (deepRun.snippetCount files o.disk) (deepRun.crew files o))
      (deepRun.snippetCount files o.disk) (deepRun.crew files o)) :
    deepRun.Ordinary files o where
  random := by rw [hrandom]; decide
  unused := by
    have hparent : deepRun.parent = .slashes 4063 := rfl
    rw [hdisk, hrandom, hparent, Disk.makeDirectories_slashes deepTree (by decide)]
    exact deep_unused
  root := by
    have hparent : deepRun.parent = .slashes 4063 := rfl
    rw [hparent, Disk.absolute_slashes]
    exact Path.unmarked_slashes 4063
  ends := hends

theorem unmentioned_of_deep {files : List Path} (hfiles : files ⊆ deepFiles) {o : Occasion} :
    Unmentioned files o := by
  intro file hfile hinfix
  have hslash : '/' ∈ file.text.toList := hinfix.subset (by simp)
  have hmem := hfiles hfile
  simp only [deepFiles, List.mem_cons, List.not_mem_nil, or_false] at hmem
  rcases hmem with rfl | rfl
  · exact absurd hslash (by decide)
  · exact absurd hslash (by decide)

theorem ordinary_deepInOrder {files : List Path} (hfiles : files ⊆ deepFiles) :
    deepRun.Ordinary files deepInOrder ∧ Unmentioned files deepInOrder := by
  refine ⟨ordinary_of_deep rfl rfl fun hmany => ?_, unmentioned_of_deep hfiles⟩
  exact absurd hmany (not_one_lt_crew (Nat.le_refl 1))

/-- What is prepared for the deep run: all that counts is how many scripts there are. -/
theorem deep_prepare (files : List Path) (count : Nat)
    (h : (deepRun.prepare deepTree files).toOption.map (·.map (·.block.dialect)) =
      some (List.replicate count .ts)) :
    ∃ snippets, deepRun.prepare deepTree files = .ok snippets ∧ snippets.length = count ∧
      ∀ s ∈ snippets, s.block.dialect = .ts := by
  cases hprepare : deepRun.prepare deepTree files with
  | error e =>
    rw [hprepare] at h
    cases h
  | ok snippets =>
    rw [hprepare] at h
    have hlist : snippets.map (·.block.dialect) = List.replicate count .ts := Option.some.inj h
    refine ⟨snippets, rfl, ?_, fun s hs => ?_⟩
    · simpa using congrArg List.length hlist
    · refine List.eq_of_mem_replicate (n := count) ?_
      rw [← hlist]
      exact List.mem_map_of_mem hs

theorem deep_dialects : (deepRun.prepare deepTree deepFiles).toOption.map
    (·.map (·.block.dialect)) = some (List.replicate 10 .ts) := by decide +kernel

theorem ordinary_deepLateFirst :
    deepRun.Ordinary deepFiles deepLateFirst ∧ Unmentioned deepFiles deepLateFirst := by
  obtain ⟨snippets, hprepare, hten, -⟩ := deep_prepare deepFiles 10 deep_dialects
  have hcount : deepRun.snippetCount deepFiles deepLateFirst.disk = 10 :=
    (snippetCount_eq hprepare).trans hten
  have hcrew : deepRun.crew deepFiles deepLateFirst = 2 := by
    rw [crew, hcount]
    rfl
  refine ⟨ordinary_of_deep rfl rfl fun hmany => ?_, unmentioned_of_deep (List.Subset.refl _)⟩
  rw [hcrew]
  exact Pool.lateFirst_exhausts _

/-- Below the deep work root the first nine numbers fit, and the tenth does not. -/
theorem deep_isOk {directory : WorkDirectory} {home : Disk}
    (hmade : directory.Made (List.replicate 4063 '/') "Ab12cD" home) {s : Prepared}
    (hdialect : s.block.dialect = .ts) {id : Nat} (hpos : 0 < id) (hten : id ≤ 10) :
    (Workshop.resultAt ⟨assenter, .default, directory⟩ assent id s).isOk = true ↔ id < 10 := by
  rw [Workshop.resultAt_isOk rfl, hdialect, hmade.fits_slashes]
  have hall : ∀ i ∈ List.range 10,
      (Text.byteLength (WorkFile.snippetName (i + 1) .ts).toList ≤ Disk.nameLimit ∧
        4063 + 22 + Text.byteLength (WorkFile.snippetName (i + 1) .ts).toList ≤ Disk.pathLimit) ↔
        i + 1 < 10 := by decide +kernel
  have hid := hall (id - 1) (by simp; omega)
  rwa [Nat.sub_add_cancel hpos] at hid

/-- Of the snippets of the deep run the first nine can be compiled. -/
theorem exists_deep_results (files : List Path) (count : Nat) (hpos : 0 < count) (hten : count ≤ 10)
    (h : (deepRun.prepare deepTree files).toOption.map (·.map (·.block.dialect)) =
      some (List.replicate count .ts)) :
    ∃ results, (deepRun.on files deepInOrder).results = .ok results ∧
      results.map SnippetResult.isOk = (List.range count).map fun i => decide (i < 9) := by
  obtain ⟨snippets, hprepare, hlength, hdialect⟩ := deep_prepare files count h
  have hne : snippets ≠ [] := List.length_pos_iff.mp (hlength ▸ hpos)
  obtain ⟨directory, home, hmade, hresults⟩ := on_slashes_inOrder (o := deepInOrder) rfl (by decide)
    (by decide) deep_unused assenter_confined hprepare hne (by decide)
  refine ⟨_, hresults, List.ext_getElem (by simp [hlength]) fun i hi hi' => ?_⟩
  have hlt : i < count := by simpa using hi'
  rw [List.getElem_map, List.getElem_mapIdx, List.getElem_map, List.getElem_range,
    Bool.eq_iff_iff, decide_eq_true_eq]
  have hisOk := deep_isOk hmade (hdialect _ (List.getElem_mem (by omega : i < snippets.length)))
    (by omega : 0 < 1 + i) (by omega)
  refine hisOk.trans ?_
  omega

/-- The first snippet of the deep run passes with the first number and fails with the last one. -/
theorem deep_results_ne :
    (deepRun.on deepFiles deepInOrder).results ≠ (deepRun.on deepFiles deepLateFirst).results := by
  obtain ⟨snippets, hprepare, hten, hdialect⟩ := deep_prepare deepFiles 10 deep_dialects
  obtain ⟨s, rest, rfl⟩ := List.length_pos_iff_exists_cons.mp (by omega : 0 < snippets.length)
  have hrest : rest.length = 9 := Nat.succ.inj hten
  obtain ⟨results, hresults, hoks⟩ :=
    exists_deep_results deepFiles 10 (by decide) (by decide) deep_dialects
  obtain ⟨directory, home, results', hmade, hlate, hhead⟩ :=
    on_slashes_lateFirst (o := deepLateFirst) rfl (by decide) (by decide) deep_unused
      assenter_confined hprepare (by rintro rfl; cases hrest) rfl rfl
  intro hsame
  rw [hresults, hlate] at hsame
  have hfirst := congrArg List.head? hoks
  rw [List.head?_map, Except.ok.inj hsame, hhead, hrest] at hfirst
  have hlost := deep_isOk hmade (hdialect s List.mem_cons_self) (by decide : 0 < 10) (by decide)
  exact absurd (hlost.mp (Option.some.inj hfirst)) (by decide)

/-- Results of ordinary occasions can differ, though one tree holds the documentation and the
compiler is confined: where a documentation file is named like a snippet file in the work directory,
and where the path of one snippet file is short enough and that of another one is not. -/
theorem ordinary_occasions_differ :
    (objector.Confined objection ∧
      (∀ random ∈ ["Ab12cD", "zZ98yY"], sampleRun.Ordinary archiveFiles (inArchive random) ∧
        sampleRun.FitAlike archiveFiles (inArchive random)) ∧
      (sampleRun.on archiveFiles (inArchive "Ab12cD")).results ≠
        (sampleRun.on archiveFiles (inArchive "zZ98yY")).results) ∧
    assenter.Confined assent ∧
      (∀ o ∈ [deepInOrder, deepLateFirst], deepRun.Ordinary deepFiles o ∧
        Unmentioned deepFiles o) ∧
      (deepRun.on deepFiles deepInOrder).results ≠ (deepRun.on deepFiles deepLateFirst).results := by
  refine ⟨⟨objector_confined, fun random hrandom => ?_, archive_results_ne⟩, assenter_confined,
    fun o ho => ?_, deep_results_ne⟩
  · exact ordinary_inArchive (by simpa using hrandom) (archive_count ▸ by decide)
  · simp only [List.mem_cons, List.not_mem_nil, or_false] at ho
    rcases ho with rfl | rfl
    · exact ordinary_deepInOrder (List.Subset.refl _)
    · exact ordinary_deepLateFirst

end Run

end DocSnippets
