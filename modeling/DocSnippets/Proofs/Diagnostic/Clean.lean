import DocSnippets.Proofs.Diagnostic.Messages
import DocSnippets.Proofs.Run.Frame

/-!
# Clean texts

A text is clean if it spells the path of no snippet or project file in a work directory. Scrubbing
makes every text clean, however such paths abut in it and whatever the label brings next to them, as
long as the name of the documentation file is clean itself. It changes no clean text without the
exact paths, and these are not clean, so that scrubbing once more changes nothing.
-/

namespace DocSnippets

open Text
open WorkFile (mark)
open Scrubber (IsWorkFile)

namespace Scrubber

/-- No path of a snippet or project file in a work directory is spelled. -/
def Clean (text : List Char) : Prop := ∀ f, IsWorkFile f → ¬ f <:+: text

namespace Clean

variable {a b text : List Char}

theorem of_infix (h : a <:+: b) (hb : Clean b) : Clean a :=
  fun f hf hoccurs => hb f hf (hoccurs.trans h)

theorem of_unmarked (h : Unmarked text) : Clean text :=
  fun _ hf hoccurs => h (hf.mark_prefix.isInfix.trans hoccurs)

theorem unfiled (h : Clean text) : Unfiled text := by
  rintro run f rest rfl - hf
  exact h f hf ⟨run, rest, List.append_assoc run f rest⟩

theorem replaceSpelled_eq_self (h : Clean text) (label : List Char) :
    replaceSpelled label text = text := by
  fun_induction replaceSpelled label text with
  | case1 => rfl
  | case2 c rest after hafter ih =>
    rw [afterLast?_eq_none_iff.mpr h.unfiled] at hafter
    cases hafter
  | case3 c rest hnone hc ih =>
    have hbehind : rest.dropWhile isPathChar <:+: c :: rest :=
      ((List.dropWhile_suffix isPathChar).trans (List.suffix_cons c rest)).isInfix
    rw [ih (h.of_infix hbehind), List.takeWhile_append_dropWhile]
  | case4 c rest hnone hc ih => rw [ih (h.of_infix (List.suffix_cons c rest).isInfix)]

end Clean

theorem relabel_eq_self {s : Scrubber} {text : List Char}
    (h : ∀ path ∈ s.exact, ¬ path <:+: text) : s.relabel text = text := by
  unfold relabel
  generalize s.exact = paths at h
  induction paths with
  | nil => rfl
  | cons path paths ih =>
    rw [List.foldl_cons, replaceAll_eq_self (h path List.mem_cons_self)]
    exact ih fun other hother => h other (List.mem_cons_of_mem path hother)

/-- A clean text without the exact paths stays as it is. -/
theorem scrub_eq_self {file : Path} {text : List Char} (hsnippet : ¬ file.text.toList <:+: text)
    (hproject : ¬ (WorkFile.projectFor file).text.toList <:+: text) (h : Clean text)
    (block : Block) : (ofSnippet file block).scrub text = text := by
  have hrelabel : (ofSnippet file block).relabel text = text := by
    apply relabel_eq_self
    simp only [ofSnippet, List.mem_cons, List.not_mem_nil, or_false]
    rintro path (rfl | rfl)
    · exact hproject
    · exact hsnippet
  calc (ofSnippet file block).scrub text
    _ = replaceSpelled block.label.toList ((ofSnippet file block).relabel text) := rfl
    _ = text := by rw [hrelabel, h.replaceSpelled_eq_self]

/-- Scrubbing leaves no work file: one that it left would not be followed by a work file in its run
of path characters, but it is one itself. -/
theorem clean_scrub {block : Block} (hfile : Clean block.file.text.toList) (file : Path)
    (text : List Char) : Clean ((ofSnippet file block).scrub text) := by
  intro f hf hoccurs
  have hlabel : Silent f block.label.toList := hf.markedPath.silent_label (hfile f hf)
  exact not_exposed_of_isWorkFile hf _ (hf.markedPath.exposed_of_infix hlabel hoccurs)

namespace IsWorkFile

variable {suffix : String}

theorem of_ending (hsuffix : ∀ c ∈ suffix.toList, c.isAlphanum = true) (id : Nat)
    {ending : List Char} (hending : ending ∈ endings) :
    IsWorkFile (mark ++ (suffix.toList ++ '/' :: (WorkFile.stem id ++ ending))) := by
  have hpart : ∀ c ∈ suffix.toList, Scrubber.isPathChar c = true ∧ isSlash c = false := by
    intro c hc
    have halphanum := hsuffix c hc
    refine ⟨isPathChar_of_isAlphanum halphanum, ?_⟩
    have hslash : c ≠ '/' := by
      rintro rfl
      exact absurd halphanum (by decide)
    have hbackslash : c ≠ '\\' := by
      rintro rfl
      exact absurd halphanum (by decide)
    simp [isSlash, hslash, hbackslash]
  have hdigits : ∀ c ∈ Nat.toDigits 10 id, isDigit c = true :=
    fun c hc => isDigit_of_mem_toDigits hc
  rw [WorkFile.stem, List.append_assoc]
  exact .spelled hpart (by decide) Nat.toDigits_ne_nil hdigits hending

theorem snippet (hsuffix : ∀ c ∈ suffix.toList, c.isAlphanum = true) (id : Nat)
    (dialect : Dialect) :
    IsWorkFile (mark ++ (suffix.toList ++ '/' :: (WorkFile.snippetName id dialect).toList)) := by
  rw [WorkFile.toList_snippetName]
  exact of_ending hsuffix id (by cases dialect <;> decide)

theorem project (hsuffix : ∀ c ∈ suffix.toList, c.isAlphanum = true) (id : Nat) :
    IsWorkFile (mark ++ (suffix.toList ++ '/' :: (WorkFile.projectName id).toList)) := by
  rw [WorkFile.toList_projectName]
  exact of_ending hsuffix id (by decide)

end IsWorkFile

end Scrubber

namespace WorkDirectory

variable {w : WorkDirectory} {d home : Disk} {parent : Path} {suffix : String}

/-- The path of a work directory ends with its name. -/
theorem exists_path_eq (h : create d parent suffix = (.ok w, home)) (hslash : '/' ∉ suffix.toList) :
    ∃ dir, w.path.text.toList = dir ++ '/' :: (mark ++ suffix.toList) := by
  have hne := (d.makeDirectories parent).2.absolute_ne_nil parent
  have hname : '/' ∉ (WorkFile.directoryName suffix).toList := by
    rw [WorkFile.toList_directoryName]
    intro hmem
    exact (List.mem_append.mp hmem).elim (by decide) hslash
  refine ⟨((d.makeDirectories parent).2.absolute parent).asDirectory, ?_⟩
  rw [path_of_createIn (create_ok h), Path.join_name hne hname, Disk.childPath,
    String.toList_ofList, WorkFile.toList_directoryName]

/-- The paths of a snippet file and of its project file spell work files. -/
theorem exists_workFile_of_create (h : create d parent suffix = (.ok w, home))
    (hsuffix : ∀ c ∈ suffix.toList, c.isAlphanum = true) (id : Nat) (dialect : Dialect) :
    (∃ f, IsWorkFile f ∧ f <:+: (w.snippetPath id dialect).text.toList) ∧
      ∃ f, IsWorkFile f ∧ f <:+: (WorkFile.projectFor (w.snippetPath id dialect)).text.toList := by
  have hslash : '/' ∉ suffix.toList := fun hmem => absurd (hsuffix _ hmem) (by decide)
  obtain ⟨dir, hpath⟩ := exists_path_eq h hslash
  have hsplit (name : List Char) : (Disk.childPath w.path.text.toList name).text.toList =
      (dir ++ ['/']) ++ (mark ++ (suffix.toList ++ '/' :: name)) := by
    rw [Disk.childPath, String.toList_ofList, hpath]
    simp only [List.append_assoc, List.cons_append, List.nil_append]
  rw [snippetPath_of_path hpath hslash, Disk.childPath, WorkFile.projectFor_append]
  constructor
  · refine ⟨_, .snippet hsuffix id dialect, ?_⟩
    rw [← Disk.childPath, hsplit]
    exact (List.suffix_append _ _).isInfix
  · refine ⟨_, .project hsuffix id, ?_⟩
    rw [← Disk.childPath, hsplit]
    exact (List.suffix_append _ _).isInfix

end WorkDirectory

namespace Scrubber

/-- What scrubbing for a snippet file makes of a text. -/
structure Cleans (s : Scrubber) (snippet : Path) (text : List Char) : Prop where
  clean : Clean (s.scrub text)
  snippet_gone : ¬ snippet.text.toList <:+: s.scrub text
  project_gone : ¬ (WorkFile.projectFor snippet).text.toList <:+: s.scrub text
  idempotent : s.scrub (s.scrub text) = s.scrub text
  unchanged : ¬ snippet.text.toList <:+: text →
    ¬ (WorkFile.projectFor snippet).text.toList <:+: text → Clean text → s.scrub text = text

variable {w : WorkDirectory} {d home : Disk} {parent : Path} {suffix : String}

/-- Scrubbing for a snippet file of a work directory cleans every text and changes no other one. -/
theorem scrub_cleans (h : WorkDirectory.create d parent suffix = (.ok w, home))
    (hsuffix : ∀ c ∈ suffix.toList, c.isAlphanum = true) (id : Nat) (dialect : Dialect)
    {block : Block} (hfile : Clean block.file.text.toList) (text : List Char) :
    Cleans (ofSnippet (w.snippetPath id dialect) block) (w.snippetPath id dialect) text := by
  obtain ⟨⟨f, hf, hsnippet⟩, ⟨g, hg, hproject⟩⟩ :=
    WorkDirectory.exists_workFile_of_create h hsuffix id dialect
  have hclean := clean_scrub hfile (w.snippetPath id dialect) text
  have hsgone := fun hoccurs => hclean f hf (hsnippet.trans hoccurs)
  have hpgone := fun hoccurs => hclean g hg (hproject.trans hoccurs)
  exact ⟨hclean, hsgone, hpgone, scrub_eq_self hsgone hpgone hclean block,
    fun hs hp htext => scrub_eq_self hs hp htext block⟩

/-- A block of a documentation file with a clean name. -/
def readmeBlock : Block where
  file := ⟨"README.md"⟩
  index := 3
  source := "log()\n"
  dialect := .ts

theorem clean_readme : Clean readmeBlock.file.text.toList := by
  have hunmarked : ¬ mark <:+: readmeBlock.file.text.toList := by decide
  exact .of_unmarked hunmarked

/-- The path of a snippet file and, right behind it, paths of other work files. -/
def abutting : List Char :=
  "/compiled-docs-Ab12cD/block-1.tscompiled-docs-x/block-2.tsx/compiled-docs-y\\block-3.ts".toList

theorem scrub_cleans_abutting :
    ∃ w home, WorkDirectory.create .empty ⟨"/"⟩ "Ab12cD" = (.ok w, home) ∧
      (∀ c ∈ "Ab12cD".toList, c.isAlphanum = true) ∧ Clean readmeBlock.file.text.toList ∧
      Cleans (ofSnippet (w.snippetPath 1 .ts) readmeBlock) (w.snippetPath 1 .ts) abutting := by
  have hmade : (WorkDirectory.create .empty ⟨"/"⟩ "Ab12cD").1.toOption.isSome = true := by
    decide +kernel
  have hsuffix : ∀ c ∈ "Ab12cD".toList, c.isAlphanum = true := List.all_eq_true.mp (by decide)
  cases hcreate : WorkDirectory.create .empty ⟨"/"⟩ "Ab12cD" with
  | mk made home =>
    cases made with
    | error fault =>
      rw [hcreate] at hmade
      cases hmade
    | ok w =>
      exact ⟨w, home, rfl, hsuffix, clean_readme,
        scrub_cleans hcreate hsuffix 1 .ts clean_readme abutting⟩

/-- A path with braces in the name of the directory. -/
def braced : List Char := "compiled-docs-\x7bx\x7d/block-2.ts".toList

theorem brace_mem_of_isWorkFile {f : List Char} (hf : IsWorkFile f) (hoccurs : f <:+: braced) :
    '\x7b' ∈ f := by
  have honce : ∀ n ≤ braced.length, mark <+: braced.drop n → n = 0 := by decide
  have hbraced : braced = mark ++ '\x7b' :: "x\x7d/block-2.ts".toList := by decide
  obtain ⟨before, after, hsplit⟩ := hoccurs
  rw [List.append_assoc] at hsplit
  have hnil : before.length = 0 := by
    refine honce before.length (by rw [← hsplit, List.length_append]; omega) ?_
    rw [← hsplit, List.drop_left]
    exact hf.mark_prefix.trans (List.prefix_append f after)
  rw [List.length_eq_zero_iff.mp hnil, List.nil_append, hbraced] at hsplit
  cases hf with
  | @spelled part digits ending slash hpart hslash hne hdigits hending =>
    rw [List.append_assoc] at hsplit
    have hrest := List.append_cancel_left hsplit
    cases part with
    | nil =>
      obtain rfl : slash = '\x7b' := (List.cons.inj hrest).1
      exact absurd hslash (by decide)
    | cons c part =>
      obtain rfl : c = '\x7b' := (List.cons.inj hrest).1
      simp

/-- Braces do not end a spelled path: a text without the exact paths, in which every work file has a
brace in the name of its directory, is replaced. -/
theorem braced_replaced :
    (WorkDirectory.create .empty ⟨"/"⟩ "Ab12cD").1.toOption.map
        (fun w => (w.snippetPath 1 .ts).text) = some "/compiled-docs-Ab12cD/block-1.ts" ∧
      (∀ f, IsWorkFile f → f <:+: braced → '\x7b' ∈ f) ∧
      ¬ "/compiled-docs-Ab12cD/block-1.ts".toList <:+: braced ∧
      ¬ (WorkFile.projectFor ⟨"/compiled-docs-Ab12cD/block-1.ts"⟩).text.toList <:+: braced ∧
      (ofSnippet ⟨"/compiled-docs-Ab12cD/block-1.ts"⟩ readmeBlock).scrub braced =
        "README.md → Code Block 3".toList := by
  refine ⟨by decide +kernel, fun f hf hoccurs => brace_mem_of_isWorkFile hf hoccurs, ?_⟩
  decide +kernel

end Scrubber

end DocSnippets
