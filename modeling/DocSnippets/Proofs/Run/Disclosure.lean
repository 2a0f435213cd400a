import DocSnippets.Proofs.Diagnostic.Messages
import DocSnippets.Proofs.Run.Course
import DocSnippets.Proofs.Run.Delivery
import DocSnippets.Proofs.Run.Numbering
import DocSnippets.Proofs.Run.Preparation

/-!
# What a run discloses

Every result of a run comes from the turn of a snippet: from what the compiler answered, or from a
file that could not be written. So the name of the work directory is in a message exactly where
scrubbing leaves it exposed in a text of that turn. The paths of snippet and project files never are,
but the path of any other file in the work directory, or of the directory itself, is passed on.
-/

namespace DocSnippets

open Scrubber (MarkedPath Exposed IsWorkFile)

/-- A result and the turn that it comes from. -/
structure Workshop.Source (w : Workshop) (snippets : List Prepared) (result : SnippetResult)
    (t : Turn) : Prop where
  snippet : t.job.snippet ∈ snippets
  file : ∃ id, t.file = w.directory.snippetPath id t.job.snippet.block.dialect
  result : t.result w = result

theorem RandomPart.markedPath {suffix : String} (h : RandomPart suffix) :
    MarkedPath (WorkFile.directoryName suffix).toList := by
  rw [WorkFile.toList_directoryName]
  constructor
  case marked => exact List.prefix_append _ _
  case path =>
    intro c hc
    rcases List.mem_append.mp hc with hc | hc
    · exact Scrubber.isPathChar_of_mem_mark c hc
    · exact Scrubber.isPathChar_of_isAlphanum (h.alphanumeric c hc)

namespace Workshop

variable {w : Workshop} {snippets : List Prepared}

theorem exists_source_compile (w : Workshop) (s : Prepared) (shared : Shared) :
    ∃ t, w.Source [s] (w.compile s shared).1 t := by
  simp only [compile]
  rw [submit_outcome w ⟨0, s⟩, takeFile_fst]
  exact ⟨⟨⟨0, s⟩, w.directory.snippetPath shared.nextId s.block.dialect, _, _⟩,
    List.mem_singleton_self s, ⟨shared.nextId, rfl⟩, rfl⟩

theorem Source.mono {result : SnippetResult} {t : Turn} {more : List Prepared}
    (h : w.Source snippets result t) (hmore : ∀ s ∈ snippets, s ∈ more) :
    w.Source more result t :=
  ⟨hmore _ h.snippet, h.file, h.result⟩

theorem exists_source_compileAll (w : Workshop) (snippets : List Prepared) (shared : Shared) :
    ∀ result ∈ (w.compileAll snippets shared).1, ∃ t, w.Source snippets result t := by
  induction snippets generalizing shared with
  | nil =>
    intro result hresult
    cases hresult
  | cons s rest ih =>
    intro result hresult
    simp only [compileAll] at hresult
    rcases List.mem_cons.mp hresult with hfirst | hresult
    · obtain ⟨t, ht⟩ := w.exists_source_compile s shared
      rw [hfirst]
      exact ⟨t, ht.mono (by simp)⟩
    · obtain ⟨t, ht⟩ := ih _ result hresult
      exact ⟨t, ht.mono fun u hu => List.mem_cons_of_mem s hu⟩

end Workshop

namespace Pool

variable {w : Workshop} {snippets : List Prepared}

/-- Every turn is in a file with a number. -/
theorem run_named (w : Workshop) (snippets : List Prepared) (workers : Nat) (d : Disk)
    (events : List Event) :
    ∀ t ∈ (start snippets workers ⟨d, 1, []⟩).turns w events,
      ∃ id, t.file = w.directory.snippetPath id t.job.snippet.block.dialect := by
  have hstart : Numbered w snippets.length (start snippets workers ⟨d, 1, []⟩) :=
    start_numbered w snippets workers d []
  generalize start snippets workers ⟨d, 1, []⟩ = p at hstart
  have hall := run_induction
    (P := fun p log => Numbered w snippets.length p ∧
      ∀ t ∈ log, ∃ id, t.file = w.directory.snippetPath id t.job.snippet.block.dialect)
    (fun p log t q hp hm => by
      refine ⟨step_numbered hp.1 hm, fun u hu => ?_⟩
      rcases List.mem_append.mp hu with hu | hu
      · exact hp.2 u hu
      · cases hm with
        | @submit worker job file fault hw =>
          obtain rfl := List.mem_singleton.mp hu
          have hfile : Phase.file? (.written job file fault) = some (job, file) := rfl
          obtain ⟨id, -, -, hpath⟩ := hp.1.given worker _ job file hw hfile
          exact ⟨id, hpath⟩
        | _ => cases hu) []
    ⟨hstart, fun t ht => by cases ht⟩ events
  simpa using hall.2

theorem exists_source (w : Workshop) (snippets : List Prepared) (workers : Nat) (d : Disk)
    (events : List Event) :
    ∀ result ∈ ((start snippets workers ⟨d, 1, []⟩).run w events).results,
      ∃ t, w.Source snippets result t := by
  intro result hresult
  have hrecord := run_recorded w snippets workers ⟨d, 1, []⟩ events
  have hnamed := run_named w snippets workers d events
  obtain ⟨stored, hstored, hsome⟩ := List.mem_filterMap.mp hresult
  obtain ⟨slot, hslot⟩ := List.mem_iff_getElem?.mp hstored
  obtain ⟨t, ht, -, hof⟩ := hrecord.stored slot result (hslot.trans (congrArg some hsome))
  exact ⟨t, List.mem_of_getElem? (hrecord.jobs t ht), hnamed t ht, hof⟩

end Pool

namespace Run

variable {r : Run} {schedule : Nat → Nat → List Event} {suffix : String} {d : Disk}
  {files : List Path}

theorem exists_source_compile (r : Run) (events : List Event) (snippets : List Prepared)
    (directory : WorkDirectory) (home : Disk) :
    ∀ result ∈ (r.compile events snippets directory home).1,
      ∃ t, Workshop.Source ⟨r.compiler, r.options, directory⟩ snippets result t := by
  unfold compile
  dsimp only
  split
  · exact Workshop.exists_source_compileAll _ snippets _
  · exact Pool.exists_source _ snippets _ home events

/-- The workshop of a run in a work directory with a given random part. -/
structure Workplace (r : Run) (suffix : String) (d : Disk) (w : Workshop) : Prop where
  compiler : w.compiler = r.compiler
  options : w.options = r.options
  created : ∃ home, WorkDirectory.create d r.parent suffix = (.ok w.directory, home)

theorem exists_source {results : List SnippetResult}
    (h : (r.executeWith schedule suffix d files).results = .ok results) :
    ∀ result ∈ results, ∃ w snippets t, r.Workplace suffix d w ∧
      r.prepare d files = .ok snippets ∧ w.Source snippets result t := by
  intro result hresult
  have hcourse := r.executeWith_course schedule suffix d files
  generalize r.executeWith schedule suffix d files = report at h hcourse
  cases hcourse with
  | rejected hprepare => cases h
  | idle hprepare =>
    obtain rfl := Except.ok.inj h
    cases hresult
  | homeless hprepare hne hcreate => cases h
  | @compiled snippets directory home results' shared hprepare hne hcreate hcompile =>
    obtain rfl := Except.ok.inj h
    have hmem : result ∈ (r.compile (schedule snippets.length (r.workers snippets.length))
        snippets directory home).1 := by rwa [hcompile]
    obtain ⟨t, ht⟩ := r.exists_source_compile _ snippets directory home result hmem
    exact ⟨⟨r.compiler, r.options, directory⟩, snippets, t, ⟨rfl, rfl, home, hcreate⟩, hprepare, ht⟩

/-- The name of the work directory is in a message exactly where a text of the compiler, or the
report of a file that could not be written, leaves it exposed: the exact paths of the snippet's files
are gone, and no snippet or project file follows in the same run of path characters. In particular no
message spells the path of a snippet or project file in the work directory. -/
theorem disclosed_iff_exposed (hrandom : RandomPart suffix)
    (hfiles : ∀ file ∈ files, ¬ (WorkFile.directoryName suffix).toList <:+: file.text.toList)
    {results : List SnippetResult}
    (h : (r.executeWith schedule suffix d files).results = .ok results) :
    ∀ result ∈ results, ∀ f, result.failure = some f →
      ∃ w snippets t, r.Workplace suffix d w ∧ r.prepare d files = .ok snippets ∧
        w.Source snippets result t ∧
        ((WorkFile.directoryName suffix).toList <:+: f.message.toList ↔
          ∃ text ∈ (t.outcome w).texts, Exposed (WorkFile.directoryName suffix).toList
            ((Scrubber.ofSnippet t.file t.job.snippet.block).relabel text.toList)) ∧
        ∀ work, IsWorkFile work → (WorkFile.directoryName suffix).toList <+: work →
          ¬ work <:+: f.message.toList := by
  intro result hresult f hfailure
  obtain ⟨w, snippets, t, hplace, hprepare, hsource⟩ := exists_source h result hresult
  have hfile := hfiles _ (prepare_file hprepare _ hsource.snippet)
  rw [← hsource.result, Turn.result] at hfailure
  refine ⟨w, snippets, t, hplace, hprepare, hsource, ?_, ?_⟩
  · exact SnippetResult.infix_message_iff hrandom.markedPath hfile hfailure
  · intro work hwork hstarts
    refine SnippetResult.not_workFile_in_message hwork (fun hoccurs => ?_) hfailure
    exact hfile (hstarts.isInfix.trans hoccurs)

/-- A compiler that names the declaration file beside the snippet. -/
def declarer : Compiler := fun r d =>
  (.finished (.diagnostics [⟨none, some 5055, "error TS5055: Cannot write file '" ++
    (r.file.withExtension "d.ts").text ++ "'."⟩]), d)

def declaring : Run where
  package := ⟨"p", some "index.js", ⟨"/p"⟩, none⟩
  compiler := declarer
  options := .default
  jobs := 1
  wrap := true
  workRoot := none

def declaringTree : Disk where
  entries := [(["p"], .directory), (["p", "a.md"], .file "```ts\nlog()\n```\n".toUTF8 false)]
  current := ["p"]

def declaringFiles : List Path := [⟨"a.md"⟩]

theorem declaring_unnamed : ∀ file ∈ declaringFiles,
    ¬ (WorkFile.directoryName "Ab12cD").toList <:+: file.text.toList := by decide

theorem declaring_disclosed :
    RandomPart "Ab12cD" ∧
      (∀ file ∈ declaringFiles,
        ¬ (WorkFile.directoryName "Ab12cD").toList <:+: file.text.toList) ∧
      ∃ results, (declaring.execute "Ab12cD" declaringTree declaringFiles).results = .ok results ∧
        results ≠ [] ∧ ∀ result ∈ results, ∀ f, result.failure = some f →
          ∃ w snippets t, declaring.Workplace "Ab12cD" declaringTree w ∧
            declaring.prepare declaringTree declaringFiles = .ok snippets ∧
            w.Source snippets result t ∧
            ((WorkFile.directoryName "Ab12cD").toList <:+: f.message.toList ↔
              ∃ text ∈ (t.outcome w).texts, Exposed (WorkFile.directoryName "Ab12cD").toList
                ((Scrubber.ofSnippet t.file t.job.snippet.block).relabel text.toList)) ∧
            ∀ work, IsWorkFile work → (WorkFile.directoryName "Ab12cD").toList <+: work →
              ¬ work <:+: f.message.toList := by
  have hrandom : RandomPart "Ab12cD" := by decide
  have hcount : (declaring.execute "Ab12cD" declaringTree declaringFiles).results.toOption.map
      List.length = some 1 := by decide +kernel
  refine ⟨hrandom, declaring_unnamed, ?_⟩
  cases hresults : (declaring.execute "Ab12cD" declaringTree declaringFiles).results with
  | error e => rw [hresults] at hcount; cases hcount
  | ok results =>
    refine ⟨results, rfl, ?_, disclosed_iff_exposed hrandom declaring_unnamed hresults⟩
    rintro rfl
    rw [hresults] at hcount
    cases hcount

/-- The message about the declaration file names the work directory. -/
theorem declaring_names_directory :
    ∃ message,
      (declaring.execute "Ab12cD" declaringTree declaringFiles).results.toOption.map
          (·.map fun result => result.failure.map (·.message)) = some [some message] ∧
        (WorkFile.directoryName "Ab12cD").toList <:+: message.toList :=
  ⟨"a.md → Code Block 1: error TS5055: Cannot write file '/p/compiled-docs-Ab12cD/block-1.d.ts'.",
    by decide +kernel, "a.md → Code Block 1: error TS5055: Cannot write file '/p/".toList,
    "/block-1.d.ts'.".toList, by decide +kernel⟩

end Run

end DocSnippets
