import DocSnippets.Run

/-!
# The courses of a run

A run goes one of four ways: it is rejected while its snippets are prepared, there is no snippet, its
work directory cannot be made, or its snippets are compiled. The compiler is called on the last of
these alone, and up to the making of the work directory the tree is only read.
-/

namespace DocSnippets

/-- The ways that a run can go, with what is known on each of them. -/
inductive Run.Course (r : Run) (schedule : Nat → Nat → List Event) (suffix : String) (d : Disk)
    (files : List Path) : RunReport → Prop where
  | rejected {e : RunError} (hprepare : r.prepare d files = .error e) :
      Course r schedule suffix d files ⟨.error e, d, []⟩
  | idle (hprepare : r.prepare d files = .ok []) :
      Course r schedule suffix d files ⟨.ok [], d, []⟩
  | homeless {snippets : List Prepared} {fault : Disk.Fault} {left : Disk}
      (hprepare : r.prepare d files = .ok snippets) (hne : snippets ≠ [])
      (hcreate : WorkDirectory.create d r.parent suffix = (.error fault, left)) :
      Course r schedule suffix d files ⟨.error (.workDirectory r.parent fault), left, []⟩
  | compiled {snippets : List Prepared} {directory : WorkDirectory} {home : Disk}
      {results : List SnippetResult} {shared : Shared}
      (hprepare : r.prepare d files = .ok snippets) (hne : snippets ≠ [])
      (hcreate : WorkDirectory.create d r.parent suffix = (.ok directory, home))
      (hcompile : r.compile (schedule snippets.length (r.workers snippets.length)) snippets
        directory home = (results, shared)) :
      Course r schedule suffix d files
        ⟨.ok results, directory.close shared.disk, shared.submitted.reverse⟩

namespace Run

variable (r : Run) (schedule : Nat → Nat → List Event) (suffix : String) (d : Disk)
  (files : List Path)

theorem executeWith_course :
    r.Course schedule suffix d files (r.executeWith schedule suffix d files) := by
  unfold executeWith
  cases hprepare : r.prepare d files with
  | error e => exact .rejected hprepare
  | ok snippets =>
    cases snippets with
    | nil => exact .idle hprepare
    | cons s rest =>
      dsimp only
      split
      · next fault left hcreate => exact .homeless hprepare (List.cons_ne_nil s rest) hcreate
      · next directory home hcreate =>
        exact .compiled hprepare (List.cons_ne_nil s rest) hcreate rfl

variable {r schedule suffix d files}

/-- A course determines the report. -/
theorem Course.executeWith_eq {report : RunReport} (h : r.Course schedule suffix d files report) :
    r.executeWith schedule suffix d files = report := by
  unfold executeWith
  cases h with
  | rejected hprepare => rw [hprepare]
  | idle hprepare => rw [hprepare]
  | homeless hprepare hne hcreate =>
    obtain ⟨s, rest, rfl⟩ := List.exists_cons_of_ne_nil hne
    rw [hprepare, hcreate]
  | compiled hprepare hne hcreate hcompile =>
    obtain ⟨s, rest, rfl⟩ := List.exists_cons_of_ne_nil hne
    rw [hprepare, hcreate]
    dsimp only
    rw [hcompile]

/-- A course that ends with an error is one for every compiler. -/
theorem Course.with_compiler {report : RunReport} {e : RunError}
    (h : r.Course schedule suffix d files report) (herror : report.results = .error e)
    (compiler : Compiler) : { r with compiler }.Course schedule suffix d files report := by
  cases h with
  | rejected hprepare => exact .rejected hprepare
  | idle hprepare => cases herror
  | homeless hprepare hne hcreate => exact .homeless hprepare hne hcreate
  | compiled hprepare hne hcreate hcompile => cases herror

theorem Course.submitted_of_error {report : RunReport} {e : RunError}
    (h : r.Course schedule suffix d files report) (herror : report.results = .error e) :
    report.submitted = [] := by
  cases h with
  | rejected hprepare => rfl
  | idle hprepare => rfl
  | homeless hprepare hne hcreate => rfl
  | compiled hprepare hne hcreate hcompile => cases herror

/-- Only a run whose work directory cannot be made has written anything when it fails. -/
theorem Course.disk_of_error {report : RunReport} {e : RunError}
    (h : r.Course schedule suffix d files report) (herror : report.results = .error e)
    (he : ∀ fault, e ≠ .workDirectory r.parent fault) : report.disk = d := by
  cases h with
  | rejected hprepare => rfl
  | idle hprepare => rfl
  | @homeless snippets fault left hprepare hne hcreate =>
    exact absurd (Except.error.inj herror).symm (he fault)
  | compiled hprepare hne hcreate hcompile => cases herror

/-- A run with an error has not called the compiler, so it would have gone the same way with any
other one. When the error is about a file or an import, the tree is as it was. -/
theorem rejected_inert {e : RunError}
    (h : (r.executeWith schedule suffix d files).results = .error e) :
    (r.executeWith schedule suffix d files).submitted = [] ∧
      (∀ compiler, { r with compiler }.executeWith schedule suffix d files =
        r.executeWith schedule suffix d files) ∧
      (∀ file fault, e = .extraction file fault →
        (r.executeWith schedule suffix d files).disk = d) ∧
      (∀ reason, e = .resolution reason → (r.executeWith schedule suffix d files).disk = d) := by
  have hcourse := r.executeWith_course schedule suffix d files
  refine ⟨hcourse.submitted_of_error h, fun compiler => ?_, ?_, ?_⟩
  · exact (hcourse.with_compiler h compiler).executeWith_eq
  · intro file fault he
    refine hcourse.disk_of_error h fun fault' heq => ?_
    rw [he] at heq
    cases heq
  · intro reason he
    refine hcourse.disk_of_error h fun fault' heq => ?_
    rw [he] at heq
    cases heq

/-- Documentation with a good file and a file that is missing, and a compiler that removes
everything. -/
def halfMissing : Run where
  package := ⟨"p", some "index.js", ⟨"/p"⟩, none⟩
  compiler _ _ := (.panicked none, Disk.empty)
  options := .default
  jobs := 2
  wrap := true
  workRoot := some ⟨"/p/work"⟩

def halfMissingTree : Disk where
  entries := [(["p"], .directory), (["p", "a.md"], .file "```ts\nlog()\n```\n".toUTF8 false)]
  current := ["p"]

theorem rejected_inert_missing :
    (halfMissing.execute "Ab12cD" halfMissingTree [⟨"a.md"⟩, ⟨"b.md"⟩]).results =
        .error (.extraction ⟨"b.md"⟩ .missing) ∧
      (halfMissing.execute "Ab12cD" halfMissingTree [⟨"a.md"⟩, ⟨"b.md"⟩]).submitted = [] ∧
      (∀ compiler, { halfMissing with compiler }.execute "Ab12cD" halfMissingTree
          [⟨"a.md"⟩, ⟨"b.md"⟩] =
        halfMissing.execute "Ab12cD" halfMissingTree [⟨"a.md"⟩, ⟨"b.md"⟩]) ∧
      (halfMissing.execute "Ab12cD" halfMissingTree [⟨"a.md"⟩, ⟨"b.md"⟩]).disk =
        halfMissingTree := by
  have herror : (halfMissing.execute "Ab12cD" halfMissingTree [⟨"a.md"⟩, ⟨"b.md"⟩]).results =
      .error (.extraction ⟨"b.md"⟩ .missing) := rfl
  obtain ⟨hsubmitted, hcompiler, hdisk, -⟩ := rejected_inert herror
  exact ⟨herror, hsubmitted, hcompiler, hdisk _ _ rfl⟩

end Run

end DocSnippets
