import DocSnippets.Proofs.Run.Course
import DocSnippets.Proofs.Run.Sites

/-!
# The verdict on a run

Whether a run is rejected, and with which error, is decided by the first file that cannot be read,
by the entry points of the package where there is a snippet at all, by the first self-import that
they do not serve, and by the work directory, in this order. Nothing else rejects a run. What a
self-import is does not refer to the search for them: where an earlier candidate reaches into one,
it depends on the search whether the run is rejected for it.
-/

namespace DocSnippets

/-- A package with a main file or exports. -/
def EntryPoints.Declared (e : EntryPoints) : Prop := e.main ≠ none ∨ e.exports ≠ none

theorem EntryPoints.check_of_declared {e : EntryPoints} (h : e.Declared) : e.check = .ok e := by
  unfold check
  rcases h with hmain | hexports
  · obtain ⟨main, hmain⟩ := Option.ne_none_iff_exists'.mp hmain
    simp [hmain]
  · obtain ⟨exports, hexports⟩ := Option.ne_none_iff_exists'.mp hexports
    simp [hexports]

theorem EntryPoints.check_of_not_declared {e : EntryPoints} (h : ¬ e.Declared) :
    e.check = .error .missingEntry := by
  obtain ⟨hmain, hexports⟩ := not_or.mp h
  rw [Classical.not_not] at hmain hexports
  unfold check
  rw [hmain, hexports]
  rfl

theorem EntryPoints.resolve_error {e : EntryPoints} {subpath : Option (List Char)}
    {reason : ResolutionError} (h : e.resolve subpath = .error reason) :
    ∃ request, reason = .unresolved request := by
  rw [resolve] at h
  split at h
  · cases h
  · obtain rfl := Except.error.inj h
    exact ⟨_, rfl⟩

namespace Run

/-- The blocks of the files that can be read, in order. -/
def documented (d : Disk) (files : List Path) : List Block :=
  files.flatMap fun file =>
    match d.readText file with
    | .ok text => Markdown.blocks file text
    | .error _ => []

variable {d : Disk} {files : List Path}

theorem blocks_of_readable (h : AllSucceed d.readText files) :
    blocks d files = .ok (documented d files) := by
  induction files with
  | nil => rfl
  | cons file files ih =>
    obtain ⟨⟨text, htext⟩, hrest⟩ := allSucceed_cons_iff.mp h
    rw [blocks, documented, List.flatMap_cons, htext]
    simp only [ih hrest, bind, Except.bind]
    rfl

theorem blocks_of_firstFails {file : Path} {fault : Disk.Fault}
    (h : FirstFails d.readText files file fault) :
    blocks d files = .error (.extraction file fault) := by
  induction files with
  | nil => exact absurd h FirstFails.not_nil
  | cons first files ih =>
    rw [blocks]
    rcases h.of_cons with ⟨rfl, hfails⟩ | ⟨⟨text, htext⟩, hrest⟩
    · rw [hfails]
    · simp only [htext, ih hrest, bind, Except.bind]

/-- What preparing comes to, and what that says about the documentation and the package. -/
inductive Ruling (r : Run) (d : Disk) (files : List Path) :
    Except RunError (List Prepared) → Prop where
  | unreadable {file : Path} {fault : Disk.Fault} (h : FirstFails d.readText files file fault) :
      Ruling r d files (.error (.extraction file fault))
  | blank (hread : AllSucceed d.readText files) (hnone : documented d files = []) :
      Ruling r d files (.ok [])
  | undeclared (hread : AllSucceed d.readText files) (hsome : documented d files ≠ [])
      (h : ¬ r.package.entryPoints.Declared) :
      Ruling r d files (.error (.resolution .missingEntry))
  | unserved {e : ResolutionError} (hread : AllSucceed d.readText files)
      (hsome : documented d files ≠ []) (hdeclared : r.package.entryPoints.Declared)
      (h : prepareAll r.package r.wrap (documented d files) = .error e) :
      Ruling r d files (.error (.resolution e))
  | accepted {snippets : List Prepared} (hread : AllSucceed d.readText files)
      (hsome : documented d files ≠ []) (hdeclared : r.package.entryPoints.Declared)
      (hne : snippets ≠ [])
      (hprepared : prepareAll r.package r.wrap (documented d files) = .ok snippets) :
      Ruling r d files (.ok snippets)

variable {r : Run}

theorem Ruling.prepare_eq {x : Except RunError (List Prepared)} (h : r.Ruling d files x) :
    r.prepare d files = x := by
  unfold prepare
  cases h with
  | unreadable h =>
    rw [blocks_of_firstFails h]
    rfl
  | blank hread hnone =>
    rw [blocks_of_readable hread, hnone]
    rfl
  | undeclared hread hsome h =>
    simp only [blocks_of_readable hread, bind, Except.bind]
    rw [if_neg hsome, EntryPoints.check_of_not_declared h]
  | unserved hread hsome hdeclared h =>
    simp only [blocks_of_readable hread, bind, Except.bind]
    rw [if_neg hsome, EntryPoints.check_of_declared hdeclared]
    dsimp only
    rw [h]
  | accepted hread hsome hdeclared hne hprepared =>
    simp only [blocks_of_readable hread, bind, Except.bind]
    rw [if_neg hsome, EntryPoints.check_of_declared hdeclared]
    dsimp only
    rw [hprepared]

theorem exists_ruling (r : Run) (d : Disk) (files : List Path) : ∃ x, r.Ruling d files x := by
  rcases allSucceed_or_firstFails d.readText files with hread | ⟨file, fault, h⟩
  · by_cases hsome : documented d files = []
    · exact ⟨_, .blank hread hsome⟩
    · by_cases hdeclared : r.package.entryPoints.Declared
      · cases hprepare : prepareAll r.package r.wrap (documented d files) with
        | error e => exact ⟨_, .unserved hread hsome hdeclared hprepare⟩
        | ok snippets =>
          refine ⟨_, .accepted hread hsome hdeclared ?_ hprepare⟩
          rintro rfl
          exact hsome (List.length_eq_zero_iff.mp (length_of_prepareAll hprepare).symm)
      · exact ⟨_, .undeclared hread hsome hdeclared⟩
  · exact ⟨_, .unreadable h⟩

theorem prepare_eq_iff {x : Except RunError (List Prepared)} :
    r.prepare d files = x ↔ r.Ruling d files x := by
  constructor
  · intro h
    obtain ⟨y, hruling⟩ := exists_ruling r d files
    rwa [← h, hruling.prepare_eq]
  · exact Ruling.prepare_eq

/-- When a run is rejected, and with which error. -/
structure Verdict (r : Run) (schedule : Nat → Nat → List Event) (suffix : String) (d : Disk)
    (files : List Path) : Prop where
  /-- The first file that cannot be read rejects the run. -/
  extraction : ∀ file fault,
    (r.executeWith schedule suffix d files).results = .error (.extraction file fault) ↔
      FirstFails d.readText files file fault
  /-- A package without any entry point rejects a run that has a snippet. -/
  missingEntry :
    (r.executeWith schedule suffix d files).results = .error (.resolution .missingEntry) ↔
      AllSucceed d.readText files ∧ documented d files ≠ [] ∧ ¬ r.package.entryPoints.Declared
  /-- Otherwise the run is rejected for a self-import without a file only, and names the first. -/
  unresolved : ∀ request,
    (r.executeWith schedule suffix d files).results =
        .error (.resolution (.unresolved request)) →
      AllSucceed d.readText files ∧ r.package.entryPoints.Declared ∧
        ∃ s : Site, s.FirstUnserved r.package (documented d files) (.unresolved request)
  /-- A self-import without a file rejects the run, unless it is overlaid. -/
  unserved : AllSucceed d.readText files → r.package.entryPoints.Declared → ∀ s : Site,
    s.StandsIn r.package (documented d files) → ¬ s.Served r.package → ¬ s.Overlaid r.package →
      ∃ request, (r.executeWith schedule suffix d files).results =
        .error (.resolution (.unresolved request))
  /-- Where no self-import is overlaid, the first one without a file rejects the run and is named. -/
  first : AllSucceed d.readText files → r.package.entryPoints.Declared →
    (∀ s : Site, s.StandsIn r.package (documented d files) → ¬ s.Overlaid r.package) → ∀ request,
      (r.executeWith schedule suffix d files).results =
          .error (.resolution (.unresolved request)) ↔
        ∃ s : Site, s.FirstUnserved r.package (documented d files) (.unresolved request)
  /-- A run that could begin is rejected only when its work directory cannot be made. -/
  workDirectory : ∀ parent fault,
    (r.executeWith schedule suffix d files).results = .error (.workDirectory parent fault) ↔
      AllSucceed d.readText files ∧ documented d files ≠ [] ∧
        (∀ reason, (r.executeWith schedule suffix d files).results ≠ .error (.resolution reason)) ∧
        parent = r.parent ∧ (WorkDirectory.create d r.parent suffix).1 = .error fault
  /-- In all other cases there are results. -/
  results : (∃ list, (r.executeWith schedule suffix d files).results = .ok list) ↔
    AllSucceed d.readText files ∧
      (∀ reason, (r.executeWith schedule suffix d files).results ≠ .error (.resolution reason)) ∧
      (documented d files = [] ∨
        ∃ directory, (WorkDirectory.create d r.parent suffix).1 = .ok directory)
  /-- In a package with an entry point, documentation without self-imports is not rejected for its
  entry points. -/
  plain : r.package.entryPoints.Declared →
    (∀ s : Site, ¬ s.StandsIn r.package (documented d files)) → ∀ reason,
      (r.executeWith schedule suffix d files).results ≠ .error (.resolution reason)

variable {schedule : Nat → Nat → List Event} {suffix : String}

/-- An error of the preparation is the error of the run, and any other error is about the work
directory. -/
theorem results_error_iff {e : RunError} (he : ∀ parent fault, e ≠ .workDirectory parent fault) :
    (r.executeWith schedule suffix d files).results = .error e ↔ r.Ruling d files (.error e) := by
  constructor
  · intro h
    have hcourse := r.executeWith_course schedule suffix d files
    generalize r.executeWith schedule suffix d files = report at h hcourse
    cases hcourse with
    | rejected hprepare =>
      obtain rfl := Except.error.inj h
      exact prepare_eq_iff.mp hprepare
    | idle hprepare => cases h
    | homeless hprepare hne hcreate => exact absurd (Except.error.inj h).symm (he _ _)
    | compiled hprepare hne hcreate hcompile => cases h
  · intro h
    rw [(Course.rejected h.prepare_eq).executeWith_eq]

theorem results_workDirectory_iff {parent : Path} {fault : Disk.Fault} :
    (r.executeWith schedule suffix d files).results = .error (.workDirectory parent fault) ↔
      ∃ snippets, snippets ≠ [] ∧ r.Ruling d files (.ok snippets) ∧ parent = r.parent ∧
        (WorkDirectory.create d r.parent suffix).1 = .error fault := by
  constructor
  · intro h
    have hcourse := r.executeWith_course schedule suffix d files
    generalize r.executeWith schedule suffix d files = report at h hcourse
    cases hcourse with
    | rejected hprepare =>
      obtain rfl := Except.error.inj h
      cases prepare_eq_iff.mp hprepare
    | idle hprepare => cases h
    | homeless hprepare hne hcreate =>
      obtain ⟨rfl, rfl⟩ := RunError.workDirectory.inj (Except.error.inj h)
      exact ⟨_, hne, prepare_eq_iff.mp hprepare, rfl, by rw [hcreate]⟩
    | compiled hprepare hne hcreate hcompile => cases h
  · rintro ⟨snippets, hne, hruling, rfl, hcreate⟩
    have hpair : WorkDirectory.create d r.parent suffix =
        (.error fault, (WorkDirectory.create d r.parent suffix).2) := Prod.ext hcreate rfl
    rw [(Course.homeless hruling.prepare_eq hne hpair).executeWith_eq]

theorem results_ok_iff :
    (∃ list, (r.executeWith schedule suffix d files).results = .ok list) ↔
      r.Ruling d files (.ok []) ∨ ∃ snippets directory, snippets ≠ [] ∧
        r.Ruling d files (.ok snippets) ∧
        (WorkDirectory.create d r.parent suffix).1 = .ok directory := by
  constructor
  · rintro ⟨list, h⟩
    have hcourse := r.executeWith_course schedule suffix d files
    generalize r.executeWith schedule suffix d files = report at h hcourse
    cases hcourse with
    | rejected hprepare => cases h
    | idle hprepare => exact Or.inl (prepare_eq_iff.mp hprepare)
    | homeless hprepare hne hcreate => cases h
    | compiled hprepare hne hcreate hcompile =>
      exact Or.inr ⟨_, _, hne, prepare_eq_iff.mp hprepare, by rw [hcreate]⟩
  · rintro (hruling | ⟨snippets, directory, hne, hruling, hcreate⟩)
    · exact ⟨[], by rw [(Course.idle hruling.prepare_eq).executeWith_eq]⟩
    · have hpair : WorkDirectory.create d r.parent suffix =
          (.ok directory, (WorkDirectory.create d r.parent suffix).2) := Prod.ext hcreate rfl
      exact ⟨_, by rw [(Course.compiled hruling.prepare_eq hne hpair rfl).executeWith_eq]⟩

/-- What a run comes to whose files can be read and whose entry points serve it. -/
theorem exists_accepted (hread : AllSucceed d.readText files)
    (hserved : ∀ reason,
      (r.executeWith schedule suffix d files).results ≠ .error (.resolution reason)) :
    (documented d files = [] ∧ r.Ruling d files (.ok [])) ∨
      ∃ snippets, snippets ≠ [] ∧ r.Ruling d files (.ok snippets) := by
  obtain ⟨x, hruling⟩ := exists_ruling r d files
  cases hruling with
  | unreadable h => exact absurd hread h.not_allSucceed
  | blank hread hnone => exact Or.inl ⟨hnone, .blank hread hnone⟩
  | undeclared hread hsome h =>
    exact absurd ((results_error_iff (by simp)).mpr (.undeclared hread hsome h)) (hserved _)
  | unserved hread hsome hdeclared h =>
    exact absurd ((results_error_iff (by simp)).mpr (.unserved hread hsome hdeclared h)) (hserved _)
  | accepted hread hsome hdeclared hne hprepared =>
    exact Or.inr ⟨_, hne, .accepted hread hsome hdeclared hne hprepared⟩

/-- An error of resolution in a package with an entry point is that of a first self-import. -/
theorem exists_site_of_results (hdeclared : r.package.entryPoints.Declared)
    {reason : ResolutionError}
    (h : (r.executeWith schedule suffix d files).results = .error (.resolution reason)) :
    AllSucceed d.readText files ∧
      ∃ s : Site, s.FirstUnserved r.package (documented d files) reason := by
  rw [results_error_iff (by simp)] at h
  cases h with
  | undeclared hread hsome h => exact absurd hdeclared h
  | unserved hread hsome hdeclared h => exact ⟨hread, exists_firstUnserved h⟩

theorem exists_rejected (hread : AllSucceed d.readText files)
    (hdeclared : r.package.entryPoints.Declared) {s : Site}
    (hs : s.StandsIn r.package (documented d files)) (hunserved : ¬ s.Served r.package)
    (hfree : ¬ s.Overlaid r.package) :
    ∃ request, (r.executeWith schedule suffix d files).results =
      .error (.resolution (.unresolved request)) := by
  obtain ⟨x, hruling⟩ := exists_ruling r d files
  cases hruling with
  | unreadable h => exact absurd hread h.not_allSucceed
  | blank hread hnone =>
    obtain ⟨later, hfound⟩ := hs.block
    simp [hnone] at hfound
  | undeclared hread hsome h => exact absurd hdeclared h
  | unserved hread hsome hdeclared h =>
    obtain ⟨first, hfirst⟩ := exists_firstUnserved h
    obtain ⟨request, rfl⟩ := EntryPoints.resolve_error hfirst.fails
    exact ⟨request, (results_error_iff (by simp)).mpr (.unserved hread hsome hdeclared h)⟩
  | accepted hread hsome hdeclared hne hprepared =>
    exact absurd (served_of_prepareAll hprepared hs hfree) hunserved

/-- A run is rejected exactly when it has to be. -/
theorem executeWith_verdict (r : Run) (schedule : Nat → Nat → List Event) (suffix : String)
    (d : Disk) (files : List Path) : r.Verdict schedule suffix d files where
  extraction file fault := by
    rw [results_error_iff (by simp)]
    constructor
    · intro h
      cases h with
      | unreadable h => exact h
    · exact Ruling.unreadable
  missingEntry := by
    rw [results_error_iff (by simp)]
    constructor
    · intro h
      cases h with
      | undeclared hread hsome h => exact ⟨hread, hsome, h⟩
      | unserved hread hsome hdeclared h =>
        obtain ⟨s, hfirst⟩ := exists_firstUnserved h
        obtain ⟨request, heq⟩ := EntryPoints.resolve_error hfirst.fails
        cases heq
    · rintro ⟨hread, hsome, h⟩
      exact .undeclared hread hsome h
  unresolved request h := by
    have hruling := (results_error_iff (by simp)).mp h
    cases hruling with
    | unserved hread hsome hdeclared hprepare =>
      exact ⟨hread, hdeclared, exists_firstUnserved hprepare⟩
  unserved hread hdeclared s hs := exists_rejected hread hdeclared hs
  first hread hdeclared hfree request := by
    constructor
    · intro h
      exact (exists_site_of_results hdeclared h).2
    · rintro ⟨s, hs⟩
      obtain ⟨request', h⟩ :
          ∃ request', (r.executeWith schedule suffix d files).results =
            .error (.resolution (.unresolved request')) :=
        exists_rejected hread hdeclared hs.stands hs.not_served (hfree s hs.stands)
      obtain ⟨-, t, ht⟩ := exists_site_of_results hdeclared h
      rw [hs.error_eq ht hfree]
      exact h
  workDirectory parent fault := by
    constructor
    · intro h
      obtain ⟨snippets, hne, hruling, hparent, hcreate⟩ := results_workDirectory_iff.mp h
      cases hruling with
      | blank hread hnone => exact absurd rfl hne
      | accepted hread hsome hdeclared hne hprepared =>
        exact ⟨hread, hsome, fun reason hreason => by simp [h] at hreason, hparent, hcreate⟩
    · rintro ⟨hread, hsome, hserved, hparent, hcreate⟩
      rcases exists_accepted hread hserved with ⟨hnone, -⟩ | ⟨snippets, hne, hruling⟩
      · exact absurd hnone hsome
      · exact results_workDirectory_iff.mpr ⟨snippets, hne, hruling, hparent, hcreate⟩
  results := by
    constructor
    · rintro ⟨list, h⟩
      have hserved : ∀ reason,
          (r.executeWith schedule suffix d files).results ≠ .error (.resolution reason) := by
        intro reason hreason
        simp [h] at hreason
      rcases results_ok_iff.mp ⟨list, h⟩ with hruling | ⟨snippets, directory, hne, hruling, hcreate⟩
      · cases hruling with
        | blank hread hnone => exact ⟨hread, hserved, Or.inl hnone⟩
        | accepted hread hsome hdeclared hne hprepared => exact absurd rfl hne
      · cases hruling with
        | blank hread hnone => exact absurd rfl hne
        | accepted hread hsome hdeclared hne hprepared =>
          exact ⟨hread, hserved, Or.inr ⟨directory, hcreate⟩⟩
    · rintro ⟨hread, hserved, hcreated⟩
      rcases exists_accepted hread hserved with ⟨-, hruling⟩ | ⟨snippets, hne, hruling⟩
      · exact results_ok_iff.mpr (Or.inl hruling)
      · rcases hcreated with hnone | ⟨directory, hcreate⟩
        · exact results_ok_iff.mpr (Or.inl (.blank hread hnone))
        · exact results_ok_iff.mpr (Or.inr ⟨snippets, directory, hne, hruling, hcreate⟩)
  plain hdeclared hnone reason h := by
    obtain ⟨-, s, hs⟩ := exists_site_of_results hdeclared h
    exact hnone s hs.stands

/-- A package without entry points, and documentation that does not import it. -/
def entryless : Run where
  package := ⟨"lib", none, ⟨"/lib"⟩, none⟩
  compiler _ d := (.finished .success, d)
  options := .default
  jobs := 1
  wrap := true
  workRoot := none

def entrylessTree : Disk where
  entries := [(["lib"], .directory),
    (["lib", "README.md"], .file "```ts\nconst a = 1;\n```\n".toUTF8 false)]
  current := ["lib"]

/-- A run is rejected for entry points that nothing asks for. -/
theorem entryless_rejected :
    (∀ s : Site, ¬ s.StandsIn entryless.package (documented entrylessTree [⟨"README.md"⟩])) ∧
      (entryless.execute "Ab12cD" entrylessTree [⟨"README.md"⟩]).results =
        .error (.resolution .missingEntry) := by
  have hread : AllSucceed entrylessTree.readText [⟨"README.md"⟩] := by
    intro file hfile
    obtain rfl := List.mem_singleton.mp hfile
    exact ⟨_, rfl⟩
  have hsources : (documented entrylessTree [⟨"README.md"⟩]).map Block.source =
      ["const a = 1;\n"] := by decide +kernel
  have hsome : documented entrylessTree [⟨"README.md"⟩] ≠ [] := by
    intro hnone
    rw [hnone] at hsources
    cases hsources
  have hundeclared : ¬ entryless.package.entryPoints.Declared := by
    rintro (hmain | hexports)
    · exact hmain rfl
    · exact hexports rfl
  have hruling : entryless.Ruling entrylessTree [⟨"README.md"⟩] _ :=
    .undeclared hread hsome hundeclared
  refine ⟨fun s hs => ?_, (results_error_iff (by simp)).mpr hruling⟩
  obtain ⟨later, hfound⟩ := hs.block
  have hsource : s.block.source = "const a = 1;\n" := by
    have hmem : s.block.source ∈ (documented entrylessTree [⟨"README.md"⟩]).map Block.source := by
      rw [hfound]
      exact List.mem_map_of_mem (List.mem_append_right _ List.mem_cons_self)
    rw [hsources] at hmem
    exact List.mem_singleton.mp hmem
  -- The name of the package has a letter that the block has not.
  have hletter : 'l' ∈ s.block.source.toList := by
    rw [hs.selfImport.stands.source_eq]
    simp [Snippet.Candidate.text, entryless]
  rw [hsource] at hletter
  exact absurd hletter (by decide)

end Run

end DocSnippets
