import DocSnippets.Proofs.Run.Determinism
import DocSnippets.Proofs.Run.Verdict

/-!
# Runs over more files

What is prepared for two lists of files one after the other is what is prepared for each of them. So
a run over both lists succeeds when the runs over each of them do, and with a confined compiler it
has their results one after the other: no snippet shows in the result for another one.
-/

namespace DocSnippets

theorem exists_error_iff {ε α : Type} {x : Except ε α} :
    (∃ e, x = .error e) ↔ ¬ ∃ a, x = .ok a := by
  cases x <;> simp

theorem WorkDirectory.create_sibling {d : Disk} {parent : Path} {a b : String} (ha : RandomPart a)
    (hb : RandomPart b) (hua : Unused (d.makeDirectories parent).2 parent a)
    (hub : Unused (d.makeDirectories parent).2 parent b) :
    (∃ w, (create d parent a).1 = .ok w) ↔ ∃ w, (create d parent b).1 = .ok w := by
  have hsibling := createIn_sibling ha hb hua hub
  unfold create createWith
  revert hsibling
  obtain ⟨_ | fault, made⟩ := d.makeDirectories parent
  · dsimp only
    cases createIn made parent a <;> cases createIn made parent b <;> simp [Except.map]
  · simp

namespace Run

variable {r : Run} {d : Disk} {files xs ys : List Path}

theorem blocks_append (d : Disk) (xs ys : List Path) :
    blocks d (xs ++ ys) = (do
      let first ← blocks d xs
      let more ← blocks d ys
      .ok (first ++ more)) := by
  induction xs with
  | nil => cases h : blocks d ys <;> simp [blocks, h, bind, Except.bind]
  | cons file xs ih =>
    rw [List.cons_append, blocks, blocks, ih]
    cases d.readText file with
    | error fault => rfl
    | ok text =>
      cases hx : blocks d xs <;> cases hy : blocks d ys <;> simp [bind, Except.bind]

theorem prepareAll_append (package : Package) (wrap : Bool) (xs ys : List Block) :
    prepareAll package wrap (xs ++ ys) = (do
      let first ← prepareAll package wrap xs
      let more ← prepareAll package wrap ys
      .ok (first ++ more)) := by
  induction xs with
  | nil => cases h : prepareAll package wrap ys <;> simp [prepareAll, h, bind, Except.bind]
  | cons b xs ih =>
    rw [List.cons_append, prepareAll, prepareAll, ih]
    cases Prepared.ofBlock package wrap b <;> cases hx : prepareAll package wrap xs <;>
      cases hy : prepareAll package wrap ys <;> simp [bind, Except.bind]

/-- What is prepared are the blocks of the files, in a package with an entry point if there are
any. -/
theorem prepare_ok_iff {snippets : List Prepared} :
    r.prepare d files = .ok snippets ↔
      ∃ found, blocks d files = .ok found ∧ prepareAll r.package r.wrap found = .ok snippets ∧
        (found = [] ∨ r.package.entryPoints.Declared) := by
  unfold prepare
  cases hfound : blocks d files with
  | error e => simp [bind, Except.bind]
  | ok found =>
    simp only [bind, Except.bind, Except.ok.injEq, exists_eq_left']
    by_cases hnone : found = []
    · rw [if_pos hnone, hnone, prepareAll]
      simp
    · rw [if_neg hnone, or_iff_right hnone]
      by_cases hdeclared : r.package.entryPoints.Declared
      · rw [EntryPoints.check_of_declared hdeclared]
        cases prepareAll r.package r.wrap found <;> simp [hdeclared]
      · rw [EntryPoints.check_of_not_declared hdeclared]
        simp [hdeclared]

theorem bind_append_ok_iff {ε α : Type} {x y : Except ε (List α)} {l : List α} :
    (do
      let first ← x
      let more ← y
      .ok (first ++ more)) = Except.ok l ↔
      ∃ first more, x = .ok first ∧ y = .ok more ∧ l = first ++ more := by
  cases x <;> cases y <;> simp [bind, Except.bind, eq_comm]

theorem prepare_append_ok_iff {snippets : List Prepared} :
    r.prepare d (xs ++ ys) = .ok snippets ↔
      ∃ first more, r.prepare d xs = .ok first ∧ r.prepare d ys = .ok more ∧
        snippets = first ++ more := by
  simp only [prepare_ok_iff, blocks_append, bind_append_ok_iff]
  constructor
  · rintro ⟨_, ⟨a, b, ha, hb, rfl⟩, hprepared, hdeclared⟩
    rw [prepareAll_append, bind_append_ok_iff] at hprepared
    obtain ⟨first, more, hfirst, hmore, rfl⟩ := hprepared
    rw [List.append_eq_nil_iff] at hdeclared
    exact ⟨first, more, ⟨a, ha, hfirst, hdeclared.imp_left And.left⟩,
      ⟨b, hb, hmore, hdeclared.imp_left And.right⟩, rfl⟩
  · rintro ⟨first, more, ⟨a, ha, hfirst, hda⟩, ⟨b, hb, hmore, hdb⟩, rfl⟩
    refine ⟨a ++ b, ⟨a, b, ha, hb, rfl⟩, ?_, ?_⟩
    · rw [prepareAll_append, bind_append_ok_iff]
      exact ⟨first, more, hfirst, hmore, rfl⟩
    · rw [List.append_eq_nil_iff]
      rcases hda with hnone | hdeclared
      · exact hdb.imp_left fun hnone' => ⟨hnone, hnone'⟩
      · exact Or.inr hdeclared

theorem on_ok_iff {o : Occasion} :
    (∃ results, (r.on files o).results = .ok results) ↔
      ∃ snippets, r.prepare o.disk files = .ok snippets ∧
        (snippets = [] ∨ ∃ w, (WorkDirectory.create o.disk r.parent o.random).1 = .ok w) := by
  rw [on, results_ok_iff]
  simp only [← prepare_eq_iff]
  constructor
  · rintro (hnone | ⟨snippets, w, -, hprepare, hcreate⟩)
    · exact ⟨[], hnone, Or.inl rfl⟩
    · exact ⟨snippets, hprepare, Or.inr ⟨w, hcreate⟩⟩
  · rintro ⟨snippets, hprepare, hopen⟩
    by_cases hne : snippets = []
    · exact Or.inl (hne ▸ hprepare)
    · obtain ⟨w, hcreate⟩ := hopen.resolve_left hne
      exact Or.inr ⟨snippets, w, hne, hprepare, hcreate⟩

variable {o₁ o₂ o : Occasion}

/-- A run over two lists of files has results exactly when the runs over each of them have. -/
theorem on_append_ok_iff (h₁ : r.Regular xs o₁) (h₂ : r.Regular ys o₂)
    (h : r.Regular (xs ++ ys) o) (hdisk₁ : o₁.disk = o.disk) (hdisk₂ : o₂.disk = o.disk) :
    (∃ results, (r.on (xs ++ ys) o).results = .ok results) ↔
      (∃ results, (r.on xs o₁).results = .ok results) ∧
        ∃ results, (r.on ys o₂).results = .ok results := by
  have hopen₁ := WorkDirectory.create_sibling h₁.random h.random (hdisk₁ ▸ h₁.unused) h.unused
  have hopen₂ := WorkDirectory.create_sibling h₂.random h.random (hdisk₂ ▸ h₂.unused) h.unused
  simp only [on_ok_iff, hdisk₁, hdisk₂, hopen₁, hopen₂, prepare_append_ok_iff]
  constructor
  · rintro ⟨_, ⟨first, more, hfirst, hmore, rfl⟩, hopen⟩
    rw [List.append_eq_nil_iff] at hopen
    exact ⟨⟨first, hfirst, hopen.imp_left And.left⟩, more, hmore, hopen.imp_left And.right⟩
  · rintro ⟨⟨first, hfirst, hopen⟩, more, hmore, hopen'⟩
    refine ⟨first ++ more, ⟨first, more, hfirst, hmore, rfl⟩, ?_⟩
    rw [List.append_eq_nil_iff]
    rcases hopen with hnone | hopen
    · exact hopen'.imp_left fun hnone' => ⟨hnone, hnone'⟩
    · exact Or.inr hopen

section Confined

variable {reply : String → Dialect → CompilerOptions → Reply}

/-- The results of a run are those that its snippets have in the work directory of a run over more
files. -/
theorem Regular.results_elsewhere {files' : List Path} {o' : Occasion} (h : r.Regular files o)
    (h' : r.Regular files' o') (hsub : files ⊆ files') (hconfined : r.compiler.Confined reply)
    (hcurrent : o.disk.current = o'.disk.current) {results : List SnippetResult}
    (hok : (r.on files o).results = .ok results) :
    ∃ snippets, r.prepare o.disk files = .ok snippets ∧
      (results = [] ↔ snippets = []) ∧
      ∀ directory home,
        directory.Made (o'.disk.absolute r.parent).asDirectory o'.random home →
          results =
            snippets.map (Workshop.resultAt ⟨r.compiler, r.options, directory⟩ reply 1) := by
  obtain ⟨snippets, hprepare, hsource⟩ := h.results_ok hconfined hok
  refine ⟨snippets, hprepare, ?_, fun directory' home' hmade' => ?_⟩
  · rcases hsource with ⟨rfl, rfl⟩ | ⟨directory, home, hmade, rfl⟩
    · exact iff_of_true rfl rfl
    · exact List.map_eq_nil_iff
  · rcases hsource with ⟨rfl, rfl⟩ | ⟨directory, home, hmade, rfl⟩
    · rfl
    · refine List.map_congr_left fun s hs => ?_
      have hfile := prepare_file hprepare s hs
      exact h.resultAt_agree h' hconfined hcurrent hmade hmade' hfile (hsub hfile)

/-- The results of runs over two lists of files and over both of them, in trees with the same
documentation. -/
theorem on_append_results (hconfined : r.compiler.Confined reply) (h₁ : r.Regular xs o₁)
    (h₂ : r.Regular ys o₂) (h : r.Regular (xs ++ ys) o)
    (hcurrent₁ : o₁.disk.current = o.disk.current) (hcurrent₂ : o₂.disk.current = o.disk.current)
    (htexts₁ : ∀ file ∈ xs, o₁.disk.readText file = o.disk.readText file)
    (htexts₂ : ∀ file ∈ ys, o₂.disk.readText file = o.disk.readText file)
    {first more results : List SnippetResult} (hfirst : (r.on xs o₁).results = .ok first)
    (hmore : (r.on ys o₂).results = .ok more)
    (hresults : (r.on (xs ++ ys) o).results = .ok results) : results = first ++ more := by
  obtain ⟨a, ha, hnone₁, hwhere₁⟩ := h₁.results_elsewhere h (List.subset_append_left xs ys)
    hconfined hcurrent₁ hfirst
  obtain ⟨b, hb, hnone₂, hwhere₂⟩ := h₂.results_elsewhere h (List.subset_append_right xs ys)
    hconfined hcurrent₂ hmore
  obtain ⟨snippets, hprepare, hsource⟩ := h.results_ok hconfined hresults
  rw [prepare_congr r htexts₁] at ha
  rw [prepare_congr r htexts₂] at hb
  obtain ⟨a', b', ha', hb', rfl⟩ := prepare_append_ok_iff.mp hprepare
  obtain rfl := Except.ok.inj (ha.symm.trans ha')
  obtain rfl := Except.ok.inj (hb.symm.trans hb')
  rcases hsource with ⟨hnil, rfl⟩ | ⟨directory, home, hmade, rfl⟩
  · obtain ⟨ha, hb⟩ := List.append_eq_nil_iff.mp hnil
    rw [hnone₁.mpr ha, hnone₂.mpr hb, List.append_nil]
  · rw [List.map_append, hwhere₁ directory home hmade, hwhere₂ directory home hmade]

/-- Snippets do not influence each other. With a confined compiler, a run over two lists of files
has the results of the runs over each of them, one after the other, and it is rejected if one of
these is. -/
theorem append_independent (hconfined : r.compiler.Confined reply) (h₁ : r.Regular xs o₁)
    (h₂ : r.Regular ys o₂) (h : r.Regular (xs ++ ys) o) (hdisk₁ : o₁.disk = o.disk)
    (hdisk₂ : o₂.disk = o.disk) :
    (∀ first more, (r.on xs o₁).results = .ok first → (r.on ys o₂).results = .ok more →
        (r.on (xs ++ ys) o).results = .ok (first ++ more)) ∧
      ((∃ e, (r.on xs o₁).results = .error e) ∨ (∃ e, (r.on ys o₂).results = .error e) →
        ∃ e, (r.on (xs ++ ys) o).results = .error e) := by
  have hiff := on_append_ok_iff h₁ h₂ h hdisk₁ hdisk₂
  refine ⟨fun first more hfirst hmore => ?_, fun hrejected => ?_⟩
  · obtain ⟨results, hresults⟩ := hiff.mpr ⟨⟨first, hfirst⟩, more, hmore⟩
    have hcurrent₁ := congrArg Disk.current hdisk₁
    have hcurrent₂ := congrArg Disk.current hdisk₂
    have hlist := on_append_results hconfined h₁ h₂ h hcurrent₁ hcurrent₂
      (fun file _ => congrArg (Disk.readText · file) hdisk₁)
      (fun file _ => congrArg (Disk.readText · file) hdisk₂) hfirst hmore hresults
    rw [hresults, hlist]
  · simp only [exists_error_iff] at hrejected ⊢
    rw [hiff]
    rintro ⟨hfirst, hmore⟩
    exact hrejected.elim (fun hnone => hnone hfirst) fun hnone => hnone hmore

end Confined

/-- The same file twice: its snippets are numbered from one each time. -/
theorem sample_append_independent :
    objector.Confined objection ∧ sampleRun.Regular sampleFiles inOrder ∧
      sampleRun.Regular sampleFiles inTurns ∧
      sampleRun.Regular (sampleFiles ++ sampleFiles) inTurns ∧
      (∃ first, (sampleRun.on sampleFiles inOrder).results = .ok first) ∧
      (∃ more, (sampleRun.on sampleFiles inTurns).results = .ok more) ∧
      (∀ first more, (sampleRun.on sampleFiles inOrder).results = .ok first →
        (sampleRun.on sampleFiles inTurns).results = .ok more →
          (sampleRun.on (sampleFiles ++ sampleFiles) inTurns).results = .ok (first ++ more)) := by
  have hcount : sampleRun.snippetCount (sampleFiles ++ sampleFiles) sampleTree = 4 := by
    decide +kernel
  have horder : sampleRun.Regular sampleFiles inOrder :=
    sample_regular rfl (Or.inl rfl) fun hmany =>
      absurd hmany (not_one_lt_crew (Nat.le_refl 1))
  have hturns : sampleRun.Regular sampleFiles inTurns :=
    sample_regular rfl (Or.inr rfl) fun hmany =>
      Pool.roundRobin_exhausts 2 (Nat.zero_lt_of_lt hmany)
  have hboth : sampleRun.Regular (sampleFiles ++ sampleFiles) inTurns :=
    regular_of_sample (by simp [sampleFiles]) hcount (by decide) rfl (Or.inr rfl) fun hmany =>
      Pool.roundRobin_exhausts 4 (Nat.zero_lt_of_lt hmany)
  obtain ⟨snippets, hprepare⟩ := exists_prepare (sample_count ▸ Nat.two_pos)
  refine ⟨objector_confined, horder, hturns, hboth,
    on_ok_iff.mpr ⟨snippets, hprepare, Or.inr ⟨_, rfl⟩⟩,
    on_ok_iff.mpr ⟨snippets, hprepare, Or.inr ⟨_, rfl⟩⟩, ?_⟩
  exact (append_independent objector_confined horder hturns hboth rfl rfl).1

/-- The results of ordinary runs over two lists of files are not those of a run over both of them
where a documentation file is named like a snippet file in the work directory, and where the paths
of the first snippet files are short enough and that of the last one is not. -/
theorem ordinary_append_differs :
    (objector.Confined objection ∧
      (∀ files ∈ [archiveFiles, []], ∀ random ∈ ["Ab12cD", "zZ98yY"],
        sampleRun.Ordinary files (inArchive random) ∧
          sampleRun.FitAlike files (inArchive random)) ∧
      ∃ results, (sampleRun.on archiveFiles (inArchive "zZ98yY")).results = .ok results ∧
        (sampleRun.on [] (inArchive "zZ98yY")).results = .ok [] ∧
        (sampleRun.on (archiveFiles ++ []) (inArchive "Ab12cD")).results ≠ .ok (results ++ [])) ∧
    assenter.Confined assent ∧
      (∀ files ∈ [[⟨"a.md"⟩], [⟨"b.md"⟩], deepFiles], deepRun.Ordinary files deepInOrder ∧
        Unmentioned files deepInOrder) ∧
      ∃ first more, (deepRun.on [⟨"a.md"⟩] deepInOrder).results = .ok first ∧
        (deepRun.on [⟨"b.md"⟩] deepInOrder).results = .ok more ∧
        (deepRun.on ([⟨"a.md"⟩] ++ [⟨"b.md"⟩]) deepInOrder).results ≠ .ok (first ++ more) := by
  refine ⟨⟨objector_confined, fun files hfiles random hrandom => ?_, ?_⟩, assenter_confined,
    fun files hfiles => ordinary_deepInOrder ?_, ?_⟩
  · refine ordinary_inArchive (by simpa using hrandom) ?_
    simp only [List.mem_cons, List.not_mem_nil, or_false] at hfiles
    rcases hfiles with rfl | rfl
    · rw [archive_count]
      decide
    · decide +kernel
  · obtain ⟨snippets, hprepare⟩ := exists_prepare (archive_count ▸ Nat.one_pos)
    obtain ⟨results, hresults⟩ :=
      on_ok_iff (o := inArchive "zZ98yY").mpr ⟨snippets, hprepare, Or.inr ⟨_, rfl⟩⟩
    refine ⟨results, hresults, rfl, ?_⟩
    rw [List.append_nil, List.append_nil, ← hresults]
    exact archive_results_ne
  · simp only [List.mem_cons, List.not_mem_nil, or_false] at hfiles
    rcases hfiles with rfl | rfl | rfl <;> simp [deepFiles]
  · obtain ⟨first, hfirst, hok⟩ :=
      exists_deep_results [⟨"a.md"⟩] 9 (by decide) (by decide) (by decide +kernel)
    obtain ⟨more, hmore, hok'⟩ :=
      exists_deep_results [⟨"b.md"⟩] 1 (by decide) (by decide) (by decide +kernel)
    obtain ⟨results, hresults, hoks⟩ :=
      exists_deep_results deepFiles 10 (by decide) (by decide) deep_dialects
    refine ⟨first, more, hfirst, hmore, fun hsame => ?_⟩
    have hboth : (deepRun.on deepFiles deepInOrder).results = .ok (first ++ more) := hsame
    rw [hresults] at hboth
    have hlist := congrArg (List.map SnippetResult.isOk) (Except.ok.inj hboth)
    rw [List.map_append, hok, hok', hoks] at hlist
    exact absurd hlist (by decide)

end Run

end DocSnippets
