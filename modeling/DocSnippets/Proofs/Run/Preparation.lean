import DocSnippets.Run

/-!
# Preparing a run

What is prepared depends only on the texts of the documentation files, and every snippet is from one
of these files.
-/

namespace DocSnippets

theorem Markdown.blocksFrom_file (file : Path) (index : Nat) (regions : List Region) :
    ∀ b ∈ blocksFrom file index regions, b.file = file := by
  induction regions generalizing index with
  | nil =>
    intro b hb
    cases hb
  | cons r regions ih =>
    intro b hb
    rcases List.mem_cons.mp hb with rfl | hb
    · rfl
    · exact ih (index + 1) b hb

theorem Prepared.ofBlock_block {package : Package} {wrap : Bool} {b : Block} {s : Prepared}
    (h : ofBlock package wrap b = .ok s) : s.block = b := by
  unfold ofBlock at h
  cases hlocal : Snippet.localize package b.source.toList with
  | error e => rw [hlocal] at h; cases h
  | ok text =>
    rw [hlocal] at h
    obtain rfl := Except.ok.inj h
    rfl

namespace Run

theorem blocks_file {d : Disk} {files : List Path} {found : List Block}
    (h : blocks d files = .ok found) : ∀ b ∈ found, b.file ∈ files := by
  induction files generalizing found with
  | nil =>
    obtain rfl := Except.ok.inj h
    intro b hb
    cases hb
  | cons file files ih =>
    rw [blocks] at h
    cases htext : d.readText file with
    | error fault => rw [htext] at h; cases h
    | ok text =>
      rw [htext] at h
      cases hrest : blocks d files with
      | error e => rw [hrest] at h; cases h
      | ok rest =>
        rw [hrest] at h
        obtain rfl := Except.ok.inj h
        intro b hb
        rcases List.mem_append.mp hb with hb | hb
        · rw [Markdown.blocksFrom_file file 1 _ b hb]
          exact List.mem_cons_self
        · exact List.mem_cons_of_mem file (ih hrest b hb)

theorem blocks_congr {d d' : Disk} {files : List Path}
    (h : ∀ file ∈ files, d.readText file = d'.readText file) :
    blocks d files = blocks d' files := by
  induction files with
  | nil => rfl
  | cons file files ih =>
    rw [blocks, blocks, h file List.mem_cons_self,
      ih fun other hother => h other (List.mem_cons_of_mem file hother)]

theorem prepareAll_blocks {package : Package} {wrap : Bool} {found : List Block}
    {snippets : List Prepared} (h : prepareAll package wrap found = .ok snippets) :
    snippets.map (·.block) = found := by
  induction found generalizing snippets with
  | nil =>
    obtain rfl := Except.ok.inj h
    rfl
  | cons b rest ih =>
    rw [prepareAll] at h
    cases hfirst : Prepared.ofBlock package wrap b with
    | error e => rw [hfirst] at h; cases h
    | ok s =>
      rw [hfirst] at h
      cases hmore : prepareAll package wrap rest with
      | error e =>
        simp only [hmore, bind, Except.bind] at h
        cases h
      | ok more =>
        simp only [hmore, bind, Except.bind] at h
        obtain rfl := Except.ok.inj h
        rw [List.map_cons, ih hmore, Prepared.ofBlock_block hfirst]

theorem prepare_file {r : Run} {d : Disk} {files : List Path} {snippets : List Prepared}
    (h : r.prepare d files = .ok snippets) : ∀ s ∈ snippets, s.block.file ∈ files := by
  unfold prepare at h
  cases hfound : blocks d files with
  | error e => rw [hfound] at h; cases h
  | ok found =>
    simp only [hfound, bind, Except.bind] at h
    split at h
    · obtain rfl := Except.ok.inj h
      intro s hs
      cases hs
    · split at h
      · cases h
      · split at h
        · cases h
        · next prepared hprepared =>
          obtain rfl := Except.ok.inj h
          intro s hs
          refine blocks_file hfound s.block ?_
          rw [← prepareAll_blocks hprepared]
          exact List.mem_map_of_mem hs

theorem prepare_congr (r : Run) {d d' : Disk} {files : List Path}
    (h : ∀ file ∈ files, d.readText file = d'.readText file) :
    r.prepare d files = r.prepare d' files := by
  unfold prepare
  rw [blocks_congr h]

end Run

end DocSnippets
