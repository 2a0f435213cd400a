import DocSnippets.Proofs.Diagnostic.Scrubbing
import DocSnippets.Proofs.Diagnostic.Spelled

/-!
# What scrubbing leaves

Scrubbing replaces a run of path characters up to the last work file in it. A name that starts with
the mark of a work directory survives exactly where no work file follows in the same run: as the name
of the directory itself, or as a part of the path of any other file in it.
-/

namespace DocSnippets.Scrubber

open Text
open WorkFile (mark)

/-- No work file lies within the path characters that a text starts with. -/
def Unfiled (text : List Char) : Prop :=
  ∀ run f rest, text = run ++ (f ++ rest) → (∀ c ∈ run, isPathChar c = true) → ¬ IsWorkFile f

theorem afterWorkFile?_eq_none_iff {text : List Char} :
    afterWorkFile? text = none ↔ ∀ f rest, text = f ++ rest → ¬ IsWorkFile f := by
  constructor
  · rintro h f rest rfl hfile
    exact afterWorkFile?_append hfile rest h
  · intro h
    by_contra hsome
    obtain ⟨rest, hrest⟩ := Option.ne_none_iff_exists'.mp hsome
    obtain ⟨f, hfile, htext⟩ := exists_workFile hrest
    exact h f rest htext hfile

namespace Unfiled

variable {c : Char} {text : List Char}

theorem of_not_isPathChar (hc : ¬ isPathChar c = true) : Unfiled (c :: text) := by
  intro run f rest htext hrun hfile
  cases run with
  | nil =>
    obtain ⟨d, more, rfl⟩ := List.exists_cons_of_ne_nil hfile.ne_nil
    obtain ⟨rfl, -⟩ := List.cons.inj htext
    exact hc (hfile.isPathChar c List.mem_cons_self)
  | cons d run =>
    obtain ⟨rfl, -⟩ := List.cons.inj htext
    exact hc (hrun c List.mem_cons_self)

theorem cons_iff (hc : isPathChar c = true) :
    Unfiled (c :: text) ↔ Unfiled text ∧ ∀ f rest, c :: text = f ++ rest → ¬ IsWorkFile f := by
  constructor
  · intro h
    constructor
    · intro run f rest htext hrun
      refine h (c :: run) f rest (congrArg (c :: ·) htext) fun d hd => ?_
      rcases List.mem_cons.mp hd with rfl | hd
      · exact hc
      · exact hrun d hd
    · intro f rest htext
      exact h [] f rest htext (by simp)
  · rintro ⟨htail, hhead⟩ run f rest htext hrun
    cases run with
    | nil => exact hhead f rest htext
    | cons d run =>
      refine htail run f rest (List.cons.inj htext).2 fun e he => ?_
      exact hrun e (List.mem_cons_of_mem d he)

/-- What follows path characters of an unfiled text is unfiled. -/
theorem of_append {run : List Char} (h : Unfiled (run ++ text))
    (hrun : ∀ c ∈ run, isPathChar c = true) : Unfiled text := by
  intro run' f rest htext hrun'
  refine h (run ++ run') f rest (by rw [htext, List.append_assoc]) fun c hc => ?_
  exact (List.mem_append.mp hc).elim (hrun c) (hrun' c)

end Unfiled

theorem afterLast?_eq_none_iff {text : List Char} : afterLast? text = none ↔ Unfiled text := by
  induction text with
  | nil =>
    refine iff_of_true rfl fun run f rest htext hrun hfile => hfile.ne_nil ?_
    exact (List.append_eq_nil_iff.mp (List.append_eq_nil_iff.mp htext.symm).2).1
  | cons c text ih =>
    rw [afterLast?]
    by_cases hc : isPathChar c = true
    · rw [if_pos hc, Unfiled.cons_iff hc, ← ih, ← afterWorkFile?_eq_none_iff]
      cases afterLast? text <;> simp
    · rw [if_neg hc]
      exact iff_of_true rfl (Unfiled.of_not_isPathChar hc)

/-- A replaced path ends before every mark that no work file follows. -/
theorem suffix_of_afterLast? {text after t : List Char} (h : afterLast? text = some after)
    (ht : t <:+ text) (hmark : mark <+: t) (hfree : Unfiled t) : t <:+ after := by
  induction text with
  | nil => cases h
  | cons c text ih =>
    have hfiled : ¬ Unfiled (c :: text) := by
      rw [← afterLast?_eq_none_iff, h]
      simp
    rcases List.suffix_cons_iff.mp ht with rfl | ht'
    · exact absurd hfree hfiled
    rw [afterLast?] at h
    split at h
    · split at h
      · next rest hrest =>
        obtain rfl := Option.some.inj h
        exact ih hrest ht'
      · obtain ⟨f, hfile, htext⟩ := exists_workFile h
        rw [htext] at ht
        obtain ⟨x, hx⟩ := ht
        -- Were a part `y` of the work file left in `t`, it would be a work file where none may be.
        rcases List.append_eq_append_iff.mp hx with ⟨y, rfl, rfl⟩ | ⟨y, -, rfl⟩
        · by_cases hy : y = []
          · rw [hy]
            exact List.suffix_refl after
          · exact absurd (hfile.of_mark hy hmark) (hfree [] y after rfl (by simp))
        · exact List.suffix_append y t
    · cases h

theorem suffix_of_afterLast?_eq_some {text after : List Char} (h : afterLast? text = some after) :
    after <:+ text := by
  induction text with
  | nil => cases h
  | cons c text ih =>
    rw [afterLast?] at h
    split at h
    · split at h
      · next rest hrest =>
        obtain rfl := Option.some.inj h
        exact (ih hrest).trans (List.suffix_cons c text)
      · obtain ⟨f, -, htext⟩ := exists_workFile h
        exact ⟨f, htext.symm⟩
    · cases h

/-- A part of a spelled path that begins with the mark of a work directory. -/
structure MarkedPath (needle : List Char) : Prop where
  marked : mark <+: needle
  path : ∀ c ∈ needle, isPathChar c = true

theorem IsWorkFile.markedPath {f : List Char} (h : IsWorkFile f) : MarkedPath f :=
  ⟨h.mark_prefix, h.isPathChar⟩

/-- A needle that occurs in a text behind `before` occurs in that text itself. -/
def Silent (needle before : List Char) : Prop :=
  ∀ text, needle <:+: before ++ text → needle <:+: text

/-- An occurrence that no work file follows in the same run of path characters. -/
def Exposed (needle text : List Char) : Prop :=
  ∃ t, t <:+ text ∧ needle <+: t ∧ Unfiled t

theorem not_exposed_of_isWorkFile {f : List Char} (h : IsWorkFile f) (text : List Char) :
    ¬ Exposed f text := by
  rintro ⟨t, -, ⟨rest, rfl⟩, hfree⟩
  exact hfree [] f rest rfl (by simp) h

theorem Exposed.of_suffix {needle text after : List Char} (h : Exposed needle after)
    (hsuffix : after <:+ text) : Exposed needle text := by
  obtain ⟨t, ht, hneedle, hfree⟩ := h
  exact ⟨t, ht.trans hsuffix, hneedle, hfree⟩

namespace MarkedPath

variable {needle : List Char}

theorem ne_nil (h : MarkedPath needle) : needle ≠ [] := by
  rintro rfl
  exact WorkFile.mark_ne_nil (List.prefix_nil.mp h.marked)

theorem notMem (h : MarkedPath needle) {c : Char} (hc : ¬ isPathChar c = true) : c ∉ needle :=
  fun hmem => hc (h.path c hmem)

theorem silent_noStart (h : MarkedPath needle) {before : List Char} (hbefore : 'c' ∉ before) :
    Silent needle before := by
  intro text hoccurs
  induction before with
  | nil => exact hoccurs
  | cons d before ih =>
    rcases List.infix_cons_iff.mp hoccurs with hstarts | htail
    · obtain ⟨rest, hrest⟩ := h.marked.trans hstarts
      have hd : 'c' = d := (List.cons.inj hrest).1
      exact absurd (hd ▸ List.mem_cons_self) hbefore
    · exact ih (fun hmem => hbefore (List.mem_cons_of_mem d hmem)) htail

/-- A word without the needle and the character behind it, which no path holds. -/
theorem silent_word (h : MarkedPath needle) {word : List Char} {c : Char}
    (hword : ¬ needle <:+: word) (hc : ¬ isPathChar c = true) : Silent needle (word ++ [c]) := by
  intro text hoccurs
  by_contra htext
  refine not_infix_append_cons h.ne_nil (h.notMem hc) hword htext ?_
  rwa [List.append_assoc] at hoccurs

end MarkedPath

theorem Silent.append {needle a b : List Char} (ha : Silent needle a) (hb : Silent needle b) :
    Silent needle (a ++ b) := by
  intro text hoccurs
  rw [List.append_assoc] at hoccurs
  exact hb text (ha _ hoccurs)

theorem MarkedPath.silent_label {needle : List Char} (h : MarkedPath needle) {block : Block}
    (hfile : ¬ needle <:+: block.file.text.toList) : Silent needle block.label.toList := by
  have hwords : ¬ needle <:+: Block.labelWords := by
    intro hoccurs
    have hshort : ¬ mark <:+: Block.labelWords := by decide
    exact hshort (h.marked.isInfix.trans hoccurs)
  have hnumber : 'c' ∉ Nat.toDigits 10 block.index := by
    intro hmem
    exact WorkFile.ne_of_mem_digits hmem (by decide) rfl
  have hsilent := (h.silent_word hfile (c := ' ') (by decide)).append
    ((h.silent_word hwords (c := ' ') (by decide)).append (h.silent_noStart hnumber))
  have hsplit : block.label.toList = (block.file.text.toList ++ [' ']) ++
      ((Block.labelWords ++ [' ']) ++ Nat.toDigits 10 block.index) := by
    rw [Block.toList_label, Block.labelRest]
    simp only [List.append_assoc, List.singleton_append]
  rw [hsplit]
  exact hsilent

/-- Replacing stops at the end of a run of path characters and goes on behind the next character. -/
theorem replaceSpelled_eq_cons (label : List Char) {c : Char} (hc : ¬ isPathChar c = true)
    (text : List Char) : replaceSpelled label (c :: text) = c :: replaceSpelled label text := by
  have hnone : afterLast? (c :: text) = none :=
    afterLast?_eq_none_iff.mpr (Unfiled.of_not_isPathChar hc)
  rw [replaceSpelled]
  split
  · next after hsome =>
    rw [hnone] at hsome
    cases hsome
  · rw [if_neg hc]

theorem dropWhile_isPathChar (rest : List Char) :
    rest.dropWhile isPathChar = [] ∨
      ∃ c text, ¬ isPathChar c = true ∧ rest.dropWhile isPathChar = c :: text := by
  cases hdrop : rest.dropWhile isPathChar with
  | nil => exact Or.inl rfl
  | cons c text =>
    have hne : rest.dropWhile isPathChar ≠ [] := by simp [hdrop]
    have hhead := List.head_dropWhile_not isPathChar hne
    exact Or.inr ⟨c, text, by simpa [hdrop] using hhead, rfl⟩

namespace MarkedPath

variable {needle label : List Char}

/-- An occurrence lies in one run of path characters. -/
theorem infix_run (h : MarkedPath needle) {run rest : List Char}
    (hoccurs : needle <:+: run ++ replaceSpelled label (rest.dropWhile isPathChar)) :
    needle <:+: run ∨ needle <:+: replaceSpelled label (rest.dropWhile isPathChar) := by
  rcases dropWhile_isPathChar rest with hnil | ⟨c, text, hc, hcons⟩
  · rw [hnil, replaceSpelled, List.append_nil] at hoccurs
    exact Or.inl hoccurs
  · rw [hcons, replaceSpelled_eq_cons label hc] at hoccurs ⊢
    by_contra hneither
    obtain ⟨hrun, hrest⟩ := not_or.mp hneither
    refine not_infix_append_cons h.ne_nil (h.notMem hc) hrun (fun htail => hrest ?_) hoccurs
    exact htail.trans (List.suffix_cons c _).isInfix

theorem prefix_run (h : MarkedPath needle) {run rest : List Char}
    (hstarts : needle <+: run ++ rest.dropWhile isPathChar) : needle <+: run := by
  rcases dropWhile_isPathChar rest with hnil | ⟨c, text, hc, hcons⟩
  · rwa [hnil, List.append_nil] at hstarts
  · rw [hcons] at hstarts
    exact prefix_of_append_cons (h.notMem hc) hstarts

theorem exposed_of_infix (h : MarkedPath needle) (hlabel : Silent needle label) {text : List Char}
    (hoccurs : needle <:+: replaceSpelled label text) : Exposed needle text := by
  fun_induction replaceSpelled label text with
  | case1 => exact absurd (List.infix_nil.mp hoccurs) h.ne_nil
  | case2 c rest after hafter ih =>
    exact (ih (hlabel _ hoccurs)).of_suffix (suffix_of_afterLast?_eq_some hafter)
  | case3 c rest hnone hc ih =>
    have hrun : ∀ d ∈ c :: rest.takeWhile isPathChar, isPathChar d = true := by
      intro d hd
      rcases List.mem_cons.mp hd with rfl | hd
      · exact hc
      · exact List.all_eq_true.mp List.all_takeWhile d hd
    have hsplit : c :: rest = (c :: rest.takeWhile isPathChar) ++ rest.dropWhile isPathChar := by
      rw [List.cons_append, List.takeWhile_append_dropWhile]
    rw [← List.cons_append] at hoccurs
    -- No work file stands in the run at hand, so none follows an occurrence in it.
    rcases h.infix_run hoccurs with ⟨x, y, hxy⟩ | htail
    · have htext : c :: rest = x ++ (needle ++ (y ++ rest.dropWhile isPathChar)) := by
        rw [hsplit, ← hxy]
        simp only [List.append_assoc]
      have hfree : Unfiled (c :: rest) := afterLast?_eq_none_iff.mp hnone
      rw [htext] at hfree ⊢
      refine ⟨_, List.suffix_append x _, List.prefix_append needle _, hfree.of_append ?_⟩
      intro d hd
      refine hrun d ?_
      rw [← hxy]
      simp [hd]
    · rw [hsplit]
      exact (ih htail).of_suffix (List.suffix_append _ _)
  | case4 c rest hnone hc ih =>
    rcases List.infix_cons_iff.mp hoccurs with hstarts | htail
    · obtain ⟨d, more, rfl⟩ := List.exists_cons_of_ne_nil h.ne_nil
      obtain ⟨rfl, -⟩ := List.cons_prefix_cons.mp hstarts
      exact absurd List.mem_cons_self (h.notMem hc)
    · exact (ih htail).of_suffix (List.suffix_cons c rest)

theorem infix_of_exposed (h : MarkedPath needle) {text : List Char}
    (hexposed : Exposed needle text) : needle <:+: replaceSpelled label text := by
  obtain ⟨t, ht, hneedle, hfree⟩ := hexposed
  fun_induction replaceSpelled label text with
  | case1 =>
    rw [List.suffix_nil.mp ht] at hneedle
    exact hneedle.isInfix
  | case2 c rest after hafter ih =>
    have hbehind : t <:+ after := suffix_of_afterLast? hafter ht (h.marked.trans hneedle) hfree
    exact (ih hbehind).trans (List.suffix_append label _).isInfix
  | case3 c rest hnone hc ih =>
    have hsplit : c :: rest = (c :: rest.takeWhile isPathChar) ++ rest.dropWhile isPathChar := by
      rw [List.cons_append, List.takeWhile_append_dropWhile]
    rw [hsplit] at ht
    rw [← List.cons_append]
    obtain ⟨x, hx⟩ := ht
    rcases List.append_eq_append_iff.mp hx with ⟨y, hrun, rfl⟩ | ⟨y, -, hdrop⟩
    · have hstart : needle <:+: c :: rest.takeWhile isPathChar := by
        rw [hrun]
        exact (h.prefix_run hneedle).isInfix.trans (List.suffix_append x y).isInfix
      exact hstart.trans (List.prefix_append _ _).isInfix
    · exact (ih ⟨y, hdrop.symm⟩).trans (List.suffix_append _ _).isInfix
  | case4 c rest hnone hc ih =>
    rcases List.suffix_cons_iff.mp ht with rfl | ht
    · obtain ⟨d, more, rfl⟩ := List.exists_cons_of_ne_nil h.ne_nil
      obtain ⟨rfl, -⟩ := List.cons_prefix_cons.mp hneedle
      exact absurd List.mem_cons_self (h.notMem hc)
    · exact (ih ht).trans (List.suffix_cons c _).isInfix

/-- A name with the mark of a work directory is left exactly where it is exposed. -/
theorem infix_replaceSpelled_iff (h : MarkedPath needle) (hlabel : Silent needle label)
    (text : List Char) : needle <:+: replaceSpelled label text ↔ Exposed needle text :=
  ⟨h.exposed_of_infix hlabel, h.infix_of_exposed⟩

end MarkedPath

end DocSnippets.Scrubber
