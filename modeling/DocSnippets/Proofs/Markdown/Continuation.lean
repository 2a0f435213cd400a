import DocSnippets.Proofs.Markdown.Regions

/-!
# A document that goes on

What comes behind a text changes nothing about the blocks in it, wherever the text is cut: they are
the first blocks of the whole. A region that is not closed yet gives no block before it is.
-/

namespace DocSnippets.Markdown

open Text

theorem fence_ne_nil : fence ≠ [] := List.cons_ne_nil _ _

/-- A fence without a tag is stepped over. -/
theorem regionsFrom_eq_skip (pos : Nat) {text before opened info below : List Char}
    (hopen : cut? fence text = some (before, opened))
    (hline : cut? ['\n'] opened = some (info, below)) (hd : Dialect.ofOpener? info = none) :
    regionsFrom pos text = regionsFrom (pos + before.length + fence.length) opened := by
  rw [regionsFrom_eq]
  simp only [hopen, hline, hd]

/-- The induction follows the scan of the shorter text: each of its cuts is a cut of the longer one,
and where it ends early there is nothing to compare. -/
theorem regionsFrom_prefix (pos : Nat) (text more : List Char) :
    regionsFrom pos text <+: regionsFrom pos (text ++ more) := by
  fun_induction regionsFrom pos text with
  | case1 => exact List.nil_prefix
  | case2 => exact List.nil_prefix
  | case3 pos text before opened hopen start info below hline hd =>
    rename_i ih
    rw [regionsFrom_eq_skip pos (cut?_append_right fence_ne_nil hopen more)
      (cut?_append_right (List.cons_ne_nil _ _) hline more) hd]
    exact ih
  | case4 => exact List.nil_prefix
  | case5 pos text before opened hopen start info below hline d hd body after hclose =>
    rename_i region ih
    rw [regionsFrom_eq_cons pos (cut?_append_right fence_ne_nil hopen more)
      (cut?_append_right (List.cons_ne_nil _ _) hline more) hd
      (cut?_append_right fence_ne_nil hclose more)]
    exact List.cons_prefix_cons.mpr ⟨rfl, ih⟩

theorem start_le_length {text : List Char} {r : Region} (h : r ∈ regions text) :
    r.start ≤ text.length := by
  obtain ⟨before, after, rfl, hstart⟩ := (standsIn_of_mem (List.nil_append text).symm h).written
  rw [List.length_append]
  omega

theorem isIgnored_append {text : List Char} {start : Nat} (h : start ≤ text.length)
    (more : List Char) :
    isIgnored (annotationEnds 0 (text ++ more)) ((text ++ more).take start) =
      isIgnored (annotationEnds 0 text) (text.take start) := by
  rw [Bool.eq_iff_iff, isIgnored_take_iff, isIgnored_take_iff, List.take_append_of_le_length h]

theorem activeRegions_prefix (text more : List Char) :
    activeRegions text <+: activeRegions (text ++ more) := by
  obtain ⟨later, hlater⟩ := regionsFrom_prefix 0 text more
  have hregions : regions (text ++ more) = regions text ++ later := hlater.symm
  have hactive : activeRegions text = (regions text).filter fun r =>
      !isIgnored (annotationEnds 0 (text ++ more)) ((text ++ more).take r.start) := by
    apply List.filter_congr
    intro r hr
    rw [isIgnored_append (start_le_length hr)]
  rw [hactive, activeRegions, hregions, List.filter_append]
  exact List.prefix_append _ _

theorem blocksFrom_append (file : Path) (index : Nat) (first rest : List Region) :
    blocksFrom file index (first ++ rest) =
      blocksFrom file index first ++ blocksFrom file (index + first.length) rest := by
  induction first generalizing index with
  | nil => rfl
  | cons r first ih =>
    rw [List.cons_append, blocksFrom, blocksFrom, ih, List.length_cons, List.cons_append,
      Nat.add_assoc, Nat.add_comm 1]

/-- The blocks of a text are the first blocks of the text with anything behind it. -/
theorem blocks_prefix (file : Path) (text more : String) :
    blocks file text <+: blocks file (text ++ more) := by
  obtain ⟨later, hlater⟩ := activeRegions_prefix text.toList more.toList
  rw [blocks, blocks, String.toList_append, ← hlater, blocksFrom_append]
  exact List.prefix_append _ _

/-- Cut in its closing fence, a block is not there yet; with one backtick more it is. -/
example : blocks ⟨"a.md"⟩ "```ts\nf()\n``" = [] ∧
    blocks ⟨"a.md"⟩ "```ts\nf()\n```" = [⟨⟨"a.md"⟩, 1, "f()\n", .ts⟩] := by
  decide +kernel

end DocSnippets.Markdown
