import DocSnippets.Proofs.Markdown.Continuation

/-!
# What an annotation excludes

An annotation that is put in front of an opening fence excludes the block of this fence and no other
one. It may stand on a line with earlier backticks, and change the text behind them: it does not
make them open a region, since it starts with a character that belongs to no tag.
-/

namespace DocSnippets

open Text

/-- A tag that ends before a character that is no part of it does not depend on what comes there. -/
theorem Dialect.Tagged.of_append_cons {d : Dialect} {gap more : List Char} {c : Char}
    (h : d.Tagged (gap ++ c :: more)) (hblank : isBlank c = false)
    (hletter : c.toLower ∉ d.spelling) (rest : List Char) : d.Tagged (gap ++ rest) := by
  generalize htext : gap ++ c :: more = text at h
  obtain ⟨hspelling, hextra⟩ := h
  next tag extra =>
  rcases List.append_eq_append_iff.mp htext with ⟨mid, rfl, hmid⟩ | ⟨mid, rfl, hmid⟩
  · cases mid with
    | nil =>
      -- The tag ends right before the character, which should be blank then.
      obtain rfl : c :: more = extra := hmid
      rw [List.head?_cons, Option.all_some, hblank] at hextra
      cases hextra
    | cons e mid =>
      obtain ⟨rfl, -⟩ := List.cons.inj hmid
      refine absurd ?_ hletter
      rw [← hspelling]
      exact List.mem_map_of_mem (List.mem_append_right gap List.mem_cons_self)
  · cases mid with
    | nil =>
      obtain rfl : extra = c :: more := hmid
      rw [List.head?_cons, Option.all_some, hblank] at hextra
      cases hextra
    | cons e mid =>
      rw [hmid, List.cons_append, List.head?_cons] at hextra
      rw [List.append_assoc]
      exact .intro hspelling hextra

/-- The block with the index before its own. -/
def Block.lower (b : Block) : Block := { b with index := b.index - 1 }

namespace Markdown

namespace Region

/-- The region as it stands behind a text of a given length. -/
def shift (n : Nat) (r : Region) : Region := { r with start := r.start + n }

end Region

theorem regionsFrom_shift (pos n : Nat) (text : List Char) :
    regionsFrom (pos + n) text = (regionsFrom pos text).map (Region.shift n) := by
  fun_induction regionsFrom pos text with
  | case1 pos text hopen => rw [regionsFrom_eq, hopen, List.map_nil]
  | case2 pos text before opened hopen hline =>
    rw [regionsFrom_eq]
    simp only [hopen, hline, List.map_nil]
  | case3 pos text before opened hopen start info below hline hd =>
    rename_i ih
    rw [regionsFrom_eq_skip (pos + n) hopen hline hd, ← ih]
    congr 1
    omega
  | case4 pos text before opened hopen info below hline d hd hclose =>
    rw [regionsFrom_eq]
    simp only [hopen, hline, hd, hclose, List.map_nil]
  | case5 pos text before opened hopen start info below hline d hd body after hclose =>
    rename_i region ih
    rw [regionsFrom_eq_cons (pos + n) hopen hline hd hclose, List.map_cons, ← ih]
    congr 1
    · simp only [Region.shift, region, start, Nat.add_right_comm]
    · congr 1
      omega

/-- A fence that is stepped over stays so when a text that starts with `<` is put behind it on its
line: a tag would end before this text. -/
theorem untagged_of_insert {gap info below line under : List Char} (hinfo : '\n' ∉ info)
    (hline : cut? ['\n'] (gap ++ (fence ++ (info ++ '\n' :: below))) = some (line, under))
    (hd : Dialect.ofOpener? line = none) (note : List Char) :
    ∃ line' under', cut? ['\n'] (gap ++ '<' :: (note ++ (fence ++ (info ++ '\n' :: below)))) =
      some (line', under') ∧ Dialect.ofOpener? line' = none := by
  by_cases hgap : '\n' ∈ gap
  · obtain ⟨head, more, rfl, hhead⟩ := List.eq_append_cons_of_mem hgap
    rw [List.append_assoc, List.cons_append, cut?_singleton hhead] at hline
    obtain ⟨rfl, -⟩ := Prod.mk.inj (Option.some.inj hline)
    rw [List.append_assoc, List.cons_append]
    exact ⟨head, _, cut?_singleton hhead _, hd⟩
  · -- The line is that of the fence behind the gap.
    have hwhole : line = gap ++ (fence ++ info) := by
      rcases first_newline hinfo hline with ⟨more, rfl, -⟩ | ⟨hwhole, -⟩
      · simp at hgap
      · exact hwhole
    have hnewline : '\n' ∈ note ++ (fence ++ (info ++ '\n' :: below)) := by simp
    obtain ⟨head, more, hsplit, hhead⟩ := List.eq_append_cons_of_mem hnewline
    have hall : '\n' ∉ gap ++ '<' :: head := by
      intro hmem
      rcases List.mem_append.mp hmem with hmem | hmem
      · exact hgap hmem
      · rcases List.mem_cons.mp hmem with hmem | hmem
        · exact absurd hmem (by decide)
        · exact hhead hmem
    refine ⟨gap ++ '<' :: head, more, ?_, ?_⟩
    · rw [hsplit, ← List.cons_append, ← List.append_assoc]
      exact cut?_singleton hall more
    · cases htag : Dialect.ofOpener? (gap ++ '<' :: head) with
      | none => rfl
      | some d =>
        have hletter : '<'.toLower ∉ d.spelling := by cases d <;> decide
        have hold := (Dialect.ofOpener?_eq_some_iff.mp htag).of_append_cons (by decide) hletter
          (fence ++ info)
        rw [hwhole, Dialect.ofOpener?_eq_some_iff.mpr hold] at hd
        cases hd

theorem unfenced_insert {gap note : List Char} (hgap : ¬ fence <:+: gap) (hnote : '`' ∉ note) :
    Unfenced (gap ++ '<' :: note) := by
  have hplain : ¬ fence <:+: note := fun hi => hnote (hi.subset (by decide))
  constructor
  · exact not_infix_append_cons fence_ne_nil (by decide) hgap hplain
  · intro hlast
    have hmem : '`' ∈ '<' :: note := by
      rw [List.getLast?_append, List.getLast?_eq_some_getLast (List.cons_ne_nil _ _)] at hlast
      exact Option.some.inj hlast ▸ List.getLast_mem (List.cons_ne_nil _ _)
    rcases List.mem_cons.mp hmem with hmem | hmem
    · exact absurd hmem (by decide)
    · exact hnote hmem

/-- What is found first does not depend on what comes behind it. -/
theorem regionsFrom_first (pos : Nat) {text before opened info below body after : List Char}
    {d : Dialect} (hopen : cut? fence text = some (before, opened))
    (hline : cut? ['\n'] opened = some (info, below)) (hd : Dialect.ofOpener? info = some d)
    (hclose : cut? fence below = some (body, after)) (rest : List Char) :
    regionsFrom pos (before ++ (fence ++ (info ++ '\n' :: (body ++ (fence ++ rest))))) =
      { start := pos + before.length, info, dialect := d, body } ::
        regionsFrom (pos + before.length + fence.length + info.length + 1 + body.length +
          fence.length) rest :=
  regionsFrom_eq_cons pos (cut?_append (not_infix_dropLast_of_cut? fence_ne_nil hopen) _)
    (cut?_append (not_infix_dropLast_of_cut? (List.cons_ne_nil _ _) hline) _) hd
    (cut?_append (not_infix_dropLast_of_cut? fence_ne_nil hclose) _)

/-- A text without backticks, put in front of the opening fence of a region, moves this region and
the later ones and changes nothing else. The induction follows the scan to the region. -/
theorem regionsFrom_insert {pos : Nat} {text gap info below note : List Char} {r : Region}
    (htext : text = gap ++ (fence ++ (info ++ '\n' :: below))) (hinfo : '\n' ∉ info)
    (hr : r ∈ regionsFrom pos text) (hstart : r.start = pos + gap.length) (hnote : '`' ∉ note) :
    ∃ front back, regionsFrom pos text = front ++ r :: back ∧
      regionsFrom pos (gap ++ '<' :: (note ++ (fence ++ (info ++ '\n' :: below)))) =
        front ++ (r :: back).map (Region.shift (note.length + 1)) := by
  fun_induction regionsFrom pos text generalizing gap with
  | case1 => cases hr
  | case2 => cases hr
  | case3 pos text before opened hopen start line under hline hd =>
    rename_i ih
    have hsplit := eq_append_of_cut? hopen
    have hle := start_le_of_mem hr
    obtain ⟨gap', rfl, rfl⟩ := exists_append_of_length_le (hsplit.symm.trans htext) (by
      rw [List.length_append]
      omega)
    obtain ⟨line', under', hline', hd'⟩ := untagged_of_insert hinfo hline hd note
    have hopen' := cut?_append (not_infix_dropLast_of_cut? fence_ne_nil hopen)
      (gap' ++ '<' :: (note ++ (fence ++ (info ++ '\n' :: below))))
    rw [← List.append_assoc] at hopen'
    rw [List.append_assoc (before ++ fence), regionsFrom_eq_skip pos hopen' hline' hd']
    refine ih rfl hr ?_
    simp only [List.length_append] at hstart
    omega
  | case4 => cases hr
  | case5 pos text before opened hopen start line under hline d hd body after hclose =>
    rename_i region ih
    have hsplit := eq_append_of_cut? hopen
    rcases List.mem_cons.mp hr with rfl | hr
    · -- The region that is found here.
      have hlength : before.length = gap.length := by
        simp only [region, start] at hstart
        omega
      rw [List.append_assoc] at hsplit
      obtain ⟨rfl, htail⟩ := List.append_inj (hsplit.symm.trans htext) hlength
      obtain rfl := List.append_cancel_left htail
      have hopen' := (unfenced_insert (not_infix_of_cut? fence_ne_nil hopen) hnote).cut
        (info ++ '\n' :: below)
      rw [List.append_assoc, List.cons_append] at hopen'
      refine ⟨[], _, rfl, ?_⟩
      rw [regionsFrom_eq_cons pos hopen' hline hd hclose, List.nil_append, List.map_cons,
        ← regionsFrom_shift]
      simp only [List.length_append, List.length_cons, Region.shift, region, start]
      congr 2
      all_goals omega
    · -- A later one: the first region is the same in both texts.
      have hle := start_le_of_mem hr
      rw [eq_append_of_cut? hline, eq_append_of_cut? hclose] at hsplit
      have hdone : text = (before ++ (fence ++ (line ++ '\n' :: (body ++ fence)))) ++ after := by
        rw [hsplit]
        simp only [List.append_assoc, List.cons_append, List.nil_append]
      obtain ⟨gap', rfl, rfl⟩ := exists_append_of_length_le (hdone.symm.trans htext) (by
        simp only [List.length_append, List.length_cons]
        omega)
      obtain ⟨front, back, hback, hnew⟩ := ih rfl hr (by
        simp only [List.length_append, List.length_cons] at hstart
        omega)
      refine ⟨region :: front, back, by rw [hback, List.cons_append], ?_⟩
      have hfirst := regionsFrom_first pos hopen hline hd hclose
        (gap' ++ '<' :: (note ++ (fence ++ (info ++ '\n' :: below))))
      rw [hnew] at hfirst
      simp only [List.append_assoc, List.cons_append]
      exact hfirst

theorem AllBlank.singleton {c : Char} (h : isBlank c = true) : AllBlank [c] := by
  intro d hd
  rw [List.mem_singleton.mp hd]
  exact h

theorem Region.start_lt_stop (r : Region) : r.start < r.stop := by
  have hfence : fence.length = 3 := rfl
  simp only [Region.stop, Region.bodyStart]
  omega

/-- The regions on either side of a region of a document. -/
theorem apart_of_regions {document : List Char} {front back : List Region} {r : Region}
    (h : regions document = front ++ r :: back) :
    (∀ a ∈ front, a.stop ≤ r.start) ∧ ∀ a ∈ back, r.stop ≤ a.start := by
  have hordered : (front ++ r :: back).Pairwise fun a b => a.stop ≤ b.start :=
    h ▸ ordered_regionsFrom 0 document
  obtain ⟨-, hrest, hfront⟩ := List.pairwise_append.mp hordered
  exact ⟨fun a ha => hfront a ha r List.mem_cons_self, (List.pairwise_cons.mp hrest).1⟩

theorem IsAnnotation.no_backtick_append {note blanks : List Char} (hnote : IsAnnotation note)
    (hblanks : AllBlank blanks) : '`' ∉ note ++ blanks := by
  intro hmem
  rcases List.mem_append.mp hmem with hmem | hmem
  · exact hnote.no_backtick hmem
  · exact absurd (hblanks _ hmem) (by decide)

/-- The document with an annotation, and blanks behind it, in front of a region. -/
def annotated (document : List Char) (r : Region) (note blanks : List Char) : List Char :=
  document.take r.start ++ (note ++ blanks ++ document.drop r.start)

/-- All regions stay, in order; those from the annotation on are moved. -/
theorem regions_annotated {document note blanks : List Char} {r : Region}
    (hr : r ∈ regions document) (hnote : IsAnnotation note) (hblanks : AllBlank blanks) :
    ∃ front back, regions document = front ++ r :: back ∧
      regions (annotated document r note blanks) =
        front ++ (r :: back).map (Region.shift (note ++ blanks).length) := by
  have hstands := standsIn_of_mem (List.nil_append document).symm hr
  obtain ⟨gap, after, rfl, hstart⟩ := hstands.written
  obtain ⟨rest, rfl, -⟩ := hnote.exists_head
  have hplain : '`' ∉ rest ++ blanks := fun hmem =>
    hnote.no_backtick_append hblanks (List.mem_cons_of_mem _ hmem)
  have htail : r.text ++ after = fence ++ (r.info ++ '\n' :: (r.body ++ (fence ++ after))) := by
    simp only [Region.text, List.append_assoc, List.cons_append]
  rw [htail] at hr ⊢
  obtain ⟨front, back, hold, hnew⟩ :=
    regionsFrom_insert rfl hstands.info_line hr (by omega) hplain
  refine ⟨front, back, hold, ?_⟩
  rw [annotated, ← hstart, List.take_left, List.drop_left]
  simpa [regions] using hnew

/-- A region is active when it is not ignored. -/
def Region.activeIn (document : List Char) (r : Region) : Bool :=
  !isIgnored (annotationEnds 0 document) (document.take r.start)

theorem activeRegions_eq (document : List Char) :
    activeRegions document = (regions document).filter (Region.activeIn document) := rfl

theorem activeIn_iff {document : List Char} {r : Region} :
    r.activeIn document = true ↔ ¬ EndsWithAnnotation (document.take r.start) := by
  rw [Region.activeIn, Bool.not_eq_true', ← Bool.not_eq_true, isIgnored_take_iff]

/-- An annotation before a fence has no part in whether a later fence is ignored. -/
theorem endsWithAnnotation_behind_fence (done tail : List Char) {start : Nat}
    (hstart : done.length + fence.length ≤ start) :
    EndsWithAnnotation ((done ++ (fence ++ tail)).take start) ↔
      EndsWithAnnotation (tail.take (start - (done.length + fence.length))) := by
  have hlast : (done ++ fence).getLast?.all (· = '`') = true := by
    rw [List.getLast?_append]
    rfl
  obtain ⟨n, rfl⟩ := Nat.exists_eq_add_of_le hstart
  rw [← List.append_assoc, ← List.length_append, List.take_length_add_append,
    Nat.add_sub_cancel_left, endsWithAnnotation_append hlast]

section Annotated

variable {document note blanks : List Char} {r a : Region}

theorem activeIn_annotated_before (hr : r ∈ regions document) (h : a.start ≤ r.start) :
    a.activeIn (annotated document r note blanks) = a.activeIn document := by
  have hle : a.start ≤ (document.take r.start).length := by
    rw [List.length_take_of_le (start_le_length hr)]
    exact h
  rw [Bool.eq_iff_iff, activeIn_iff, activeIn_iff, annotated, List.take_append_of_le_length hle,
    List.take_take, Nat.min_eq_left h]

theorem not_activeIn_annotated (hr : r ∈ regions document) (hnote : IsAnnotation note)
    (hblanks : AllBlank blanks) :
    (r.shift (note ++ blanks).length).activeIn (annotated document r note blanks) = false := by
  have htake : (annotated document r note blanks).take (r.shift (note ++ blanks).length).start =
      document.take r.start ++ (note ++ blanks) := by
    have hlength : (r.shift (note ++ blanks).length).start =
        (document.take r.start ++ (note ++ blanks)).length := by
      have hsum : (document.take r.start ++ (note ++ blanks)).length =
          (document.take r.start).length + (note ++ blanks).length := List.length_append
      rw [hsum, List.length_take_of_le (start_le_length hr)]
      rfl
    rw [hlength, annotated, ← List.append_assoc _ (note ++ blanks), List.take_left]
  rw [← Bool.not_eq_true, activeIn_iff, htake]
  intro hnone
  exact hnone ⟨document.take r.start, note, blanks, rfl, hnote, hblanks⟩

theorem activeIn_annotated_behind (hr : r ∈ regions document) (h : r.stop ≤ a.start) :
    (a.shift (note ++ blanks).length).activeIn (annotated document r note blanks) =
      a.activeIn document := by
  obtain ⟨gap, after, rfl, hstart⟩ := (standsIn_of_mem (List.nil_append _).symm hr).written
  have hle : gap.length + fence.length ≤ a.start := by
    simp only [Region.stop, Region.bodyStart] at h
    omega
  have hshift : (a.shift (note ++ blanks).length).start = a.start + (note ++ blanks).length := rfl
  have hgap : (gap ++ (note ++ blanks)).length + fence.length ≤
      a.start + (note ++ blanks).length := by
    rw [List.length_append]
    omega
  have hrest : a.start + (note ++ blanks).length -
      ((gap ++ (note ++ blanks)).length + fence.length) =
        a.start - (gap.length + fence.length) := by
    have hsum : (gap ++ (note ++ blanks)).length = gap.length + (note ++ blanks).length :=
      List.length_append
    rw [hsum]
    omega
  rw [Bool.eq_iff_iff, activeIn_iff, activeIn_iff, hshift, annotated, ← hstart, List.take_left,
    List.drop_left, ← List.append_assoc _ (note ++ blanks), Region.text, List.append_assoc fence,
    endsWithAnnotation_behind_fence _ _ hgap, endsWithAnnotation_behind_fence _ _ hle, hrest]

/-- The regions that are not ignored, without the one behind the annotation. -/
theorem activeRegions_annotated (hr : r ∈ activeRegions document) (hnote : IsAnnotation note)
    (hblanks : AllBlank blanks) :
    ∃ front back, activeRegions document = front ++ r :: back ∧
      (∀ a ∈ front, a.start < r.start) ∧ (∀ a ∈ back, r.start < a.start) ∧
      activeRegions (annotated document r note blanks) =
        front ++ back.map (Region.shift (note ++ blanks).length) := by
  obtain ⟨hmem, hactive⟩ : r ∈ regions document ∧ r.activeIn document = true :=
    List.mem_filter.mp hr
  obtain ⟨front, back, hregions, hnew⟩ := regions_annotated hmem hnote hblanks
  obtain ⟨hfront, hback⟩ := apart_of_regions hregions
  have hbefore : ∀ a ∈ front, a.start < r.start := by
    intro a ha
    have := hfront a ha
    have := a.start_lt_stop
    omega
  refine ⟨front.filter (Region.activeIn document), back.filter (Region.activeIn document),
    ?_, ?_, ?_, ?_⟩
  · rw [activeRegions_eq, hregions, List.filter_append, List.filter_cons_of_pos hactive]
  · intro a ha
    exact hbefore a (List.mem_filter.mp ha).1
  · intro a ha
    have := hback a (List.mem_filter.mp ha).1
    have := r.start_lt_stop
    omega
  · rw [activeRegions_eq, hnew, List.filter_append, List.map_cons, List.filter_cons_of_neg,
      List.filter_map]
    · congr 1
      · apply List.filter_congr
        intro a ha
        exact activeIn_annotated_before hmem (hbefore a ha).le
      · congr 1
        apply List.filter_congr
        intro a ha
        exact activeIn_annotated_behind hmem (hback a ha)
    · rw [not_activeIn_annotated hmem hnote hblanks]
      exact Bool.false_ne_true

end Annotated

theorem blocksFrom_shift (file : Path) (index n : Nat) (regions : List Region) :
    blocksFrom file index (regions.map (Region.shift n)) =
      (blocksFrom file (index + 1) regions).map Block.lower := by
  induction regions generalizing index with
  | nil => rfl
  | cons r regions ih =>
    rw [List.map_cons, blocksFrom, blocksFrom, List.map_cons, ih]
    rfl

theorem length_blocksFrom (file : Path) (index : Nat) (regions : List Region) :
    (blocksFrom file index regions).length = regions.length := by
  rw [blocksFrom_eq_mapIdx, List.length_mapIdx, List.length_map]

/-- An annotation in front of an active region takes its block away and lowers the index of every
later block by one; the earlier blocks, and all else about the later ones, stay as they are. -/
theorem annotation_excludes_one (file : Path) {document note blanks : List Char} {r : Region}
    (hr : r ∈ activeRegions document) (hnote : IsAnnotation note) (hblanks : AllBlank blanks) :
    ∃ earlier later,
      blocks file (String.ofList document) =
        earlier ++ ⟨file, earlier.length + 1, String.ofList r.body, r.dialect⟩ :: later ∧
      blocks file (String.ofList (annotated document r note blanks)) =
        earlier ++ later.map Block.lower ∧
      earlier = blocksFrom file 1 ((activeRegions document).filter fun a => a.start < r.start) := by
  obtain ⟨front, back, hold, hfront, hback, hnew⟩ := activeRegions_annotated hr hnote hblanks
  refine ⟨blocksFrom file 1 front, blocksFrom file (1 + front.length + 1) back, ?_, ?_, ?_⟩
  · rw [blocks, String.toList_ofList, hold, blocksFrom_append, blocksFrom, length_blocksFrom,
      Nat.add_comm front.length]
  · rw [blocks, String.toList_ofList, hnew, blocksFrom_append, blocksFrom_shift]
  · have hfirst : front.filter (fun a => a.start < r.start) = front := by
      apply List.filter_eq_self.mpr
      intro a ha
      exact decide_eq_true (hfront a ha)
    have hrest : (r :: back).filter (fun a => a.start < r.start) = [] := by
      apply List.filter_eq_nil_iff.mpr
      intro a ha
      rw [decide_eq_true_eq]
      rcases List.mem_cons.mp ha with rfl | ha
      · exact Nat.lt_irrefl _
      · exact (hback a ha).not_gt
    rw [hold, List.filter_append, hfirst, hrest, List.append_nil]

/-- A document whose first fence opens nothing and whose second one stands on the same line. -/
def inlineDocument : List Char := "```js ```ts\nf()\n``` or ```tsx\n<b/>\n```".toList

def inlineRegion : Region :=
  { start := 6, info := "ts".toList, dialect := .ts, body := "f()\n".toList }

/-- The annotation ends the line of the first fence, which opens nothing then either. -/
theorem annotation_excludes_one_inline :
    inlineRegion ∈ activeRegions inlineDocument ∧
      IsAnnotation "<!-- snipcheck:ignore -->".toList ∧ AllBlank ['\n'] ∧
      ∃ earlier later,
        blocks ⟨"a.md"⟩ (String.ofList inlineDocument) =
          earlier ++ ⟨⟨"a.md"⟩, earlier.length + 1, String.ofList inlineRegion.body, .ts⟩ :: later ∧
        blocks ⟨"a.md"⟩ (String.ofList (annotated inlineDocument inlineRegion
            "<!-- snipcheck:ignore -->".toList ['\n'])) = earlier ++ later.map Block.lower ∧
        earlier = blocksFrom ⟨"a.md"⟩ 1
          ((activeRegions inlineDocument).filter fun a => a.start < inlineRegion.start) := by
  have hregion : inlineRegion ∈ activeRegions inlineDocument := by decide +kernel
  have hspace : AllBlank [' '] := .singleton rfl
  have hnote : IsAnnotation "<!-- snipcheck:ignore -->".toList := by
    have h := IsAnnotation.intro hspace List.mem_cons_self hspace
    exact h
  have hblanks : AllBlank ['\n'] := .singleton rfl
  exact ⟨hregion, hnote, hblanks, annotation_excludes_one ⟨"a.md"⟩ hregion hnote hblanks⟩

example : blocks ⟨"a.md"⟩ (String.ofList (annotated inlineDocument inlineRegion
    "<!-- snipcheck:ignore -->".toList ['\n'])) = [⟨⟨"a.md"⟩, 1, "<b/>\n", .tsx⟩] := by
  decide +kernel

end Markdown

end DocSnippets
