import DocSnippets.Markdown.Annotation
import DocSnippets.Proofs.Text.Occurrences

/-!
# What is ignored

A fence is ignored exactly when the text before it ends with an annotation and blanks. What stands
after the fence has no part in it. The ends of all annotations are found in one pass, since no
annotation starts inside another one, and they ascend, so that a fence can be looked up by halving.
-/

namespace DocSnippets.Markdown

open DocSnippets.Text

def AllBlank (text : List Char) : Prop := ∀ c ∈ text, isBlank c = true

def ignoreMarks : List (List Char) := ["snipcheck".toList, "ts-docs-verifier".toList]

/-- The texts of an ignore annotation. -/
inductive IsAnnotation : List Char → Prop where
  | intro {lead mark trail} (hlead : AllBlank lead) (hmark : mark ∈ ignoreMarks)
      (htrail : AllBlank trail) :
      IsAnnotation ("<!--".toList ++ (lead ++ (mark ++ (":ignore".toList ++
        (trail ++ "-->".toList)))))

/-- The text ends with an annotation and then only blanks. -/
def EndsWithAnnotation (text : List Char) : Prop :=
  ∃ before note blanks, text = before ++ (note ++ blanks) ∧
    IsAnnotation note ∧ AllBlank blanks

theorem trimStart_append {blanks text : List Char} (h : AllBlank blanks)
    (htext : text.head?.any isBlank = false) : trimStart (blanks ++ text) = text := by
  rw [trimStart, List.dropWhile_append_of_pos h]
  cases text with
  | nil => rfl
  | cons c text => exact List.dropWhile_cons_of_neg (by simpa using htext)

theorem exists_eq_append_trimStart (text : List Char) :
    ∃ blanks, text = blanks ++ trimStart text ∧ AllBlank blanks :=
  ⟨text.takeWhile isBlank, List.takeWhile_append_dropWhile.symm,
    List.all_eq_true.mp List.all_takeWhile⟩

theorem marked_eq_some_iff {inner rest : List Char} :
    ("snipcheck".toList.isPrefixOf? inner).or ("ts-docs-verifier".toList.isPrefixOf? inner) =
      some rest ↔ ∃ mark ∈ ignoreMarks, inner = mark ++ rest := by
  constructor
  · intro h
    rcases Option.or_eq_some_iff.mp h with h | ⟨-, h⟩
    · exact ⟨_, List.mem_cons_self, eq_append_of_isPrefixOf? h⟩
    · exact ⟨_, List.mem_cons_of_mem _ (List.mem_singleton_self _), eq_append_of_isPrefixOf? h⟩
  · rintro ⟨mark, hmark, rfl⟩
    rcases List.mem_cons.mp hmark with rfl | hmark
    · rw [isPrefixOf?_append]
      rfl
    · obtain rfl := List.mem_singleton.mp hmark
      rw [isPrefixOf?_append]
      rfl

theorem afterAnnotation?_eq_some_iff {text rest : List Char} :
    afterAnnotation? text = some rest ↔
      ∃ note, IsAnnotation note ∧ text = note ++ rest := by
  constructor
  · intro h
    obtain ⟨inner, hopen, h⟩ := Option.bind_eq_some_iff.mp h
    obtain ⟨marked, hmark, h⟩ := Option.bind_eq_some_iff.mp h
    obtain ⟨tail, hignore, hclose⟩ := Option.bind_eq_some_iff.mp h
    obtain ⟨mark, hmem, hinner⟩ := marked_eq_some_iff.mp hmark
    obtain ⟨lead, hlead, hleadblank⟩ := exists_eq_append_trimStart inner
    obtain ⟨trail, htrail, htrailblank⟩ := exists_eq_append_trimStart tail
    refine ⟨_, .intro hleadblank hmem htrailblank, ?_⟩
    rw [eq_append_of_isPrefixOf? hopen, hlead, hinner, eq_append_of_isPrefixOf? hignore, htrail,
      eq_append_of_isPrefixOf? hclose]
    simp only [List.append_assoc]
  · rintro ⟨_, ⟨hlead, hmark, htrail⟩, rfl⟩
    simp only [List.append_assoc]
    have hword : ∀ mark ∈ ignoreMarks, ∀ tail : List Char,
        (mark ++ tail).head?.any isBlank = false := by
      intro mark hmem tail
      rcases List.mem_cons.mp hmem with rfl | hmem
      · rfl
      · obtain rfl := List.mem_singleton.mp hmem
        rfl
    simp only [afterAnnotation?, isPrefixOf?_append, Option.bind_eq_bind, Option.bind_some]
    rw [trimStart_append hlead (hword _ hmark _), marked_eq_some_iff.mpr ⟨_, hmark, rfl⟩]
    simp only [isPrefixOf?_append, Option.bind_some]
    rw [trimStart_append htrail rfl, isPrefixOf?_append]

theorem IsAnnotation.ne_nil {note : List Char} (h : IsAnnotation note) :
    note ≠ [] := by
  cases h
  exact List.append_ne_nil_of_left_ne_nil (by decide) _

/-- An annotation ends with `-->`, so trimming takes nothing from it. -/
theorem IsAnnotation.trimEnd_append {note : List Char} (h : IsAnnotation note)
    (before : List Char) {blanks : List Char} (hb : AllBlank blanks) :
    trimEnd (before ++ (note ++ blanks)) = before ++ note := by
  have hall : ∀ c ∈ blanks.reverse, isBlank c = true := fun c hc => hb c (List.mem_reverse.mp hc)
  cases h with
  | @intro lead mark trail =>
    rw [trimEnd, ← List.append_assoc, List.reverse_append, List.dropWhile_append_of_pos hall]
    simp only [List.reverse_append, List.append_assoc]
    rw [show "-->".toList.reverse = '>' :: "--".toList from rfl, List.cons_append,
      List.dropWhile_cons_of_neg (by decide)]
    simp only [List.reverse_cons, List.reverse_append, List.reverse_reverse, List.append_assoc]
    rfl

/-- An annotation starts with a character that it does not hold again. -/
theorem IsAnnotation.exists_head {note : List Char} (h : IsAnnotation note) :
    ∃ rest, note = '<' :: rest ∧ '<' ∉ rest := by
  have hblank : ∀ {text : List Char}, AllBlank text → '<' ∉ text := fun htext hmem =>
    absurd (htext _ hmem) (by decide)
  have hmarks : ∀ mark ∈ ignoreMarks, '<' ∉ mark := by decide
  cases h with
  | @intro lead mark trail hlead hmark htrail =>
    refine ⟨"!--".toList ++ (lead ++ (mark ++ (":ignore".toList ++ (trail ++ "-->".toList)))),
      rfl, ?_⟩
    simp only [List.mem_append, hblank hlead, hblank htrail, hmarks mark hmark, false_or]
    decide

/-- No annotation starts inside another one: the search misses none by going on behind one. -/
theorem IsAnnotation.behind {note note' before after after' : List Char} (h : IsAnnotation note)
    (h' : IsAnnotation note') (hbefore : before ≠ [])
    (htext : note ++ after = before ++ (note' ++ after')) :
    ∃ gap, before = note ++ gap ∧ after = gap ++ (note' ++ after') := by
  rcases List.append_eq_append_iff.mp htext with ⟨gap, rfl, hafter⟩ | ⟨inner, hnote, hinner⟩
  · exact ⟨gap, rfl, hafter⟩
  · obtain ⟨rest, hrest, hplain⟩ := h.exists_head
    obtain ⟨rest', rfl, -⟩ := h'.exists_head
    obtain ⟨b, before, rfl⟩ := List.exists_cons_of_ne_nil hbefore
    cases inner with
    | nil => exact ⟨[], by simpa using hnote.symm, by simpa using hinner.symm⟩
    | cons d inner =>
      obtain ⟨rfl, -⟩ := List.cons.inj hinner
      rw [hrest, List.cons_append] at hnote
      rw [(List.cons.inj hnote).2] at hplain
      exact absurd (List.mem_append_right before List.mem_cons_self) hplain

theorem IsAnnotation.byteLength_pos {note : List Char} (h : IsAnnotation note) :
    0 < byteLength note := by
  obtain ⟨rest, rfl, -⟩ := h.exists_head
  exact Nat.add_pos_left (Char.utf8Size_pos '<') _

/-- An offset is an annotation's end when the text up to it ends with an annotation. -/
theorem mem_annotationEnds {offset stop : Nat} {text : List Char} :
    stop ∈ annotationEnds offset text ↔
      ∃ before note after, text = before ++ (note ++ after) ∧
        IsAnnotation note ∧ stop = offset + byteLength before + byteLength note := by
  fun_induction annotationEnds offset text with
  | case1 offset =>
    simp only [List.not_mem_nil, false_iff]
    rintro ⟨before, note, after, htext, ha, -⟩
    exact ha.ne_nil (List.append_eq_nil_iff.mp (List.append_eq_nil_iff.mp htext.symm).2).1
  | case2 offset c rest after hafter first ih =>
    obtain ⟨note, ha, htext⟩ := afterAnnotation?_eq_some_iff.mp hafter
    have hfirst : first = offset + byteLength note := by
      simp only [first, htext, byteLength_append]
      omega
    rw [List.mem_cons, ih, hfirst, htext]
    constructor
    · rintro (rfl | ⟨before, note', after', rfl, ha', rfl⟩)
      · exact ⟨[], note, after, rfl, ha, rfl⟩
      · refine ⟨note ++ before, note', after', (List.append_assoc _ _ _).symm, ha', ?_⟩
        rw [byteLength_append, ← Nat.add_assoc offset]
    · rintro ⟨before, note', after', hsplit, ha', rfl⟩
      by_cases hbefore : before = []
      · -- Both annotations stand at the start, where only one can be read.
        subst hbefore
        have hsame := afterAnnotation?_eq_some_iff.mpr ⟨note', ha', htext.trans hsplit⟩
        rw [hafter] at hsame
        obtain rfl := Option.some.inj hsame
        obtain rfl := List.append_cancel_right hsplit
        exact Or.inl rfl
      · obtain ⟨gap, rfl, hgap⟩ := ha.behind ha' hbefore hsplit
        refine Or.inr ⟨gap, note', after', hgap, ha', ?_⟩
        rw [byteLength_append, ← Nat.add_assoc offset]
  | case3 offset c rest hnone ih =>
    rw [ih]
    constructor
    · rintro ⟨before, note, after, rfl, ha, rfl⟩
      exact ⟨c :: before, note, after, rfl, ha, by rw [byteLength, ← Nat.add_assoc offset]⟩
    · rintro ⟨before, note, after, htext, ha, rfl⟩
      cases before with
      | nil =>
        rw [afterAnnotation?_eq_some_iff.mpr ⟨note, ha, htext⟩] at hnone
        cases hnone
      | cons d before =>
        obtain ⟨rfl, rfl⟩ := List.cons.inj htext
        exact ⟨before, note, after, rfl, ha, by rw [byteLength, ← Nat.add_assoc offset]⟩

theorem lt_of_mem_annotationEnds {offset stop : Nat} {text : List Char}
    (h : stop ∈ annotationEnds offset text) : offset < stop := by
  obtain ⟨before, note, after, -, ha, rfl⟩ := mem_annotationEnds.mp h
  have := ha.byteLength_pos
  omega

theorem annotationEnds_ascending (offset : Nat) (text : List Char) :
    (annotationEnds offset text).Pairwise (· < ·) := by
  fun_induction annotationEnds offset text with
  | case1 => exact .nil
  | case2 offset c rest after hafter stop ih =>
    exact .cons (fun later hlater => lt_of_mem_annotationEnds hlater) ih
  | case3 offset c rest hnone ih => exact ih

/-- Among ascending numbers those below one stand before it, those above it behind it. -/
theorem mem_halves {n middle k : Nat} {ascending above : List Nat}
    (h : ascending.Pairwise (· < ·)) (hdrop : ascending.drop k = middle :: above) :
    n ∈ ascending ↔
      (n < middle ∧ n ∈ ascending.take k) ∨ n = middle ∨ (middle < n ∧ n ∈ above) := by
  have hsplit := List.take_append_drop k ascending
  rw [hdrop] at hsplit
  rw [← hsplit] at h
  obtain ⟨-, hright, hleft⟩ := List.pairwise_append.mp h
  have habove := (List.pairwise_cons.mp hright).1
  constructor
  · intro hmem
    rw [← hsplit] at hmem
    rcases List.mem_append.mp hmem with hmem | hmem
    · exact Or.inl ⟨hleft n hmem middle List.mem_cons_self, hmem⟩
    · rcases List.mem_cons.mp hmem with hmem | hmem
      · exact Or.inr (Or.inl hmem)
      · exact Or.inr (Or.inr ⟨habove n hmem, hmem⟩)
  · rintro (⟨-, hmem⟩ | rfl | ⟨-, hmem⟩)
    · exact List.mem_of_mem_take hmem
    · exact List.mem_of_mem_drop (hdrop ▸ List.mem_cons_self)
    · exact List.mem_of_mem_drop (hdrop ▸ List.mem_cons_of_mem middle hmem)

/-- Looking up by halves finds every number, as the numbers ascend. -/
theorem isAmong_iff {n : Nat} {ascending : List Nat} (h : ascending.Pairwise (· < ·)) :
    isAmong n ascending = true ↔ n ∈ ascending := by
  fun_induction isAmong n ascending with
  | case1 ascending hdrop =>
    have hlength := List.drop_eq_nil_iff.mp hdrop
    obtain rfl : ascending = [] := List.eq_nil_of_length_eq_zero (by omega)
    simp
  | case2 ascending above hdrop => simp [mem_halves h hdrop]
  | case3 ascending middle above hdrop hne hlt ih =>
    rw [ih (h.sublist (List.take_sublist _ _)), mem_halves h hdrop]
    have hngt : ¬ middle < n := by omega
    simp [hne, hlt, hngt]
  | case4 ascending middle above hdrop hne hlt ih =>
    have habove : above.Sublist ascending :=
      (List.sublist_cons_self middle above).trans (hdrop ▸ List.drop_sublist _ _)
    have hgt : middle < n := by omega
    rw [ih (h.sublist habove), mem_halves h hdrop]
    simp [hne, hlt, hgt]

/-- Two cuts of a text at the same offset are the same. -/
theorem eq_of_byteLength_eq {a a' b b' : List Char} (h : a ++ b = a' ++ b')
    (hlength : byteLength a = byteLength a') : a = a' := by
  rw [← takeBytes_byteLength a b, h, hlength, takeBytes_byteLength]

theorem isIgnored_iff (preceding following : List Char) :
    isIgnored (annotationEnds 0 (preceding ++ following)) preceding = true ↔
      EndsWithAnnotation preceding := by
  rw [isIgnored, isAmong_iff (annotationEnds_ascending 0 _), mem_annotationEnds]
  obtain ⟨tail, htail, hblank⟩ := exists_eq_trimEnd_append preceding
  constructor
  · rintro ⟨before, note, after, htext, ha, hstop⟩
    have hcut : trimEnd preceding = before ++ note := by
      rw [htail, List.append_assoc, ← List.append_assoc before] at htext
      refine eq_of_byteLength_eq htext ?_
      rw [hstop, byteLength_append, Nat.zero_add]
    exact ⟨before, note, tail, by rw [← List.append_assoc, ← hcut, ← htail], ha, hblank⟩
  · rintro ⟨before, note, blanks, rfl, ha, hb⟩
    refine ⟨before, note, blanks ++ following, by simp only [List.append_assoc], ha, ?_⟩
    rw [ha.trimEnd_append before hb, byteLength_append, Nat.zero_add]

/-- Whether a fence is ignored is decided by the text before it alone. -/
theorem isIgnored_take_iff (text : List Char) (start : Nat) :
    isIgnored (annotationEnds 0 text) (text.take start) = true ↔
      EndsWithAnnotation (text.take start) := by
  have h := isIgnored_iff (text.take start) (text.drop start)
  rwa [List.take_append_drop] at h

/-- The two phases look behind a fence: it is ignored exactly when the text before it is some text,
an annotation, and blanks. -/
theorem ignored_iff_annotation_behind (document : List Char) (start : Nat) :
    isIgnored (annotationEnds 0 document) (document.take start) = true ↔
      ∃ before lead mark trail blanks,
        document.take start = before ++ ("<!--".toList ++ (lead ++ (mark ++ (":ignore".toList ++
          (trail ++ ("-->".toList ++ blanks)))))) ∧
        AllBlank lead ∧ (mark = "snipcheck".toList ∨ mark = "ts-docs-verifier".toList) ∧
        AllBlank trail ∧ AllBlank blanks := by
  rw [isIgnored_take_iff]
  constructor
  · rintro ⟨before, note, blanks, htext, ha, hblanks⟩
    cases ha with
    | @intro lead mark trail hlead hmark htrail =>
      refine ⟨before, lead, mark, trail, blanks, ?_, hlead, ?_, htrail, hblanks⟩
      · rw [htext]
        simp only [List.append_assoc]
      · simpa only [ignoreMarks, List.mem_cons, List.not_mem_nil, or_false] using hmark
  · rintro ⟨before, lead, mark, trail, blanks, htext, hlead, hmark, htrail, hblanks⟩
    have hmem : mark ∈ ignoreMarks := by
      simpa only [ignoreMarks, List.mem_cons, List.not_mem_nil, or_false] using hmark
    refine ⟨before, _, blanks, ?_, .intro hlead hmem htrail, hblanks⟩
    rw [htext]
    simp only [List.append_assoc]

/-- Of two annotations in one comment the inner one counts, and blanks of any kind may follow. -/
example : isIgnored (annotationEnds 0 "<!-- <!-- snipcheck:ignore -->\u2003\n".toList)
    "<!-- <!-- snipcheck:ignore -->\u2003\n".toList = true := by
  decide +kernel

end DocSnippets.Markdown
