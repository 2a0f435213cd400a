import DocSnippets.Markdown.Block
import DocSnippets.Proofs.Markdown.Annotation

/-!
# Reading back a rendered document

A document written as prose and fenced blocks in turn is read back as the blocks that were written,
without those whose prose ends with an ignore annotation. The closing fence of a block may stand
inside a line, and the next block may open right behind it.
-/

namespace DocSnippets

open Text

def Dialect.spelling : Dialect → List Char
  | .typescript => "typescript".toList
  | .ts => "ts".toList
  | .tsx => "tsx".toList

namespace Dialect

theorem ofTag?_eq_some {tag : List Char} {d : Dialect} (h : tag.map Char.toLower = d.spelling) :
    ofTag? tag = some d := by
  unfold ofTag?
  rw [h]
  cases d <;> decide

theorem toLower_eq_of_isBlank {c : Char} (h : isBlank c = true) : c.toLower = c := by
  obtain ⟨r, hr, hlo, hhi⟩ := (CharSet.contains_iff _ _).mp h
  have houtside : ∀ r ∈ blanks.ranges, r.2 < 65 ∨ 90 < r.1 := by decide
  have hletter : ¬ (c.val ≥ 'A'.val ∧ c.val ≤ 'Z'.val) := by
    rintro ⟨h₁, h₂⟩
    have h₁ : 65 ≤ c.toNat := UInt32.le_iff_toNat_le.mp h₁
    have h₂ : c.toNat ≤ 90 := UInt32.le_iff_toNat_le.mp h₂
    have := houtside r hr
    omega
  exact dif_neg hletter

theorem not_blank_of_spelling {tag : List Char} {d : Dialect}
    (h : tag.map Char.toLower = d.spelling) : ∀ c ∈ tag, isBlank c = false := by
  have hspelling : ∀ d : Dialect, ∀ c ∈ d.spelling, isBlank c = false := by
    intro d c hc
    have hnone : d.spelling.any isBlank = false := by cases d <;> rfl
    simpa using List.any_eq_false.mp hnone c hc
  intro c hc
  by_contra hblank
  rw [Bool.not_eq_false] at hblank
  have hmem := hspelling d c.toLower (h ▸ List.mem_map_of_mem hc)
  rw [toLower_eq_of_isBlank hblank, hblank] at hmem
  cases hmem

/-- The opening line of a block names its dialect, whatever stands apart from the tag. -/
theorem ofOpener?_eq_some {tag extra : List Char} {d : Dialect}
    (htag : tag.map Char.toLower = d.spelling) (hextra : extra.head?.all isBlank = true) :
    ofOpener? (tag ++ extra) = some d := by
  have hsolid := not_blank_of_spelling htag
  have hne : tag ≠ [] := by
    rintro rfl
    cases d <;> cases htag
  obtain ⟨c, rest, rfl⟩ := List.exists_cons_of_ne_nil hne
  have hc : isBlank c = false := hsolid c List.mem_cons_self
  have hstart : trimStart (c :: rest ++ extra) = c :: rest ++ extra :=
    List.dropWhile_cons_of_neg (by simp [hc])
  have hword : firstWord (c :: rest ++ extra) = c :: rest := by
    rw [firstWord, hstart, List.takeWhile_append_of_pos fun x hx => by simp [hsolid x hx]]
    cases extra with
    | nil => simp
    | cons e extra =>
      have he : isBlank e = true := by simpa using hextra
      rw [List.takeWhile_cons_of_neg (by simp [he]), List.append_nil]
  rw [ofOpener?, if_neg (by simp [hc]), ofInfo?, hword, ofTag?_eq_some htag]

end Dialect

namespace Markdown

/-- A text that may stand directly before a fence. -/
structure Unfenced (text : List Char) : Prop where
  plain : ¬ fence <:+: text
  apart : text.getLast? ≠ some '`'

/-- Prose and the fenced block that follows it. The prose of an ignored block ends with an
annotation, that of any other block does not. -/
structure Passage where
  prose : List Char
  ignored : Bool
  dialect : Dialect
  tag : List Char
  extra : List Char
  body : List Char
  prose_unfenced : Unfenced prose
  ignored_iff : ignored = true ↔ EndsWithAnnotation prose
  tag_spelling : tag.map Char.toLower = dialect.spelling
  extra_apart : extra.head?.all isBlank = true
  extra_line : '\n' ∉ extra
  body_unfenced : Unfenced body

def Passage.text (p : Passage) : List Char :=
  p.prose ++ (fence ++ (p.tag ++ p.extra ++ (['\n'] ++ (p.body ++ fence))))

def render (passages : List Passage) (epilogue : List Char) : List Char :=
  (passages.map Passage.text).flatten ++ epilogue

/-- A text that does not end with a backtick does not lend one to the fence after it. -/
theorem Unfenced.cut {text : List Char} (h : Unfenced text) (after : List Char) :
    cut? fence (text ++ (fence ++ after)) = some (text, after) := by
  refine cut?_append (fun hi => ?_) after
  rcases List.infix_append_iff.mp hi with hi | hi | ⟨left, right, hfence, hleft, hright⟩
  · exact h.plain hi
  · have hlen := hi.length_le
    simp [fence] at hlen
  · have hshort : right.length ≤ 2 := by simpa [fence] using hright.length_le
    have hne : left ≠ [] := by
      rintro rfl
      have hlen := congrArg List.length hfence
      simp [fence] at hlen
      omega
    have hlast : left.getLast? = some '`' := by
      have hmem : ∀ c ∈ left, c = '`' := by
        intro c hc
        have : c ∈ fence := hfence ▸ List.mem_append_left _ hc
        simpa [fence] using this
      rw [List.getLast?_eq_some_getLast hne, hmem _ (List.getLast_mem hne)]
    obtain ⟨before, rfl⟩ := hleft
    apply h.apart
    rw [List.getLast?_append, hlast]
    rfl

/-- One round of the scan. -/
theorem regionsFrom_eq (pos : Nat) (text : List Char) :
    regionsFrom pos text =
      match cut? fence text with
      | none => []
      | some (before, opened) =>
        match cut? ['\n'] opened with
        | none => []
        | some (info, below) =>
          match Dialect.ofOpener? info with
          | none => regionsFrom (pos + before.length + fence.length) opened
          | some dialect =>
            match cut? fence below with
            | none => []
            | some (body, after) =>
              { start := pos + before.length, info, dialect, body } ::
                regionsFrom (pos + before.length + fence.length + info.length + 1 + body.length +
                  fence.length) after := by
  fun_cases regionsFrom pos text
  all_goals simp only [*]
  all_goals rfl

theorem regionsFrom_eq_cons (pos : Nat) {text before opened info below body after : List Char}
    {d : Dialect} (hopen : cut? fence text = some (before, opened))
    (hline : cut? ['\n'] opened = some (info, below)) (hd : Dialect.ofOpener? info = some d)
    (hclose : cut? fence below = some (body, after)) :
    regionsFrom pos text =
      { start := pos + before.length, info, dialect := d, body } ::
        regionsFrom (pos + before.length + fence.length + info.length + 1 + body.length +
          fence.length) after := by
  rw [regionsFrom_eq]
  simp only [hopen, hline, hd, hclose]

theorem regionsFrom_eq_nil {pos : Nat} {text : List Char} (h : ¬ fence <:+: text) :
    regionsFrom pos text = [] := by
  rw [regionsFrom_eq, cut?_eq_none h]

/-- The scan takes a passage as a whole and goes on behind its closing fence. -/
theorem regionsFrom_passage (pos : Nat) (p : Passage) (rest : List Char) :
    regionsFrom pos (p.text ++ rest) =
      { start := pos + p.prose.length, info := p.tag ++ p.extra, dialect := p.dialect,
        body := p.body } :: regionsFrom (pos + p.text.length) rest := by
  have hinfo : '\n' ∉ p.tag ++ p.extra := by
    intro hmem
    rcases List.mem_append.mp hmem with hmem | hmem
    · exact absurd (Dialect.not_blank_of_spelling p.tag_spelling _ hmem) (by decide)
    · exact p.extra_line hmem
  have hline : cut? ['\n'] (p.tag ++ p.extra ++ (['\n'] ++ (p.body ++ (fence ++ rest)))) =
      some (p.tag ++ p.extra, p.body ++ (fence ++ rest)) := by
    refine cut?_append (fun hi => hinfo ?_) _
    simpa using hi.subset (List.mem_singleton_self _)
  have hregion := regionsFrom_eq_cons pos (p.prose_unfenced.cut _) hline
    (Dialect.ofOpener?_eq_some p.tag_spelling p.extra_apart) (p.body_unfenced.cut rest)
  have htext : p.text ++ rest = p.prose ++ (fence ++ (p.tag ++ p.extra ++
      (['\n'] ++ (p.body ++ (fence ++ rest))))) := by
    simp only [Passage.text, List.append_assoc]
  rw [htext, hregion, Passage.text]
  simp only [List.length_append, List.length_singleton, Nat.add_assoc]

theorem IsAnnotation.no_backtick {note : List Char} (h : IsAnnotation note) :
    '`' ∉ note := by
  have hblank : ∀ {text : List Char}, AllBlank text → '`' ∉ text := fun htext hmem =>
    absurd (htext _ hmem) (by decide)
  cases h with
  | intro hlead hmark htrail =>
    have hmarks : ∀ mark ∈ ignoreMarks, '`' ∉ mark := by decide
    simp only [List.mem_append, hblank hlead, hblank htrail, hmarks _ hmark, false_or]
    decide

/-- An annotation does not reach back over a fence. -/
theorem endsWithAnnotation_append {done prose : List Char}
    (hdone : done.getLast?.all (· = '`') = true) :
    EndsWithAnnotation (done ++ prose) ↔ EndsWithAnnotation prose := by
  constructor
  · rintro ⟨before, note, blanks, htext, ha, hb⟩
    rcases List.append_eq_append_iff.mp htext with ⟨left, rfl, hprose⟩ | ⟨left, rfl, hend⟩
    · exact ⟨left, note, blanks, hprose, ha, hb⟩
    · rcases List.eq_nil_or_concat left with rfl | ⟨left, c, rfl⟩
      · exact ⟨[], note, blanks, hend.symm, ha, hb⟩
      · obtain rfl : c = '`' := by simpa using hdone
        have hmem : '`' ∈ note ++ blanks := by
          rw [hend]
          simp
        rcases List.mem_append.mp hmem with hmem | hmem
        · exact absurd hmem ha.no_backtick
        · exact absurd (hb _ hmem) (by decide)
  · rintro ⟨before, note, blanks, rfl, ha, hb⟩
    exact ⟨done ++ before, note, blanks, by simp only [List.append_assoc], ha, hb⟩

theorem Passage.text_getLast? (p : Passage) : p.text.getLast? = some '`' := by
  have htext : p.text =
      p.prose ++ (fence ++ (p.tag ++ p.extra ++ (['\n'] ++ p.body))) ++ fence := by
    simp only [Passage.text, List.append_assoc]
  rw [htext, List.getLast?_append]
  rfl

/-- The induction is on the passages still to come; what is done ends with a fence, so that the
annotation of a passage can only stand in its own prose. -/
theorem active_regions_render (whole done : List Char) (passages : List Passage)
    {epilogue : List Char} (hdone : done.getLast?.all (· = '`') = true)
    (hepilogue : ¬ fence <:+: epilogue) (hwhole : whole = done ++ render passages epilogue) :
    ((regionsFrom done.length (render passages epilogue)).filter fun r =>
        !isIgnored (annotationEnds 0 whole) (whole.take r.start)).map
        (fun r => (r.body, r.dialect)) =
      (passages.filter (!·.ignored)).map fun p => (p.body, p.dialect) := by
  induction passages generalizing done with
  | nil =>
    rw [show render [] epilogue = epilogue from rfl, regionsFrom_eq_nil hepilogue]
    rfl
  | cons p passages ih =>
    have hsplit : render (p :: passages) epilogue = p.text ++ render passages epilogue := by
      simp only [render, List.map_cons, List.flatten_cons, List.append_assoc]
    rw [hsplit] at hwhole ⊢
    have hnext := ih (done ++ p.text)
      (by rw [List.getLast?_append, p.text_getLast?]; rfl) (by rw [hwhole, List.append_assoc])
    rw [List.length_append] at hnext
    have hignored : isIgnored (annotationEnds 0 whole)
        (whole.take (done.length + p.prose.length)) = p.ignored := by
      have hcut : whole = (done ++ p.prose) ++
          (fence ++ (p.tag ++ p.extra ++ (['\n'] ++ (p.body ++ fence))) ++
            render passages epilogue) := by
        rw [hwhole, Passage.text]
        simp only [List.append_assoc]
      rw [hcut, ← List.length_append, List.take_left, Bool.eq_iff_iff,
        isIgnored_iff, endsWithAnnotation_append hdone, p.ignored_iff]
    rw [regionsFrom_passage, List.filter_cons, hignored, List.filter_cons]
    cases p.ignored with
    | true => exact hnext
    | false =>
      simp only [Bool.not_false, if_true, List.map_cons, List.cons.injEq, true_and]
      exact hnext

theorem blocksFrom_eq_mapIdx (file : Path) (index : Nat) (regions : List Region) :
    blocksFrom file index regions = (regions.map fun r => (r.body, r.dialect)).mapIdx fun i r =>
      { file, index := index + i, source := String.ofList r.1, dialect := r.2 } := by
  induction regions generalizing index with
  | nil => rfl
  | cons r regions ih =>
    simp only [blocksFrom, List.map_cons, List.mapIdx_cons, ih, Nat.add_zero, Nat.add_right_comm,
      ← Nat.add_assoc]

/-- Extraction undoes rendering: what comes back are the passages that are not ignored, in order,
with their bodies and dialects, numbered from one. -/
theorem blocks_of_render (file : Path) (passages : List Passage) {epilogue : List Char}
    (hepilogue : ¬ fence <:+: epilogue) :
    blocks file (String.ofList (render passages epilogue)) =
      (passages.filter (!·.ignored)).mapIdx fun i p =>
        { file, index := i + 1, source := String.ofList p.body, dialect := p.dialect } := by
  have hactive := active_regions_render (render passages epilogue) [] passages rfl hepilogue
    rfl
  rw [blocks, String.toList_ofList, blocksFrom_eq_mapIdx, activeRegions, regions]
  rw [show ([] : List Char).length = 0 from rfl] at hactive
  rw [hactive]
  apply List.ext_getElem?
  intro i
  simp only [List.getElem?_mapIdx, List.getElem?_map, Option.map_map, Function.comp_def,
    Nat.add_comm]

/-- A passage that an annotation on the opening line excludes. -/
def excludedPassage : Passage where
  prose := "See <!-- snipcheck:ignore -->".toList
  ignored := true
  dialect := .typescript
  tag := "TypeScript".toList
  extra := " ``` title".toList
  body := "<!--snipcheck:ignore-->\n".toList
  prose_unfenced := ⟨by decide, by decide⟩
  ignored_iff := (by decide +kernel : _ ↔ _).trans (isIgnored_iff _ [])
  tag_spelling := by decide
  extra_apart := by decide
  extra_line := by decide
  body_unfenced := ⟨by decide, by decide⟩

/-- A passage without prose and without a body, right behind the fence of another one. -/
def barePassage : Passage where
  prose := []
  ignored := false
  dialect := .tsx
  tag := "tSx".toList
  extra := []
  body := []
  prose_unfenced := ⟨by decide, by decide⟩
  ignored_iff := (by decide +kernel : _ ↔ _).trans (isIgnored_iff _ [])
  tag_spelling := by decide
  extra_apart := by decide
  extra_line := by decide
  body_unfenced := ⟨by decide, by decide⟩

theorem blocks_of_render_adjacent :
    (¬ fence <:+: "``".toList) ∧
      blocks ⟨"a.md"⟩ (String.ofList
        (render [excludedPassage, barePassage, barePassage] "``".toList)) =
        [⟨⟨"a.md"⟩, 1, "", .tsx⟩, ⟨⟨"a.md"⟩, 2, "", .tsx⟩] :=
  ⟨by decide, blocks_of_render ⟨"a.md"⟩ [excludedPassage, barePassage, barePassage] (by decide)⟩

end Markdown

end DocSnippets
