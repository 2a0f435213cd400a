import DocSnippets.Proofs.Snippet.Localization

/-!
# Self-imports that the search passes over

The search takes candidates from left to right and goes on behind each that it has taken, also
behind one with different quotes. Such a candidate hides a self-import that starts inside it. The
other self-imports are read, unless a specifier that is read before overlaps them.
-/

namespace DocSnippets.Snippet

open Text

variable {name source before start : List Char} {offset : Nat} {k k₀ : Candidate}

/-- One candidate at most starts at a place. -/
theorem Candidate.StandsIn.eq_of_length (h : k.StandsIn name source before)
    (h₀ : k₀.StandsIn name source start) (hlength : before.length = start.length) :
    before = start ∧ k = k₀ := by
  obtain ⟨hbefore, htext⟩ := List.append_inj (h.source_eq.symm.trans h₀.source_eq) hlength
  have hread : candidate? name (k.text name ++ k.rest) = some k :=
    candidate?_eq_some_iff.mpr ⟨h.wellFormed, rfl⟩
  have hread₀ : candidate? name (k.text name ++ k.rest) = some k₀ :=
    candidate?_eq_some_iff.mpr ⟨h₀.wellFormed, htext⟩
  rw [hread] at hread₀
  exact ⟨hbefore, Option.some.inj hread₀⟩

namespace Taken

theorem offset_le (h : Taken name source offset before k) : offset ≤ before.length := by
  induction h with
  | first h => exact h.behind
  | next _ h ih =>
    have := h.behind
    rw [List.length_append] at this
    omega

/-- Taken candidates stand apart. The induction is on the place of the later one: what was taken
right before it lies between the two, or is the earlier one itself. -/
theorem stop_le (h₀ : Taken name source offset start k₀) (h : Taken name source offset before k)
    (hlt : start.length < before.length) : (start ++ k₀.text name).length ≤ before.length := by
  generalize hn : before.length = n at hlt ⊢
  induction n using Nat.strong_induction_on generalizing start before k₀ k with
  | _ n ih =>
    subst hn
    cases h with
    | first h =>
      have := h.first start k₀ h₀.stands h₀.offset_le
      omega
    | @next start₁ k₁ _ _ h₁ h =>
      have hbehind := h.behind
      rcases Nat.lt_trichotomy start.length start₁.length with hlt₁ | heq | hgt
      · have hbetween : start₁.length < before.length := by
          have := List.length_pos_iff.mpr (k₁.text_ne_nil name)
          rw [List.length_append] at hbehind
          omega
        have := ih _ hbetween h₀ h₁ rfl hlt₁
        omega
      · obtain ⟨rfl, rfl⟩ := h₀.stands.eq_of_length h₁.stands heq
        exact hbehind
      · have hfirst := h.first start k₀ h₀.stands (ih _ hlt h₁ h₀ rfl hgt)
        omega

theorem not_reached (h : Taken name source offset before k) :
    ¬ Reached name source offset before := by
  rintro ⟨start, k₀, h₀, hstart, hstop⟩
  have := h₀.stop_le h hstart
  omega

end Taken

/-- The specifier of a self-import is one of the segments of its source. -/
def Read (name source before : List Char) (k : Candidate) : Prop :=
  ∃ front back, segments name source = front ++ .specifier name k.subpath :: back ∧
    Segmented name before k front name k.subpath back

/-- A candidate with different quotes is taken and reaches into a place. -/
def Hidden (name source before : List Char) : Prop :=
  ∃ start k, Taken name source 0 start k ∧ k.opening ≠ k.closing ∧
    start.length < before.length ∧ before.length < (start ++ k.text name).length

theorem read_of_taken (h : Taken name source 0 before k) (hquotes : k.opening = k.closing) :
    Read name source before k := by
  rcases takenOrReached [] rfl h.stands with ⟨-, hread⟩ | hreached
  · exact hread hquotes
  · exact absurd hreached h.not_reached

theorem taken_of_read (hk : k.StandsIn name source before) (h : Read name source before k) :
    Taken name source 0 before k := by
  obtain ⟨front, back, hsegments, hseg⟩ := h
  obtain ⟨start, k₀, htaken, -, hseg₀⟩ := exists_taken [] rfl hsegments
  obtain ⟨segs, rfl, rfl⟩ := hseg.front
  obtain ⟨segs₀, hsegs, rfl⟩ := hseg₀.front
  obtain ⟨rfl, -⟩ := List.append_inj' hsegs rfl
  obtain ⟨-, rfl⟩ := htaken.stands.eq_of_length hk rfl
  exact htaken

/-- A specifier shares characters with a candidate. -/
structure Overlaps (name start : List Char) (k₀ : Candidate) (before : List Char) (k : Candidate) :
    Prop where
  starts : (start ++ (k₀.lead ++ [k₀.opening])).length < (before ++ k.text name).length
  stops : before.length <
    (start ++ (k₀.lead ++ k₀.opening :: (name ++ k₀.subpath.getD []))).length

/-- A specifier that is read earlier in the text shares characters with a candidate. -/
def OverlapsRead (name source before : List Char) (k : Candidate) : Prop :=
  ∃ start k₀, SelfImport name source start k₀ ∧ Read name source start k₀ ∧
    start.length < before.length ∧ Overlaps name start k₀ before k

/-- What reaches into a candidate reaches into it with its specifier: a candidate starts with no
quote, and the opening quote of the later one is not in the lead of the earlier one. -/
theorem overlaps_of_reaches (hk : k.StandsIn name source before)
    (h₀ : k₀.StandsIn name source start) (hstart : start.length < before.length)
    (hstop : before.length < (start ++ k₀.text name).length) :
    Overlaps name start k₀ before k := by
  have hsource := hk.source_eq.symm.trans h₀.source_eq
  constructor
  · by_contra hle
    obtain ⟨i, hi⟩ := Nat.exists_eq_add_of_lt hstart
    have hlead : start.length + (i + 1 + k.lead.length) = before.length + k.lead.length := by omega
    have hopening : source[before.length + k.lead.length]? = some k.opening := by
      rw [hk.source_eq, Candidate.text]
      simp
    have hinside : i + 1 + k.lead.length < k₀.lead.length := by
      simp only [Candidate.text, List.length_append, List.length_cons] at hle
      omega
    rw [h₀.source_eq, ← hlead, List.getElem?_append_right (Nat.le_add_right _ _),
      Nat.add_sub_cancel_left, Candidate.text, List.append_assoc,
      List.getElem?_append_left hinside] at hopening
    exact h₀.wellFormed.lead.not_isQuote _ (List.mem_of_getElem? hopening) hk.wellFormed.opening
  · by_contra hle
    obtain ⟨c, lead, hc⟩ := List.exists_cons_of_ne_nil hk.wellFormed.lead.ne_nil
    have hfirst : source[before.length]? = some c := by
      rw [hk.source_eq, Candidate.text, hc]
      simp
    have hend : before.length =
        (start ++ (k₀.lead ++ k₀.opening :: (name ++ k₀.subpath.getD []))).length := by
      simp only [Candidate.text, List.length_append, List.length_cons, List.length_nil] at *
      omega
    have hclosing : source[before.length]? = some k₀.closing := by
      rw [h₀.source_eq, Candidate.text, hend]
      simp
    obtain rfl : c = k₀.closing := Option.some.inj (hfirst.symm.trans hclosing)
    refine hk.wellFormed.lead.not_isQuote k₀.closing ?_ h₀.wellFormed.closing
    rw [hc]
    exact List.mem_cons_self

theorem read_or_overlapped_or_hidden (h : SelfImport name source before k) :
    Read name source before k ∨ OverlapsRead name source before k ∨ Hidden name source before := by
  rcases takenOrReached [] rfl h.stands with ⟨-, hread⟩ | ⟨start, k₀, htaken, hstart, hstop⟩
  · exact Or.inl (hread h.quotes)
  · by_cases hquotes : k₀.opening = k₀.closing
    · have hoverlaps := overlaps_of_reaches h.stands htaken.stands hstart hstop
      exact Or.inr (Or.inl ⟨start, k₀, ⟨htaken.stands, hquotes⟩, read_of_taken htaken hquotes,
        hstart, hoverlaps⟩)
    · exact Or.inr (Or.inr ⟨start, k₀, htaken, hquotes, hstart, hstop⟩)

theorem not_hidden_of_read (hk : k.StandsIn name source before)
    (h : Read name source before k) : ¬ Hidden name source before := by
  rintro ⟨start, k₀, htaken, -, hbounds⟩
  exact (taken_of_read hk h).not_reached ⟨start, k₀, htaken, hbounds⟩

theorem not_overlapsRead_of_read (hk : k.StandsIn name source before)
    (h : Read name source before k) : ¬ OverlapsRead name source before k := by
  rintro ⟨start, k₀, himport, hread, hstart, hoverlaps⟩
  have htaken := taken_of_read himport.stands hread
  refine (taken_of_read hk h).not_reached ⟨start, k₀, htaken, hstart, ?_⟩
  have hstops := hoverlaps.stops
  simp only [Candidate.text, List.length_append, List.length_cons, List.length_nil] at hstops ⊢
  omega

/-- A self-import has its part in the result: the path that serves it stands in its place in the
output, and there is no output where no path serves it. -/
structure LocalizedAt (package : Package) (source before : List Char) (k : Candidate) : Prop where
  rewritten : ∀ output, localize package source = .ok output → ∃ head path tail,
    output = head ++ (path ++ tail) ∧
      Becomes package (.specifier package.name.toList k.subpath) path ∧ ∃ front back,
        textOf front = before ++ (k.lead ++ [k.opening]) ∧
        localizeSegments package front = .ok head ∧ textOf back = k.closing :: k.rest ∧
        localizeSegments package back = .ok tail
  rejected : ∀ e, package.entryPoints.resolve k.subpath = .error e →
    ∃ e', localize package source = .error e'

theorem localizedAt_of_read {package : Package} (h : Read package.name.toList source before k) :
    LocalizedAt package source before k := by
  obtain ⟨front, back, hsegments, hseg⟩ := h
  have hrewritten : ∀ output, localize package source = .ok output → ∃ head path tail,
      localizeSegments package front = .ok head ∧
        Segment.localize package (.specifier package.name.toList k.subpath) = .ok path ∧
        localizeSegments package back = .ok tail ∧ output = head ++ (path ++ tail) := by
    intro output h
    rw [localize, hsegments] at h
    obtain ⟨head, rest, hhead, hrest, rfl⟩ := localizeSegments_append h
    obtain ⟨path, tail, hpath, htail, rfl⟩ := localizeSegments_cons hrest
    exact ⟨head, path, tail, hhead, hpath, htail, rfl⟩
  constructor
  · intro output h
    obtain ⟨head, path, tail, hhead, hpath, htail, rfl⟩ := hrewritten output h
    obtain ⟨segs, rfl, hsegs⟩ := hseg.back
    refine ⟨head, path, tail, rfl, becomes_iff.mpr hpath, front, _, hseg.textOf_front, hhead, ?_,
      htail⟩
    rw [textOf_cons, hsegs]
    rfl
  · intro e he
    cases hlocalize : localize package source with
    | error e' => exact ⟨e', rfl⟩
    | ok output =>
      obtain ⟨head, path, tail, -, hpath, -⟩ := hrewritten output hlocalize
      rw [Segment.localize, localPath_of_error he] at hpath
      cases hpath

/-- A self-import is rewritten, or makes localizing fail, unless a specifier that is read before
overlaps it or a candidate with different quotes hides it; then it is not read. -/
theorem read_unless_hidden (package : Package)
    (h : SelfImport package.name.toList source before k) :
    (Read package.name.toList source before k ↔
        ¬ OverlapsRead package.name.toList source before k ∧
          ¬ Hidden package.name.toList source before) ∧
      (Read package.name.toList source before k → LocalizedAt package source before k) := by
  refine ⟨⟨?_, ?_⟩, localizedAt_of_read⟩
  · intro hread
    exact ⟨not_overlapsRead_of_read h.stands hread, not_hidden_of_read h.stands hread⟩
  · rintro ⟨hfree, hshown⟩
    rcases read_or_overlapped_or_hidden h with hread | hoverlaps | hhidden
    · exact hread
    · exact absurd hoverlaps hfree
    · exact absurd hhidden hshown

/-- A call of `import` in a template literal, behind a quote that the literal leaves open. -/
def openQuote : List Char := "const s = `from \"lib/$\x7b".toList

def innerImport : Candidate := ⟨"import(".toList, '\'', none, '\'', ")\x7d`;\n".toList⟩

def innerSource : List Char := openQuote ++ (innerImport.text "lib".toList ++ innerImport.rest)

theorem innerImport_selfImport : SelfImport "lib".toList innerSource openQuote innerImport := by
  refine ⟨⟨⟨?_, rfl, ?_, rfl⟩, rfl, by decide +kernel⟩, rfl⟩
  · exact @IsLead.load [] [] (by simp) (by simp)
  · rintro s ⟨⟩

theorem read_unless_hidden_inner :
    SelfImport mainOnly.name.toList innerSource openQuote innerImport ∧
      (Read mainOnly.name.toList innerSource openQuote innerImport ↔
        ¬ OverlapsRead mainOnly.name.toList innerSource openQuote innerImport ∧
          ¬ Hidden mainOnly.name.toList innerSource openQuote) :=
  ⟨innerImport_selfImport, (read_unless_hidden mainOnly innerImport_selfImport).1⟩

theorem not_read_of_imports {package : Package} (h : imports package source = []) :
    ¬ Read package.name.toList source before k := by
  rintro ⟨front, back, hsegments, -⟩
  have hmem : .specifier package.name.toList k.subpath ∈ segments package.name.toList source := by
    rw [hsegments]
    exact List.mem_append_right _ List.mem_cons_self
  cases List.filterMap_eq_nil_iff.mp h _ hmem

/-- No specifier is read before the import, a file serves it, and the text stays as it is. -/
theorem innerImport_hidden :
    SelfImport mainOnly.name.toList innerSource openQuote innerImport ∧
      ¬ OverlapsRead mainOnly.name.toList innerSource openQuote innerImport ∧
      mainOnly.entryPoints.resolve innerImport.subpath = .ok "index".toList ∧
      localize mainOnly innerSource = .ok innerSource := by
  refine ⟨innerImport_selfImport, ?_, by decide +kernel, by decide +kernel⟩
  rintro ⟨start, k₀, -, hread, -⟩
  have hnone : imports mainOnly innerSource = [] := by decide +kernel
  exact not_read_of_imports hnone hread

end DocSnippets.Snippet
