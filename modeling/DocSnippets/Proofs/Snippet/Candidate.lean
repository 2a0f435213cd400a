import DocSnippets.Proofs.Text.Occurrences
import DocSnippets.Snippet.SelfImport

/-!
# Candidates

A candidate is a word that leads to a specifier, a quote, the name of the package, a subpath or
none, and a quote. A text that starts with one is read as this candidate and no other text is read
as a candidate.
-/

namespace DocSnippets.Snippet

open Text

/-- What leads to a specifier: one of the words, with blanks and a parenthesis where they are
allowed. -/
inductive IsLead : List Char → Prop where
  | source {blanks : List Char} (h : ∀ c ∈ blanks, isBlank c = true) :
      IsLead ("from".toList ++ blanks)
  | effect {blanks : List Char} (h : ∀ c ∈ blanks, isBlank c = true) :
      IsLead ("import".toList ++ blanks)
  | load {before after : List Char} (hbefore : ∀ c ∈ before, isBlank c = true)
      (hafter : ∀ c ∈ after, isBlank c = true) :
      IsLead ("import".toList ++ (before ++ '(' :: after))
  | require {before after : List Char} (hbefore : ∀ c ∈ before, isBlank c = true)
      (hafter : ∀ c ∈ after, isBlank c = true) :
      IsLead ("require".toList ++ (before ++ '(' :: after))

/-- A slash with more behind it, without quotes and blanks. -/
def IsSubpath (subpath : List Char) : Prop :=
  ∃ more, subpath = '/' :: more ∧ more ≠ [] ∧ ∀ c ∈ more, isSubpathChar c = true

namespace Candidate

/-- A candidate as it stands in a text, from its lead to its closing quote. -/
def text (name : List Char) (k : Candidate) : List Char :=
  k.lead ++ k.opening :: (name ++ (k.subpath.getD [] ++ [k.closing]))

structure WellFormed (k : Candidate) : Prop where
  lead : IsLead k.lead
  opening : isQuote k.opening = true
  subpath : ∀ subpath ∈ k.subpath, IsSubpath subpath
  closing : isQuote k.closing = true

end Candidate

theorem isQuote_iff {c : Char} : isQuote c = true ↔ c = '\'' ∨ c = '"' := by simp [isQuote]

theorem not_isBlank_of_isQuote {c : Char} (h : isQuote c = true) : ¬ isBlank c = true := by
  rcases isQuote_iff.mp h with rfl | rfl <;> decide

theorem ne_paren_of_isQuote {c : Char} (h : isQuote c = true) : c ≠ '(' := by
  rcases isQuote_iff.mp h with rfl | rfl <;> decide

theorem not_isSubpathChar_of_isQuote {c : Char} (h : isQuote c = true) :
    ¬ isSubpathChar c = true := by simp [isSubpathChar, h]

theorem readText?_append (wanted rest : List Char) :
    readText? wanted (wanted ++ rest) = some (wanted, rest) := by
  rw [readText?, isPrefixOf?_append]
  rfl

theorem readBlanks_append {blanks : List Char} (h : ∀ c ∈ blanks, isBlank c = true) {c : Char}
    (hc : ¬ isBlank c = true) (rest : List Char) :
    readBlanks (blanks ++ c :: rest) = (blanks, c :: rest) := by
  rw [readBlanks, List.takeWhile_append_of_pos h, List.dropWhile_append_of_pos h,
    List.takeWhile_cons_of_neg hc, List.dropWhile_cons_of_neg hc, List.append_nil]

theorem isBlank_of_readBlanks (text : List Char) : ∀ c ∈ (readBlanks text).1, isBlank c = true :=
  List.all_eq_true.mp List.all_takeWhile

theorem readText?_paren {c : Char} (h : c ≠ '(') (rest : List Char) :
    readText? ['('] (c :: rest) = none := by
  rw [readText?, Option.map_eq_none_iff, isPrefixOf?_eq_none]
  simpa using h.symm

/-- A lead in front of a quote is read to its end. -/
theorem lead?_append {lead : List Char} (h : IsLead lead) {quote : Char}
    (hquote : isQuote quote = true) (rest : List Char) :
    lead? (lead ++ quote :: rest) = some (lead, quote :: rest) := by
  have hblank := not_isBlank_of_isQuote hquote
  have hparen : ¬ isBlank '(' = true := by decide
  unfold lead?
  cases h with
  | source hblanks =>
    simp only [List.append_assoc, readText?_append, readBlanks_append hblanks hblank, Split.after]
  | effect hblanks =>
    have hfrom (tail : List Char) : readText? "from".toList ("import".toList ++ tail) = none := rfl
    simp only [List.append_assoc, hfrom, readText?_append, readBlanks_append hblanks hblank,
      readText?_paren (ne_paren_of_isQuote hquote)]
  | @load before after hbefore hafter =>
    have hfrom (tail : List Char) : readText? "from".toList ("import".toList ++ tail) = none := rfl
    have hopen : readText? ['('] ('(' :: (after ++ quote :: rest)) =
        some (['('], after ++ quote :: rest) := readText?_append ['('] _
    simp only [List.append_assoc, List.cons_append, hfrom, readText?_append,
      readBlanks_append hbefore hparen, hopen, readBlanks_append hafter hblank, Split.after,
      List.nil_append]
  | @require before after hbefore hafter =>
    have hfrom (tail : List Char) : readText? "from".toList ("require".toList ++ tail) = none := rfl
    have himport (tail : List Char) :
        readText? "import".toList ("require".toList ++ tail) = none := rfl
    have hopen : readText? ['('] ('(' :: (after ++ quote :: rest)) =
        some (['('], after ++ quote :: rest) := readText?_append ['('] _
    simp only [List.append_assoc, List.cons_append, hfrom, himport, readText?_append,
      readBlanks_append hbefore hparen, hopen, readBlanks_append hafter hblank, Split.after,
      List.nil_append, Option.map_some]

theorem isLead_of_lead? {text : List Char} {s : Split} (h : lead? text = some s) :
    IsLead s.1 := by
  unfold lead? at h
  split at h
  · next word rest hword =>
    obtain rfl := (readText?_eq hword).1
    obtain rfl := Option.some.inj h
    exact .source (isBlank_of_readBlanks rest)
  · split at h
    · next word rest hword =>
      obtain rfl := (readText?_eq hword).1
      dsimp only at h
      split at h
      · next paren rest' hparen =>
        obtain rfl := (readText?_eq hparen).1
        obtain rfl := Option.some.inj h
        rw [Split.after, List.append_assoc, List.append_assoc]
        exact .load (isBlank_of_readBlanks rest) (isBlank_of_readBlanks rest')
      · obtain rfl := Option.some.inj h
        exact .effect (isBlank_of_readBlanks rest)
    · split at h
      · next word rest hword =>
        obtain rfl := (readText?_eq hword).1
        dsimp only at h
        obtain ⟨p, hparen, rfl⟩ := Option.map_eq_some_iff.mp h
        rw [Split.after, (readText?_eq hparen).1, List.append_assoc, List.append_assoc]
        exact .require (isBlank_of_readBlanks rest) (isBlank_of_readBlanks p.2)
      · cases h

theorem IsLead.ne_nil {lead : List Char} (h : IsLead lead) : lead ≠ [] := by
  cases h <;> exact List.append_ne_nil_of_left_ne_nil (by decide) _

theorem IsLead.not_isQuote {lead : List Char} (h : IsLead lead) :
    ∀ c ∈ lead, ¬ isQuote c = true := by
  intro c hc hquote
  have hblank := not_isBlank_of_isQuote hquote
  have hparen := ne_paren_of_isQuote hquote
  -- No quote in a word that leads to a specifier, none among blanks.
  have hword : c ∉ "from".toList ∧ c ∉ "import".toList ∧ c ∉ "require".toList := by
    rcases isQuote_iff.mp hquote with rfl | rfl <;> decide
  obtain ⟨hfrom, himport, hrequire⟩ := hword
  cases h with
  | source h => exact (List.mem_append.mp hc).elim hfrom fun hc => hblank (h c hc)
  | effect h => exact (List.mem_append.mp hc).elim himport fun hc => hblank (h c hc)
  | load hbefore hafter =>
    simp only [List.mem_append, List.mem_cons] at hc
    rcases hc with hc | hc | hc | hc
    · exact himport hc
    · exact hblank (hbefore c hc)
    · exact hparen hc
    · exact hblank (hafter c hc)
  | require hbefore hafter =>
    simp only [List.mem_append, List.mem_cons] at hc
    rcases hc with hc | hc | hc | hc
    · exact hrequire hc
    · exact hblank (hbefore c hc)
    · exact hparen hc
    · exact hblank (hafter c hc)

/-- A subpath and a quote behind the name are read to the quote. -/
theorem close?_append {lead rest : List Char} {opening quote : Char} {subpath : Option (List Char)}
    (hsubpath : ∀ s ∈ subpath, IsSubpath s) (hquote : isQuote quote = true) :
    close? lead opening (subpath.getD [] ++ quote :: rest) =
      some { lead, opening, subpath, closing := quote, rest } := by
  cases subpath with
  | none => rw [Option.getD_none, List.nil_append, close?, if_pos hquote]
  | some subpath =>
    obtain ⟨more, rfl, hne, hmore⟩ := hsubpath subpath rfl
    have hslash : ¬ isQuote '/' = true := by decide
    have hend := not_isSubpathChar_of_isQuote hquote
    rw [Option.getD_some, List.cons_append, close?, if_neg hslash, if_pos rfl]
    dsimp only
    rw [List.dropWhile_append_of_pos hmore, List.takeWhile_append_of_pos hmore,
      List.dropWhile_cons_of_neg hend, List.takeWhile_cons_of_neg hend, List.append_nil]
    dsimp only
    rw [if_pos ⟨hne, hquote⟩]

theorem wellFormed_of_close? {lead text : List Char} {opening : Char} {k : Candidate}
    (h : close? lead opening text = some k) :
    (∀ s ∈ k.subpath, IsSubpath s) ∧ isQuote k.closing = true := by
  cases text with
  | nil => cases h
  | cons c rest =>
    rw [close?] at h
    split at h
    · next hquote =>
      obtain rfl := Option.some.inj h
      exact ⟨by simp, hquote⟩
    · split at h
      · dsimp only at h
        split at h
        · split at h
          · next hmore =>
            obtain rfl := Option.some.inj h
            refine ⟨?_, hmore.2⟩
            rintro s ⟨⟩
            exact ⟨_, rfl, hmore.1, List.all_eq_true.mp List.all_takeWhile⟩
          · cases h
        · cases h
      · cases h

/-- A candidate is read exactly where one stands. -/
theorem candidate?_eq_some_iff {name text : List Char} {k : Candidate} :
    candidate? name text = some k ↔ k.WellFormed ∧ text = k.text name ++ k.rest := by
  constructor
  · intro h
    refine ⟨?_, by simpa [Candidate.text] using candidate?_eq h⟩
    unfold candidate? at h
    split at h
    · cases h
    · cases h
    · next lead opening rest hlead =>
      split at h
      · next hopening =>
        obtain ⟨after, -, hclose⟩ := Option.bind_eq_some_iff.mp h
        obtain ⟨rfl, rfl, -⟩ := close?_eq hclose
        obtain ⟨hsubpath, hclosing⟩ := wellFormed_of_close? hclose
        exact ⟨isLead_of_lead? hlead, hopening, hsubpath, hclosing⟩
      · cases h
  · rintro ⟨h, rfl⟩
    have htext : k.text name ++ k.rest = k.lead ++ k.opening ::
        (name ++ (k.subpath.getD [] ++ k.closing :: k.rest)) := by simp [Candidate.text]
    rw [htext, candidate?, lead?_append h.lead h.opening]
    dsimp only
    rw [if_pos h.opening, isPrefixOf?_append, Option.bind_some, close?_append h.subpath h.closing]

/-- A candidate is also read in front of another text. -/
theorem candidate?_of_wellFormed {name : List Char} {k : Candidate} (h : k.WellFormed)
    (rest : List Char) : candidate? name (k.text name ++ rest) = some { k with rest := rest } :=
  candidate?_eq_some_iff.mpr ⟨⟨h.lead, h.opening, h.subpath, h.closing⟩, rfl⟩

end DocSnippets.Snippet
