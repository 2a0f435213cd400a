import DocSnippets.Proofs.Snippet.Search
import DocSnippets.Run

/-!
# The self-imports of a documentation

The blocks of a documentation are prepared one after the other, and each of them from the front. So
the error of preparing them is that of the first self-import that has no file, those aside that an
earlier candidate of the same block reaches into: they may be passed over.
-/

namespace DocSnippets

open Snippet

/-- A candidate in one of the blocks of a documentation, with the blocks before that one and the
text before the candidate. -/
structure Site where
  earlier : List Block
  block : Block
  before : List Char
  candidate : Candidate

namespace Site

/-- There is a self-import at this place of the documentation. -/
structure StandsIn (s : Site) (package : Package) (found : List Block) : Prop where
  block : ∃ later, found = s.earlier ++ s.block :: later
  selfImport : SelfImport package.name.toList s.block.source.toList s.before s.candidate

/-- A candidate that starts earlier in the block reaches into this one. -/
def Overlaid (s : Site) (package : Package) : Prop :=
  Covered package.name.toList s.block.source.toList s.before

/-- The main file and the exports of the package have a file for it. -/
def Served (s : Site) (package : Package) : Prop :=
  ∃ path, package.entryPoints.resolve s.candidate.subpath = .ok path

/-- Where the specifier starts in its block. -/
def offset (s : Site) : Nat := (s.before ++ s.candidate.lead).length

/-- The order of the blocks, and in one block that of the text. -/
def Precedes (s t : Site) : Prop :=
  s.earlier.length < t.earlier.length ∨
    s.earlier.length = t.earlier.length ∧ s.offset < t.offset

/-- The first self-import without a file: those before it have one, or are overlaid. -/
structure FirstUnserved (s : Site) (package : Package) (found : List Block) (e : ResolutionError) :
    Prop where
  stands : s.StandsIn package found
  fails : package.entryPoints.resolve s.candidate.subpath = .error e
  first : ∀ t : Site, t.StandsIn package found → t.Precedes s →
    t.Served package ∨ t.Overlaid package

variable {package : Package} {found : List Block} {s t : Site} {e e' : ResolutionError}

theorem FirstUnserved.not_served (h : s.FirstUnserved package found e) : ¬ s.Served package := by
  rintro ⟨path, hpath⟩
  rw [h.fails] at hpath
  cases hpath

theorem StandsIn.block_eq (hs : s.StandsIn package found) (ht : t.StandsIn package found)
    (hlength : s.earlier.length = t.earlier.length) :
    s.earlier = t.earlier ∧ s.block = t.block := by
  obtain ⟨later, hfound⟩ := hs.block
  obtain ⟨later', hfound'⟩ := ht.block
  obtain ⟨hearlier, hrest⟩ := List.append_inj (hfound.symm.trans hfound') hlength
  exact ⟨hearlier, (List.cons.inj hrest).1⟩

/-- The specifier of a self-import starts before all that is not overlaid and starts later. -/
theorem offset_lt (hs : s.StandsIn package found) (hblock : s.block = t.block)
    (hfree : ¬ t.Overlaid package) (hlt : s.before.length < t.before.length) :
    s.offset < t.offset := by
  have hbehind : ¬ t.before.length <
      (s.before ++ s.candidate.text package.name.toList).length := by
    intro hinside
    exact hfree ⟨s.before, s.candidate, hblock ▸ hs.selfImport.stands, hlt, hinside⟩
  unfold offset
  simp only [Candidate.text, List.length_append, List.length_cons] at hbehind ⊢
  omega

/-- Of two self-imports that are not overlaid one precedes the other, or they are the same. -/
theorem precedes_or_eq (hs : s.StandsIn package found) (ht : t.StandsIn package found)
    (hfree : ¬ s.Overlaid package) (hfree' : ¬ t.Overlaid package) :
    s.Precedes t ∨ s.candidate = t.candidate ∨ t.Precedes s := by
  rcases Nat.lt_trichotomy s.earlier.length t.earlier.length with hlt | heq | hgt
  · exact Or.inl (Or.inl hlt)
  · have hblock := (hs.block_eq ht heq).2
    rcases Nat.lt_trichotomy s.before.length t.before.length with hlt | hsame | hgt
    · exact Or.inl (Or.inr ⟨heq, offset_lt hs hblock hfree' hlt⟩)
    · have hstands := hs.selfImport.stands
      rw [hblock] at hstands
      exact Or.inr (Or.inl (hstands.eq_of_length ht.selfImport.stands hsame).2)
    · exact Or.inr (Or.inr (Or.inr ⟨heq.symm, offset_lt ht hblock.symm hfree hgt⟩))
  · exact Or.inr (Or.inr (Or.inl hgt))

/-- Where none is overlaid, there is one error of a first self-import at most. -/
theorem FirstUnserved.error_eq (h : s.FirstUnserved package found e)
    (h' : t.FirstUnserved package found e')
    (hfree : ∀ s : Site, s.StandsIn package found → ¬ s.Overlaid package) : e = e' := by
  have hs := hfree s h.stands
  have ht := hfree t h'.stands
  rcases precedes_or_eq h.stands h'.stands hs ht with hbefore | hsame | hbehind
  · rcases h'.first s h.stands hbefore with hserved | hoverlaid
    · exact absurd hserved h.not_served
    · exact absurd hoverlaid hs
  · have hfails := h.fails
    rw [hsame, h'.fails] at hfails
    exact (Except.error.inj hfails).symm
  · rcases h.first t h'.stands hbehind with hserved | hoverlaid
    · exact absurd hserved h'.not_served
    · exact absurd hoverlaid ht

end Site

namespace Run

variable {package : Package} {wrap : Bool} {found : List Block} {e : ResolutionError}

theorem ofBlock_eq_error_iff {b : Block} :
    Prepared.ofBlock package wrap b = .error e ↔
      localize package b.source.toList = .error e := by
  unfold Prepared.ofBlock
  cases localize package b.source.toList <;> simp [Except.map]

/-- In a block that can be prepared, the self-imports that are not overlaid are served. -/
theorem served_of_ofBlock {s : Site} {p : Prepared}
    (h : Prepared.ofBlock package wrap s.block = .ok p) (hs : s.StandsIn package found)
    (hfree : ¬ s.Overlaid package) : s.Served package := by
  cases hlocalize : localize package s.block.source.toList with
  | error e =>
    rw [ofBlock_eq_error_iff.mpr hlocalize] at h
    cases h
  | ok output => exact served_of_localize hlocalize hs.selfImport hfree

theorem prepareAll_of_allSucceed (h : AllSucceed (Prepared.ofBlock package wrap) found) :
    ∃ snippets, prepareAll package wrap found = .ok snippets ∧ snippets.length = found.length := by
  induction found with
  | nil => exact ⟨[], rfl, rfl⟩
  | cons b rest ih =>
    obtain ⟨⟨p, hp⟩, hrest⟩ := allSucceed_cons_iff.mp h
    obtain ⟨snippets, hsnippets, hlength⟩ := ih hrest
    refine ⟨p :: snippets, ?_, congrArg (· + 1) hlength⟩
    rw [prepareAll, hp, hsnippets]
    rfl

theorem prepareAll_of_firstFails {b : Block}
    (h : FirstFails (Prepared.ofBlock package wrap) found b e) :
    prepareAll package wrap found = .error e := by
  induction found with
  | nil => exact absurd h FirstFails.not_nil
  | cons first rest ih =>
    rw [prepareAll]
    rcases h.of_cons with ⟨-, hfails⟩ | ⟨⟨p, hp⟩, hrest⟩
    · rw [hfails]
      rfl
    · rw [hp, ih hrest]
      rfl

theorem length_of_prepareAll {snippets : List Prepared}
    (h : prepareAll package wrap found = .ok snippets) : snippets.length = found.length := by
  rcases allSucceed_or_firstFails (Prepared.ofBlock package wrap) found with hall | ⟨b, e, hfirst⟩
  · obtain ⟨list, hlist, hlength⟩ := prepareAll_of_allSucceed hall
    rw [h] at hlist
    rw [Except.ok.inj hlist, hlength]
  · rw [prepareAll_of_firstFails hfirst] at h
    cases h

theorem served_of_prepareAll {snippets : List Prepared}
    (h : prepareAll package wrap found = .ok snippets) {s : Site} (hs : s.StandsIn package found)
    (hfree : ¬ s.Overlaid package) : s.Served package := by
  obtain ⟨later, hfound⟩ := hs.block
  rcases allSucceed_or_firstFails (Prepared.ofBlock package wrap) found with hall | ⟨b, e, hfirst⟩
  · have hmem : s.block ∈ found := by simp [hfound]
    obtain ⟨p, hp⟩ := hall s.block hmem
    exact served_of_ofBlock hp hs hfree
  · rw [prepareAll_of_firstFails hfirst] at h
    cases h

/-- The error of preparing blocks is that of a first self-import. -/
theorem exists_firstUnserved (h : prepareAll package wrap found = .error e) :
    ∃ s : Site, s.FirstUnserved package found e := by
  rcases allSucceed_or_firstFails (Prepared.ofBlock package wrap) found with hall | ⟨b, e', hfirst⟩
  · obtain ⟨snippets, hsnippets, -⟩ := prepareAll_of_allSucceed hall
    rw [hsnippets] at h
    cases h
  · rw [prepareAll_of_firstFails hfirst] at h
    obtain rfl := Except.error.inj h
    obtain ⟨earlier, later, hfound, hearlier, hfails⟩ := hfirst
    obtain ⟨before, k, himport, hunserved, hbefore⟩ :=
      exists_unserved (ofBlock_eq_error_iff.mp hfails)
    have hstands : (Site.mk earlier b before k).StandsIn package found := ⟨⟨later, hfound⟩, himport⟩
    refine ⟨⟨earlier, b, before, k⟩, hstands, hunserved, ?_⟩
    intro t ht hprecedes
    by_cases hfree : t.Overlaid package
    · exact Or.inr hfree
    rcases hprecedes with hblock | ⟨hsame, hoffset⟩
    · -- Its block is one of those that are prepared before.
      obtain ⟨later', hfound'⟩ := ht.block
      have hmem : t.block ∈ earlier := by
        have hprefix : t.earlier ++ [t.block] <+: earlier := by
          refine List.prefix_of_prefix_length_le ⟨later', ?_⟩ ⟨b :: later, hfound.symm⟩ (by simpa)
          rw [hfound', List.append_assoc]
          rfl
        exact hprefix.subset (List.mem_append_right _ List.mem_cons_self)
      obtain ⟨p, hp⟩ := hearlier t.block hmem
      exact Or.inl (served_of_ofBlock hp ht hfree)
    · obtain ⟨-, hb⟩ := ht.block_eq hstands hsame
      have himport' := ht.selfImport
      rw [hb] at himport'
      rcases hbefore t.before t.candidate himport' hoffset with hserved | hcovered
      · exact Or.inl hserved
      · refine Or.inr ?_
        rw [Site.Overlaid, hb]
        exact hcovered

end Run

end DocSnippets
