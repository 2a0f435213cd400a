import DocSnippets.Proofs.Package.ResolvedPath

/-!
# Patterns of subpaths

A pattern fits the requests that have some nonempty segment where the pattern has its star. Among
the patterns that fit a request the longest text before the star decides, then the order of
declaration.
-/

namespace DocSnippets

open Text

namespace Resolution

/-- A pattern with exactly one star fits a request that has a nonempty segment where the pattern has
the star; `lead` is the text before the star. -/
inductive Fits : List Char → List Char → List Char → List Char → Prop where
  | intro {lead segment tail} (hlead : '*' ∉ lead) (htail : '*' ∉ tail) (hsegment : segment ≠ []) :
      Fits (lead ++ '*' :: tail) (lead ++ (segment ++ tail)) lead segment

/-- A key with exactly one star; `lead` is the text before it. -/
inductive OneStar : List Char → List Char → Prop where
  | intro {lead tail} (hlead : '*' ∉ lead) (htail : '*' ∉ tail) : OneStar (lead ++ '*' :: tail) lead

theorem OneStar.starPosition {key lead : List Char} (h : OneStar key lead) :
    starPosition key = lead.length := by
  obtain ⟨hlead, -⟩ := h
  have hplain : ∀ c ∈ lead, (c != '*') = true := by
    intro c hc
    rw [bne_iff_ne]
    rintro rfl
    exact hlead hc
  rw [Resolution.starPosition, List.takeWhile_append_of_pos hplain,
    List.takeWhile_cons_of_neg (by decide), List.append_nil]

theorem Fits.oneStar {pattern request lead segment : List Char}
    (h : Fits pattern request lead segment) : OneStar pattern lead ∧ lead <+: request := by
  cases h with
  | intro hlead htail hsegment => exact ⟨.intro hlead htail, List.prefix_append _ _⟩

theorem Fits.starPosition {pattern request lead segment : List Char}
    (h : Fits pattern request lead segment) : starPosition pattern = lead.length :=
  h.oneStar.1.starPosition

theorem ends_of_segment (lead segment tail : List Char) :
    (lead.isPrefixOf (lead ++ (segment ++ tail)) &&
      tail.isSuffixOf (lead ++ (segment ++ tail))) = true := by
  rw [Bool.and_eq_true, List.isPrefixOf_iff_prefix, List.isSuffixOf_iff_suffix]
  exact ⟨List.prefix_append _ _, lead ++ segment, by rw [List.append_assoc]⟩

theorem capture?_of_fits {pattern request lead segment : List Char}
    (h : Fits pattern request lead segment) : capture? pattern request = some segment := by
  obtain ⟨hlead, htail, hsegment⟩ := h
  rename_i tail
  have hpos := List.length_pos_iff.mpr hsegment
  have hstar : ¬ tail.contains '*' = true := by simpa using htail
  have hlong : ¬ (lead ++ (segment ++ tail)).length ≤ lead.length + tail.length := by
    simp only [List.length_append]
    omega
  have hlength : (lead ++ (segment ++ tail)).length - lead.length - tail.length =
      segment.length := by
    simp only [List.length_append]
    omega
  rw [capture?, cut?_singleton hlead]
  dsimp only
  rw [if_neg hstar, if_neg hlong, if_pos (ends_of_segment lead segment tail),
    List.drop_left, hlength, List.take_left]

/-- The two ends of a request are apart, with a segment between them, or they overlap. -/
theorem segment_or_overlap {request lead tail : List Char} (hlead : lead <+: request)
    (htail : tail <:+ request) :
    (∃ segment, request = lead ++ (segment ++ tail)) ∨
      ∃ front shared back, lead = front ++ shared ∧ tail = shared ++ back ∧
        request = front ++ (shared ++ back) := by
  obtain ⟨back, rfl⟩ := hlead
  obtain ⟨front, hfront⟩ := htail
  rcases List.append_eq_append_iff.mp hfront with ⟨shared, rfl, rfl⟩ | ⟨segment, rfl, rfl⟩
  · exact .inr ⟨front, shared, back, rfl, rfl, List.append_assoc _ _ _⟩
  · exact .inl ⟨segment, rfl⟩

theorem fits_of_capture? {pattern request segment : List Char}
    (h : capture? pattern request = some segment) : ∃ lead, Fits pattern request lead segment := by
  unfold capture? at h
  split at h
  · cases h
  · next lead tail hcut =>
    have hlead : '*' ∉ lead := fun hmem =>
      not_infix_of_cut? (by decide) hcut ((List.singleton_infix_iff _ _).mpr hmem)
    obtain rfl := eq_append_of_cut? hcut
    split at h
    · cases h
    · next hstar =>
      split at h
      · cases h
      · next hlong =>
        split at h
        · next hends =>
          rw [Bool.and_eq_true, List.isPrefixOf_iff_prefix, List.isSuffixOf_iff_suffix] at hends
          -- The request is long enough to keep the two ends of the pattern apart.
          rcases segment_or_overlap hends.1 hends.2 with
            ⟨x, rfl⟩ | ⟨front, shared, back, rfl, rfl, rfl⟩
          · have hlength : (lead ++ (x ++ tail)).length - lead.length - tail.length = x.length := by
              simp only [List.length_append]
              omega
            rw [List.drop_left, hlength, List.take_left] at h
            obtain rfl := Option.some.inj h
            refine ⟨lead, ?_⟩
            rw [List.append_assoc, List.singleton_append]
            refine .intro hlead (by simpa using hstar) ?_
            rintro rfl
            exact hlong (by simp only [List.length_append, List.length_nil]; omega)
          · simp only [List.length_append] at hlong
            omega
        · cases h

theorem foldl_better_eq_none_iff {ks : List Candidate} : ks.foldl better none = none ↔ ks = [] := by
  constructor
  · intro h
    induction ks using List.reverseRecOn with
    | nil => rfl
    | append_singleton ks next ih =>
      rw [List.foldl_append, List.foldl_cons, List.foldl_nil] at h
      cases hbest : ks.foldl better none with
      | none =>
        rw [hbest] at h
        cases h
      | some b =>
        rw [hbest, better] at h
        split at h <;> cases h
  · rintro rfl
    rfl

theorem foldl_better_of_le {ks : List Candidate} {k : Candidate}
    (h : ∀ x ∈ ks, x.position ≤ k.position) : ks.foldl better (some k) = some k := by
  induction ks with
  | nil => rfl
  | cons x ks ih =>
    have hx : ¬ k.position < x.position := Nat.not_lt_of_le (h x List.mem_cons_self)
    rw [List.foldl_cons, better, if_neg hx]
    exact ih fun y hy => h y (List.mem_cons_of_mem x hy)

/-- The best candidate has the longest text before the star, and is the first of those. -/
theorem foldl_better_eq_some_iff {ks : List Candidate} {k : Candidate} :
    ks.foldl better none = some k ↔ ∃ earlier later, ks = earlier ++ k :: later ∧
      (∀ x ∈ earlier, x.position < k.position) ∧ ∀ x ∈ later, x.position ≤ k.position := by
  constructor
  · intro h
    induction ks using List.reverseRecOn generalizing k with
    | nil => cases h
    | append_singleton ks next ih =>
      rw [List.foldl_append, List.foldl_cons, List.foldl_nil] at h
      cases hbest : ks.foldl better none with
      | none =>
        obtain rfl := foldl_better_eq_none_iff.mp hbest
        obtain rfl := Option.some.inj h
        exact ⟨[], [], rfl, fun x hx => absurd hx List.not_mem_nil,
          fun x hx => absurd hx List.not_mem_nil⟩
      | some b =>
        obtain ⟨earlier, later, rfl, hearlier, hlater⟩ := ih hbest
        rw [hbest, better] at h
        by_cases hlt : b.position < next.position
        · rw [if_pos hlt] at h
          obtain rfl := Option.some.inj h
          refine ⟨earlier ++ b :: later, [], rfl, ?_, fun x hx => absurd hx List.not_mem_nil⟩
          intro x hx
          rcases List.mem_append.mp hx with hx | hx
          · exact (hearlier x hx).trans hlt
          · rcases List.mem_cons.mp hx with rfl | hx
            · exact hlt
            · exact (hlater x hx).trans_lt hlt
        · rw [if_neg hlt] at h
          obtain rfl := Option.some.inj h
          refine ⟨earlier, later ++ [next], ?_, hearlier, ?_⟩
          · rw [List.append_assoc, List.cons_append]
          intro x hx
          rcases List.mem_append.mp hx with hx | hx
          · exact hlater x hx
          · obtain rfl := List.mem_singleton.mp hx
            exact Nat.le_of_not_lt hlt
  · rintro ⟨earlier, later, rfl, hearlier, hlater⟩
    have hk : better (earlier.foldl better none) k = some k := by
      cases hbest : earlier.foldl better none with
      | none => rfl
      | some b =>
        have hb : b ∈ earlier := (mem_of_foldl_better hbest).resolve_right (by rintro ⟨⟩)
        rw [better, if_pos (hearlier b hb)]
    rw [List.foldl_append, List.foldl_cons, hk, foldl_better_of_le hlater]

/-- The candidate that an entry is, if its key fits the request. -/
def candidate? (request : List Char) (e : String × ExportTarget) : Option Candidate :=
  (capture? e.1.toList request).map fun segment => ⟨starPosition e.1.toList, segment, e.2⟩

theorem candidates_eq (request : List Char) (entries : List (String × ExportTarget)) :
    candidates request entries = entries.filterMap (candidate? request) := rfl

theorem candidate?_of_fits {request lead segment : List Char} {e : String × ExportTarget}
    (h : Fits e.1.toList request lead segment) :
    candidate? request e = some ⟨lead.length, segment, e.2⟩ := by
  rw [candidate?, capture?_of_fits h, Option.map_some, h.starPosition]

theorem fits_of_candidate? {request : List Char} {e : String × ExportTarget} {k : Candidate}
    (h : candidate? request e = some k) : ∃ lead, Fits e.1.toList request lead k.captured ∧
      k.position = lead.length ∧ k.target = e.2 := by
  obtain ⟨segment, hsegment, rfl⟩ := Option.map_eq_some_iff.mp h
  obtain ⟨lead, hfits⟩ := fits_of_capture? hsegment
  exact ⟨lead, hfits, hfits.starPosition, rfl⟩

theorem candidate?_eq_none_iff {request : List Char} {e : String × ExportTarget} :
    candidate? request e = none ↔ ∀ lead segment, ¬ Fits e.1.toList request lead segment := by
  constructor
  · intro h lead segment hfits
    rw [candidate?_of_fits hfits] at h
    cases h
  · intro h
    cases hk : candidate? request e with
    | none => rfl
    | some k =>
      obtain ⟨lead, hfits, -, -⟩ := fits_of_candidate? hk
      exact absurd hfits (h lead k.captured)

/-- Where the best candidate stands among the entries. -/
theorem best_eq_some_iff {request : List Char} {entries : List (String × ExportTarget)}
    {k : Candidate} : (candidates request entries).foldl better none = some k ↔
      ∃ earlier e later, entries = earlier ++ e :: later ∧ candidate? request e = some k ∧
        (∀ x ∈ candidates request earlier, x.position < k.position) ∧
        ∀ x ∈ candidates request later, x.position ≤ k.position := by
  rw [foldl_better_eq_some_iff, candidates_eq]
  constructor
  · rintro ⟨before, after, hsplit, hbefore, hafter⟩
    obtain ⟨front, back, rfl, rfl, hback⟩ := List.filterMap_eq_append_iff.mp hsplit
    obtain ⟨skipped, e, later, rfl, hskipped, he, rfl⟩ := List.filterMap_eq_cons_iff.mp hback
    refine ⟨front ++ skipped, e, later, by rw [List.append_assoc], he, ?_, hafter⟩
    rw [candidates_eq, List.filterMap_append, List.filterMap_eq_nil_iff.mpr hskipped,
      List.append_nil]
    exact hbefore
  · rintro ⟨earlier, e, later, rfl, he, hearlier, hlater⟩
    refine ⟨_, _, ?_, hearlier, hlater⟩
    rw [List.filterMap_append, List.filterMap_cons_some he]
    rfl

end Resolution

end DocSnippets
