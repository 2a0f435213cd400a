import DocSnippets.Proofs.Package.Patterns
import DocSnippets.Proofs.Text.Slices

/-!
# Captured segments

What stands for the star of a pattern is a slice of the request, between the end of the text before
the star and the start of the text behind it. Whatever the two hold and however they meet in the
request, the slice is cut between characters.
-/

namespace DocSnippets.Resolution

open Text

/-- The segment of a request by offsets: lengths are those of the UTF-8 forms, and the segment is
the slice between the two ends of the pattern. There is no answer when that slice is out of bounds
or would be cut inside a character. -/
def captureSlice? (pattern request : List Char) : Option (Option (List Char)) :=
  match cut? ['*'] pattern with
  | none => some none
  | some (before, after) =>
    if after.contains '*' then some none
    else if byteLength request ≤ byteLength before + byteLength after then some none
    else if before.isPrefixOf request && after.isSuffixOf request then
      (slice? request (byteLength before) (byteLength request - byteLength after)).map some
    else some none

variable {pattern request lead tail segment : List Char}

theorem slice?_segment (lead segment tail : List Char) :
    slice? (lead ++ (segment ++ tail)) (byteLength lead)
      (byteLength (lead ++ (segment ++ tail)) - byteLength tail) = some segment := by
  have hstop : byteLength (lead ++ (segment ++ tail)) - byteLength tail =
      byteLength lead + byteLength segment := by
    simp only [byteLength_append]
    omega
  rw [hstop, slice?_append]

theorem byteLength_pos (h : segment ≠ []) : 0 < byteLength segment := by
  obtain ⟨c, rest, rfl⟩ := List.exists_cons_of_ne_nil h
  exact c.utf8Size_pos.trans_le (Nat.le_add_right _ _)

theorem captureSlice?_of_fits (h : Fits pattern request lead segment) :
    captureSlice? pattern request = some (some segment) := by
  obtain ⟨hlead, htail, hsegment⟩ := h
  rename_i tail
  have hpos := byteLength_pos hsegment
  have hstar : ¬ tail.contains '*' = true := by simpa using htail
  have hlong : ¬ byteLength (lead ++ (segment ++ tail)) ≤ byteLength lead + byteLength tail := by
    simp only [byteLength_append]
    omega
  rw [captureSlice?, cut?_singleton hlead]
  dsimp only
  rw [if_neg hstar, if_neg hlong, if_pos (ends_of_segment lead segment tail), slice?_segment,
    Option.map_some]

/-- A request that is longer than the two ends of a pattern and has both holds a segment. -/
theorem exists_segment (hlong : byteLength lead + byteLength tail < byteLength request)
    (hlead : lead <+: request) (htail : tail <:+ request) :
    ∃ segment, segment ≠ [] ∧ request = lead ++ (segment ++ tail) := by
  rcases segment_or_overlap hlead htail with
    ⟨segment, rfl⟩ | ⟨front, shared, back, rfl, rfl, rfl⟩
  · refine ⟨segment, ?_, rfl⟩
    rintro rfl
    simp only [byteLength_append, byteLength] at hlong
    omega
  · simp only [byteLength_append] at hlong
    omega

theorem fits_or_captureSlice?_none (pattern request : List Char) :
    (∃ lead segment, Fits pattern request lead segment) ∨
      captureSlice? pattern request = some none := by
  unfold captureSlice?
  split
  · exact .inr rfl
  · next lead tail hcut =>
    have hlead : '*' ∉ lead := fun hmem =>
      not_infix_of_cut? (by decide) hcut ((List.singleton_infix_iff _ _).mpr hmem)
    obtain rfl := eq_append_of_cut? hcut
    split
    · exact .inr rfl
    · next hstar =>
      split
      · exact .inr rfl
      · next hlong =>
        split
        · next hends =>
          rw [Bool.and_eq_true, List.isPrefixOf_iff_prefix, List.isSuffixOf_iff_suffix] at hends
          obtain ⟨segment, hsegment, rfl⟩ := exists_segment (Nat.lt_of_not_le hlong) hends.1 hends.2
          refine .inl ⟨lead, segment, ?_⟩
          rw [List.append_assoc, List.singleton_append]
          exact .intro hlead (by simpa using hstar) hsegment
        · exact .inr rfl

/-- By offsets the same segment is found, and its slice always exists. -/
theorem captureSlice?_eq (pattern request : List Char) :
    captureSlice? pattern request = some (capture? pattern request) := by
  rcases fits_or_captureSlice?_none pattern request with ⟨lead, segment, hfits⟩ | hnone
  · rw [captureSlice?_of_fits hfits, capture?_of_fits hfits]
  · cases hcapture : capture? pattern request with
    | none => exact hnone
    | some segment =>
      obtain ⟨lead, hfits⟩ := fits_of_capture? hcapture
      rw [captureSlice?_of_fits hfits] at hnone
      cases hnone

/-- A pattern captures a segment of a request exactly when the pattern has one star and the request
is the pattern with the segment, which is not empty, in the place of the star; otherwise it captures
nothing. There is one such segment at most, and taking it as a slice of the request never leaves the
request and never cuts a character. -/
theorem capture_exact (pattern request : List Char) :
    (∀ segment, capture? pattern request = some segment ↔
      ∃ lead, Fits pattern request lead segment) ∧
    (capture? pattern request = none ↔ ∀ lead segment, ¬ Fits pattern request lead segment) ∧
    (∀ lead lead' segment segment', Fits pattern request lead segment →
      Fits pattern request lead' segment' → segment = segment') ∧
    captureSlice? pattern request = some (capture? pattern request) := by
  have hiff : ∀ segment, capture? pattern request = some segment ↔
      ∃ lead, Fits pattern request lead segment := fun segment =>
    ⟨fits_of_capture?, fun ⟨_, hfits⟩ => capture?_of_fits hfits⟩
  refine ⟨hiff, ?_, ?_, captureSlice?_eq pattern request⟩
  · rw [Option.eq_none_iff_forall_ne_some]
    constructor
    · intro hnone lead segment hfits
      exact hnone segment ((hiff segment).mpr ⟨lead, hfits⟩)
    · intro hunfit segment hcapture
      obtain ⟨lead, hfits⟩ := (hiff segment).mp hcapture
      exact hunfit lead segment hfits
  · intro lead lead' segment segment' hfits hfits'
    have hsame := (capture?_of_fits hfits).symm.trans (capture?_of_fits hfits')
    exact Option.some.inj hsame

/-- Both ends of the pattern start with the same wide character, so that they could share it in a
request. -/
theorem capture_exact_wide :
    Fits "é*é.ts".toList "éé-é.ts".toList ['é'] "é-".toList ∧
      (∀ lead segment, Fits "é*é.ts".toList "éé-é.ts".toList lead segment →
        "é-".toList = segment) ∧
      captureSlice? "é*é.ts".toList "éé-é.ts".toList = some (some "é-".toList) ∧
      ∀ lead segment, ¬ Fits "é*é.ts".toList "é.ts".toList lead segment := by
  have hfits : Fits "é*é.ts".toList "éé-é.ts".toList ['é'] "é-".toList :=
    @Fits.intro ['é'] "é-".toList "é.ts".toList (by decide) (by decide) (by decide)
  obtain ⟨hsome, -, hunique, hslice⟩ := capture_exact "é*é.ts".toList "éé-é.ts".toList
  refine ⟨hfits, fun lead segment => hunique _ lead _ segment hfits, ?_, ?_⟩
  · rw [hslice, (hsome _).mpr ⟨_, hfits⟩]
  · exact (capture_exact "é*é.ts".toList "é.ts".toList).2.1.mp (by decide)

end DocSnippets.Resolution
