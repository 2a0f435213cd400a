import DocSnippets.Proofs.Snippet.Segments

/-!
# Where a snippet is cut

The segments of a snippet, cut outside of quotes, are those of its first part and those of the rest,
unless the first part ends in a piece of a lead. Then they are the same up to this piece, which
stays where the first part stands alone.
-/

namespace DocSnippets.Snippet

open Text

variable {name passed text rest front back : List Char} {before : Option Char}
  {k : Candidate} {alone whole : List Segment}

/-- A candidate behind its lead. -/
def Candidate.quoted (name : List Char) (k : Candidate) : List Char :=
  k.opening :: (name ++ (k.subpath.getD [] ++ [k.closing]))

theorem Candidate.text_eq (name : List Char) (k : Candidate) :
    k.text name = k.lead ++ k.quoted name := rfl

/-- A place between the quotes of a candidate. -/
def InLiteral (name source front : List Char) : Prop :=
  ∃ start k, Candidate.StandsIn k name source start ∧ (start ++ k.lead).length < front.length ∧
    front.length < (start ++ k.text name).length

/-- What stands around a place between quotes stands between these quotes or is one of them. -/
theorem InLiteral.neighbours (h : InLiteral name (front ++ back) front) :
    ∃ k : Candidate, k.WellFormed ∧ (∃ c ∈ front.getLast?, c ∈ k.quoted name) ∧
      ∃ c ∈ back.head?, c ∈ k.quoted name := by
  obtain ⟨start, k, hk, hopened, hclosed⟩ := h
  rw [Candidate.text_eq, ← List.append_assoc] at hclosed
  have hsource : front ++ back = (start ++ k.lead) ++ (k.quoted name ++ k.rest) := by
    rw [hk.source_eq, Candidate.text_eq]
    simp only [List.append_assoc]
  obtain ⟨left, right, rfl, hquoted, rfl⟩ :=
    exists_append_of_between hsource (Nat.le_of_lt hopened) (Nat.le_of_lt hclosed)
  have hleft : left ≠ [] := by
    rintro rfl
    simp at hopened
  have hright : right ≠ [] := by
    rintro rfl
    rw [hquoted, List.append_nil] at hclosed
    exact absurd hclosed (Nat.lt_irrefl _)
  refine ⟨k, hk.wellFormed, ⟨left.getLast hleft, ?_, ?_⟩, right.head hright, ?_, ?_⟩
  · rw [List.getLast?_append_of_ne_nil _ hleft]
    exact List.getLast?_eq_some_getLast hleft
  · rw [hquoted]
    exact List.mem_append_left _ (List.getLast_mem hleft)
  · rw [List.head?_append_of_ne_nil _ hright]
    exact List.head?_eq_some_head hright
  · rw [hquoted]
    exact List.mem_append_right _ (List.head_mem hright)

theorem newline_not_mem_ending (hk : k.WellFormed) :
    '\n' ∉ k.subpath.getD [] ++ [k.closing] := by
  intro hmem
  rcases List.mem_append.mp hmem with hmem | hclosing
  · have hread : candidate? [] (k.text [] ++ k.rest) = some k := candidate?_of_wellFormed hk _
    rcases candidate?_subpath hread _ hmem with hc | hc
    · exact absurd hc (by decide)
    · exact absurd hc (by decide)
  · exact absurd (List.mem_singleton.mp hclosing ▸ hk.closing) (by decide)

theorem newline_not_mem_quoted (hname : '\n' ∉ name) (hk : k.WellFormed) :
    '\n' ∉ k.quoted name := by
  intro hmem
  rcases List.mem_cons.mp hmem with hopening | hmem
  · exact absurd (hopening ▸ hk.opening) (by decide)
  · exact (List.mem_append.mp hmem).elim hname (newline_not_mem_ending hk)

/-- A text of which every character stays. -/
def plain (text : List Char) : List Segment := text.map fun c => .verbatim [c]

theorem textOf_plain (text : List Char) : textOf (plain text) = text := by
  induction text with
  | nil => rfl
  | cons c rest ih => simpa [plain, Segment.text] using ih

theorem segmentsFrom_eq_plain (h : ∀ c ∈ text, ¬ isQuote c = true) :
    segmentsFrom name before text = plain text := by
  induction text generalizing before with
  | nil =>
    rw [segmentsFrom]
    rfl
  | cons c rest ih =>
    have hunread : segmentsFrom name before (c :: rest) =
        .verbatim [c] :: segmentsFrom name (some c) rest := by
      refine segmentsFrom_of_unread fun k hk => ?_
      have hopening : k.opening ∈ c :: rest := by
        rw [candidate?_eq hk]
        simp
      exact absurd (candidate?_opening hk) (h _ hopening)
    rw [hunread, ih fun d hd => h d (List.mem_cons_of_mem c hd)]
    rfl

/-- A text ends in a piece of a lead that goes on behind it: the segments are those of the text
alone up to this piece, and alone the piece stays. -/
def EndsInLead (name source passed text : List Char) (alone whole : List Segment) : Prop :=
  ∃ start tail k first more others, Candidate.StandsIn k name source (passed ++ start) ∧
    text = start ++ tail ∧ tail ≠ [] ∧ tail <+: k.lead ∧ alone = first ++ plain tail ∧
    whole = first ++ .verbatim (tail ++ more) :: others

/-- The segments of a text, alone and with more behind it. -/
def Continued (name passed text rest : List Char) (alone whole : List Segment) : Prop :=
  whole = alone ++ segmentsFrom name (passed ++ text).getLast? rest ∨
    EndsInLead name (passed ++ (text ++ rest)) passed text alone whole

theorem Continued.behind {s : List Segment}
    (h : Continued name (passed ++ textOf s) text rest alone whole) :
    Continued name passed (textOf s ++ text) rest (s ++ alone) (s ++ whole) := by
  rcases h with rfl | ⟨start, tail, k, first, more, others, hk, rfl, htail, hlead, rfl, rfl⟩
  · left
    simp only [List.append_assoc]
  · right
    refine ⟨textOf s ++ start, tail, k, s ++ first, more, others, ?_, ?_, htail, hlead, ?_, ?_⟩
    · simpa only [List.append_assoc] using hk
    all_goals simp only [List.append_assoc]

theorem exists_verbatim_lead (name : List Char) (k : Candidate) :
    ∃ more others, k.segments name = .verbatim (k.lead ++ more) :: others := by
  unfold Candidate.segments
  split
  · exact ⟨_, _, rfl⟩
  · exact ⟨_, _, by rw [List.append_assoc, List.append_assoc]⟩

/-- A candidate that is read in a text with more behind it, and not in the text alone, has the text
in its lead. -/
theorem prefix_lead (hcut : ¬ InLiteral name (passed ++ (text ++ rest)) (passed ++ text))
    (hk : k.StandsIn name (passed ++ (text ++ rest)) passed)
    (halone : ∀ more, candidate? name text ≠ some { k with rest := more }) : text <+: k.lead := by
  have htext : text ++ rest = k.text name ++ k.rest := List.append_cancel_left hk.source_eq
  have hlead : k.lead <+: text ++ rest := by
    rw [htext, Candidate.text_eq, List.append_assoc]
    exact List.prefix_append _ _
  refine List.prefix_of_prefix_length_le (List.prefix_append _ rest) hlead ?_
  by_contra hlt
  have hlonger : text.length < (k.text name).length := by
    by_contra hle
    obtain ⟨more, rfl, -⟩ := exists_append_of_length_le htext.symm (Nat.le_of_not_lt hle)
    exact halone more (candidate?_of_wellFormed hk.wellFormed more)
  refine hcut ⟨passed, k, hk, ?_, ?_⟩
  all_goals
    simp only [List.length_append]
    omega

/-- A character that stays in a text alone stays with more behind it, or starts a candidate whose
lead the text ends in. -/
theorem continued_unread {c : Char} (hbefore : before = passed.getLast?)
    (hcut : ¬ InLiteral name (passed ++ (c :: text ++ rest)) (passed ++ c :: text))
    (hnone : ∀ k, candidate? name (c :: text) = some k → ¬ isWordBoundary before (some c) = true)
    (ih : ¬ InLiteral name ((passed ++ [c]) ++ (text ++ rest)) ((passed ++ [c]) ++ text) →
      Continued name (passed ++ [c]) text rest (segmentsFrom name (some c) text)
        (segmentsFrom name (some c) (text ++ rest))) :
    Continued name passed (c :: text) rest (.verbatim [c] :: segmentsFrom name (some c) text)
      (segmentsFrom name before (c :: text ++ rest)) := by
  by_cases hread : ∃ k, candidate? name (c :: (text ++ rest)) = some k ∧
      isWordBoundary before (some c) = true
  · obtain ⟨k, hk, hboundary⟩ := hread
    have hstands := (Candidate.isFirst_of_read hbefore hk hboundary).stands
    obtain ⟨more, hmore⟩ : c :: text <+: k.lead :=
      prefix_lead hcut hstands fun _ halone => hnone _ halone hboundary
    have hplain : segmentsFrom name (some c) text = plain text := by
      refine segmentsFrom_eq_plain fun d hd => hstands.wellFormed.lead.not_isQuote d ?_
      rw [← hmore]
      exact List.mem_append_left _ (List.mem_cons_of_mem c hd)
    obtain ⟨verbatim, others, hsegments⟩ := exists_verbatim_lead name k
    right
    refine ⟨[], c :: text, k, [], more ++ verbatim,
      others ++ segmentsFrom name (some k.closing) k.rest, ?_, rfl, by simp, ⟨more, hmore⟩, ?_, ?_⟩
    · rw [List.append_nil]
      exact hstands
    · rw [hplain]
      rfl
    · rw [List.cons_append, segmentsFrom_of_read hk hboundary, hsegments, ← hmore]
      simp
  · rw [List.cons_append, segmentsFrom_of_unread fun k hk hb => hread ⟨k, hk, hb⟩]
    refine Continued.behind (s := [.verbatim [c]]) (ih ?_)
    simpa using hcut

variable (passed) in
/-- Where a text is cut outside of quotes, its segments go on behind the cut, or a lead does. -/
theorem continued (hbefore : before = passed.getLast?)
    (hcut : ¬ InLiteral name (passed ++ (text ++ rest)) (passed ++ text)) :
    Continued name passed text rest (segmentsFrom name before text)
      (segmentsFrom name before (text ++ rest)) := by
  fun_induction segmentsFrom name before text generalizing passed with
  | case1 =>
    left
    rw [hbefore, List.append_nil]
    rfl
  | case2 before c text k hk hboundary ih =>
    obtain ⟨hwell, htext⟩ := candidate?_eq_some_iff.mp hk
    have hlast : some k.closing = (passed ++ textOf (k.segments name)).getLast? := by
      rw [textOf_candidate, List.getLast?_append_of_ne_nil _ (k.text_ne_nil name), k.getLast?_text]
    have hlonger : candidate? name (c :: (text ++ rest)) =
        some { k with rest := k.rest ++ rest } := by
      rw [← List.cons_append, htext, List.append_assoc]
      exact candidate?_of_wellFormed hwell _
    rw [List.cons_append, segmentsFrom_of_read hlonger hboundary, htext, ← textOf_candidate]
    refine Continued.behind (ih _ hlast ?_)
    rw [htext] at hcut
    simpa [textOf_candidate] using hcut
  | case3 before c text k hk hboundary ih =>
    exact continued_unread hbefore hcut (fun _ _ => hboundary) (ih _ (by simp))
  | case4 before c text hk ih =>
    refine continued_unread hbefore hcut (fun k hread => ?_) (ih _ (by simp))
    rw [hk] at hread
    cases hread

end DocSnippets.Snippet
