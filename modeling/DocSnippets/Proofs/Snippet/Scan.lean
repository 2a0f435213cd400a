import DocSnippets.Proofs.Snippet.Candidate

/-!
# What the scan of a snippet finds

The segments of a snippet concatenate to it. A self-import is a candidate with equal quotes. The
specifiers among the segments are those of self-imports, and every self-import is among them unless
an earlier candidate reaches into it: the search goes on behind the closing quote of a candidate,
also of one with different quotes.
-/

namespace DocSnippets.Snippet

open Text

def textOf (segments : List Segment) : List Char := (segments.map Segment.text).flatten

@[simp] theorem textOf_nil : textOf [] = [] := rfl

@[simp] theorem textOf_cons (s : Segment) (rest : List Segment) :
    textOf (s :: rest) = s.text ++ textOf rest := rfl

@[simp] theorem textOf_append (a b : List Segment) : textOf (a ++ b) = textOf a ++ textOf b := by
  simp [textOf]

theorem textOf_candidate (name : List Char) (k : Candidate) :
    textOf (k.segments name) = k.text name := by
  unfold Candidate.segments
  split <;> simp [Segment.text, Candidate.text]

theorem segmentsFrom_of_read {name rest : List Char} {before : Option Char} {c : Char}
    {k : Candidate} (hk : candidate? name (c :: rest) = some k)
    (hboundary : isWordBoundary before (some c) = true) :
    segmentsFrom name before (c :: rest) =
      k.segments name ++ segmentsFrom name (some k.closing) k.rest := by
  rw [segmentsFrom]
  split
  · next k' hk' =>
    obtain rfl := Option.some.inj (hk.symm.trans hk')
    rw [if_pos hboundary]
  · next hk' =>
    rw [hk] at hk'
    cases hk'

theorem segmentsFrom_of_unread {name rest : List Char} {before : Option Char} {c : Char}
    (hnone : ∀ k, candidate? name (c :: rest) = some k → ¬ isWordBoundary before (some c) = true) :
    segmentsFrom name before (c :: rest) = .verbatim [c] :: segmentsFrom name (some c) rest := by
  rw [segmentsFrom]
  split
  · next k hk => rw [if_neg (hnone k hk)]
  · rfl

theorem textOf_segmentsFrom (name : List Char) (before : Option Char) (text : List Char) :
    textOf (segmentsFrom name before text) = text := by
  fun_induction segmentsFrom name before text with
  | case1 => rfl
  | case2 before c rest k hk hboundary ih =>
    rw [textOf_append, textOf_candidate, ih, (candidate?_eq_some_iff.mp hk).2]
  | case3 before c rest k hk hboundary ih =>
    rw [textOf_cons, ih, Segment.text, List.singleton_append]
  | case4 before c rest hk ih => rw [textOf_cons, ih, Segment.text, List.singleton_append]

/-- Nothing is lost between segments. -/
theorem textOf_segments (name text : List Char) : textOf (segments name text) = text :=
  textOf_segmentsFrom name none text

namespace Candidate

variable {name : List Char}

/-- A candidate of a source, with the text before it: it starts at a word boundary. -/
structure StandsIn (k : Candidate) (name source before : List Char) : Prop where
  wellFormed : k.WellFormed
  source_eq : source = before ++ (k.text name ++ k.rest)
  boundary : isWordBoundary before.getLast? k.lead.head? = true

theorem text_ne_nil (name : List Char) (k : Candidate) : k.text name ≠ [] :=
  List.append_ne_nil_of_right_ne_nil _ (List.cons_ne_nil _ _)

theorem getLast?_text (name : List Char) (k : Candidate) :
    (k.text name).getLast? = some k.closing := by
  have htext : k.text name =
      (k.lead ++ k.opening :: (name ++ k.subpath.getD [])) ++ [k.closing] := by simp [text]
  rw [htext, List.getLast?_concat]

theorem head?_lead {k : Candidate} (h : k.WellFormed) {c : Char} {rest : List Char}
    (htext : c :: rest = k.text name ++ k.rest) : k.lead.head? = some c := by
  obtain ⟨d, lead, hlead⟩ := List.exists_cons_of_ne_nil h.lead.ne_nil
  rw [text, hlead] at htext
  rw [hlead, List.head?_cons, (List.cons.inj htext).1]

theorem segments_eq_append {k : Candidate} {front back : List Segment} {n : List Char}
    {subpath : Option (List Char)} (h : k.segments name = front ++ .specifier n subpath :: back) :
    k.opening = k.closing ∧ n = name ∧ subpath = k.subpath ∧
      front = [.verbatim (k.lead ++ [k.opening])] ∧ back = [.verbatim [k.closing]] := by
  unfold segments at h
  split at h
  · next hquotes =>
    rcases front with _ | ⟨s₁, _ | ⟨s₂, _ | ⟨s₃, front⟩⟩⟩
    · simp at h
    · simp only [List.cons_append, List.nil_append, List.cons.injEq, Segment.specifier.injEq] at h
      obtain ⟨rfl, ⟨rfl, rfl⟩, rfl⟩ := h
      exact ⟨hquotes, rfl, rfl, rfl, rfl⟩
    · simp at h
    · simp at h
  · rcases front with _ | ⟨s, front⟩
    · simp at h
    · simp at h

end Candidate

/-- A self-import of a source, with the text before it: its quotes are the same. -/
structure SelfImport (name source before : List Char) (k : Candidate) : Prop where
  stands : k.StandsIn name source before
  quotes : k.opening = k.closing

/-- A candidate that starts before a place and ends behind it. -/
def Covered (name source before : List Char) : Prop :=
  ∃ start k, Candidate.StandsIn k name source start ∧ start.length < before.length ∧
    before.length < (start ++ k.text name).length

namespace Candidate

/-- The first candidate of a source from an offset on. -/
structure IsFirst (k : Candidate) (name source : List Char) (offset : Nat) (before : List Char) :
    Prop where
  stands : k.StandsIn name source before
  behind : offset ≤ before.length
  first : ∀ before' k', StandsIn k' name source before' → offset ≤ before'.length →
    before.length ≤ before'.length

/-- Where no candidate starts in between, the first one from a later offset on is the first one. -/
theorem IsFirst.of_later {k : Candidate} {name source before : List Char} {offset later : Nat}
    (h : k.IsFirst name source later before) (hle : offset ≤ later)
    (hnone : ∀ start k', StandsIn k' name source start → offset ≤ start.length →
      later ≤ start.length) : k.IsFirst name source offset before where
  stands := h.stands
  behind := hle.trans h.behind
  first start k' hk' hstart := h.first start k' hk' (hnone start k' hk' hstart)

end Candidate

/-- The candidates that a search from an offset on takes: the first one that it meets, and the first
one behind each that it has taken. -/
inductive Taken (name source : List Char) (offset : Nat) : List Char → Candidate → Prop where
  | first {before k} (h : k.IsFirst name source offset before) : Taken name source offset before k
  | next {start k₀ before k} (h₀ : Taken name source offset start k₀)
      (h : k.IsFirst name source (start ++ k₀.text name).length before) :
      Taken name source offset before k

/-- A taken candidate starts before a place and ends behind it. -/
def Reached (name source : List Char) (offset : Nat) (before : List Char) : Prop :=
  ∃ start k, Taken name source offset start k ∧ start.length < before.length ∧
    before.length < (start ++ k.text name).length

namespace Taken

variable {name source before start : List Char} {offset later : Nat} {k k₀ : Candidate}

theorem stands (h : Taken name source offset before k) : k.StandsIn name source before := by
  cases h with
  | first h => exact h.stands
  | next _ h => exact h.stands

theorem of_later (h : Taken name source later before k) (hle : offset ≤ later)
    (hnone : ∀ start k', Candidate.StandsIn k' name source start → offset ≤ start.length →
      later ≤ start.length) : Taken name source offset before k := by
  induction h with
  | first h => exact .first (h.of_later hle hnone)
  | next _ h ih => exact .next ih h

theorem of_behind (h₀ : k₀.IsFirst name source offset start)
    (h : Taken name source (start ++ k₀.text name).length before k) :
    Taken name source offset before k := by
  induction h with
  | first h => exact .next (.first h₀) h
  | next _ h ih => exact .next ih h

end Taken

/-- The specifier of a self-import is one of the segments of the source: its opening quote ends the
segment before it, its closing quote is the segment behind it. -/
structure Segmented (name : List Char) (before : List Char) (k : Candidate)
    (front : List Segment) (n : List Char) (subpath : Option (List Char)) (back : List Segment) :
    Prop where
  name : n = name
  subpath : subpath = k.subpath
  front : ∃ segs, front = segs ++ [.verbatim (k.lead ++ [k.opening])] ∧ textOf segs = before
  back : ∃ segs, back = .verbatim [k.closing] :: segs ∧ textOf segs = k.rest

/-- An element of two lists one after the other stands in the second one or in the first one. -/
theorem append_eq_append_cons {α : Type} {a b front back : List α} {x : α}
    (h : a ++ b = front ++ x :: back) :
    (∃ front', front = a ++ front' ∧ b = front' ++ x :: back) ∨
      ∃ mid, a = front ++ x :: mid ∧ back = mid ++ b := by
  rcases List.append_eq_append_iff.mp h with hfront | ⟨mid, rfl, hback⟩
  · exact Or.inl hfront
  · rcases List.cons_eq_append_iff.mp hback with ⟨rfl, rfl⟩ | ⟨mid, rfl, rfl⟩
    · exact Or.inl ⟨[], by simp, rfl⟩
    · exact Or.inr ⟨mid, rfl, rfl⟩

section Scan

variable {name : List Char} {k : Candidate} {before : Option Char} {passed text : List Char}
  {front back : List Segment} {n : List Char} {subpath : Option (List Char)}

theorem Segmented.behind {start : List Char} (h : Segmented name start k front n subpath back)
    (segs : List Segment) :
    Segmented name (textOf segs ++ start) k (segs ++ front) n subpath back where
  name := h.name
  subpath := h.subpath
  front := by
    obtain ⟨first, rfl, htext⟩ := h.front
    exact ⟨segs ++ first, (List.append_assoc _ _ _).symm, by rw [textOf_append, htext]⟩
  back := h.back

theorem Segmented.textOf_front {start : List Char}
    (h : Segmented name start k front n subpath back) :
    textOf front = start ++ (k.lead ++ [k.opening]) := by
  obtain ⟨segs, rfl, rfl⟩ := h.front
  simp [Segment.text]

/-- The segments of a self-import that is read where the segments start. -/
theorem segmented_of_quotes (hquotes : k.opening = k.closing) (rest : List Segment)
    (hrest : textOf rest = k.rest) :
    k.segments name ++ rest =
        [.verbatim (k.lead ++ [k.opening])] ++
          .specifier name k.subpath :: .verbatim [k.closing] :: rest ∧
      Segmented name [] k [.verbatim (k.lead ++ [k.opening])] name k.subpath
        (.verbatim [k.closing] :: rest) := by
  rw [Candidate.segments, if_pos hquotes]
  exact ⟨rfl, rfl, rfl, ⟨[], rfl, rfl⟩, rest, rfl, hrest⟩

/-- A candidate at the very place where the segments start. -/
theorem Candidate.StandsIn.at_start (hbefore : before = passed.getLast?)
    (h : k.StandsIn name (passed ++ text) passed) :
    candidate? name text = some k ∧ isWordBoundary before text.head? = true := by
  have htext : text = k.text name ++ k.rest := List.append_cancel_left h.source_eq
  refine ⟨candidate?_eq_some_iff.mpr ⟨h.wellFormed, htext⟩, ?_⟩
  obtain ⟨c, rest, hcons⟩ := List.exists_cons_of_ne_nil (k.text_ne_nil name)
  rw [hcons, List.cons_append] at htext
  rw [hbefore, htext, List.head?_cons, ← Candidate.head?_lead h.wellFormed (by rw [hcons]; rfl)]
  exact h.boundary

/-- The candidate that is read where the segments start is the first one from there on. -/
theorem Candidate.isFirst_of_read {c : Char} {rest : List Char} (hbefore : before = passed.getLast?)
    (hk : candidate? name (c :: rest) = some k)
    (hboundary : isWordBoundary before (some c) = true) :
    k.IsFirst name (passed ++ c :: rest) passed.length passed := by
  obtain ⟨hwell, htext⟩ := candidate?_eq_some_iff.mp hk
  refine ⟨⟨hwell, by rw [htext], ?_⟩, Nat.le_refl _, fun _ _ _ hle => hle⟩
  rwa [← hbefore, Candidate.head?_lead hwell htext]

/-- Where no candidate starts at a character, the next one starts behind it. -/
theorem length_lt_of_unread {c : Char} {rest : List Char} (hbefore : before = passed.getLast?)
    (hnone : ∀ k, candidate? name (c :: rest) = some k →
      ¬ isWordBoundary before (some c) = true) :
    ∀ start k, Candidate.StandsIn k name (passed ++ c :: rest) start →
      passed.length ≤ start.length → passed.length + 1 ≤ start.length := by
  intro start k hk hle
  by_contra hlt
  have hlength : passed.length = start.length := by omega
  obtain ⟨rfl, -⟩ := List.append_inj hk.source_eq hlength
  obtain ⟨hread, hboundary⟩ := hk.at_start hbefore
  exact hnone k hread hboundary

/-- A specifier that is not in the first segments is one of the others. -/
theorem exists_taken_behind {s : List Segment} {tail : List Char}
    (hlift : ∀ start k, Taken name (passed ++ (textOf s ++ tail)) (passed ++ textOf s).length
      start k → Taken name (passed ++ (textOf s ++ tail)) passed.length start k)
    (ih : ∃ start k, Taken name ((passed ++ textOf s) ++ tail) (passed ++ textOf s).length
        ((passed ++ textOf s) ++ start) k ∧ k.opening = k.closing ∧
      Segmented name start k front n subpath back) :
    ∃ start k, Taken name (passed ++ (textOf s ++ tail)) passed.length (passed ++ start) k ∧
      k.opening = k.closing ∧ Segmented name start k (s ++ front) n subpath back := by
  obtain ⟨start, k, htaken, hquotes, hseg⟩ := ih
  rw [List.append_assoc, List.append_assoc] at htaken
  exact ⟨textOf s ++ start, k, hlift _ _ htaken, hquotes, hseg.behind s⟩

theorem exists_taken_verbatim {c : Char} (hbefore : before = passed.getLast?)
    (hnone : ∀ k, candidate? name (c :: text) = some k → ¬ isWordBoundary before (some c) = true)
    (ih : ∀ {front}, segmentsFrom name (some c) text = front ++ .specifier n subpath :: back →
      ∃ start k, Taken name ((passed ++ [c]) ++ text) (passed ++ [c]).length
          ((passed ++ [c]) ++ start) k ∧ k.opening = k.closing ∧
        Segmented name start k front n subpath back)
    (h : .verbatim [c] :: segmentsFrom name (some c) text = front ++ .specifier n subpath :: back) :
    ∃ start k, Taken name (passed ++ c :: text) passed.length (passed ++ start) k ∧
      k.opening = k.closing ∧ Segmented name start k front n subpath back := by
  rcases append_eq_append_cons (a := [Segment.verbatim [c]]) h with
    ⟨front', rfl, hrest⟩ | ⟨mid, hthis, -⟩
  · refine exists_taken_behind (s := [.verbatim [c]]) (fun start k htaken => ?_) (ih hrest)
    refine htaken.of_later (by simp) fun start k hk hle => ?_
    simpa [Segment.text] using length_lt_of_unread hbefore hnone start k hk hle
  · rcases front with _ | ⟨s, front⟩
    · simp at hthis
    · simp at hthis

variable (passed) in
/-- The specifiers among segments are those of the taken candidates with equal quotes. `passed` is
the text that the segments stand behind. -/
theorem exists_taken (hbefore : before = passed.getLast?)
    (h : segmentsFrom name before text = front ++ .specifier n subpath :: back) :
    ∃ start k, Taken name (passed ++ text) passed.length (passed ++ start) k ∧
      k.opening = k.closing ∧ Segmented name start k front n subpath back := by
  fun_induction segmentsFrom name before text generalizing passed front with
  | case1 => simp at h
  | case2 before c rest k hk hboundary ih =>
    have hfirst := Candidate.isFirst_of_read hbefore hk hboundary
    have htext := (candidate?_eq_some_iff.mp hk).2
    rcases append_eq_append_cons h with ⟨front', rfl, hrest⟩ | ⟨mid, hthis, rfl⟩
    · have hlast : some k.closing = (passed ++ k.text name).getLast? := by
        rw [List.getLast?_append_of_ne_nil _ (k.text_ne_nil name), k.getLast?_text]
      rw [htext] at hfirst ⊢
      rw [← textOf_candidate] at hlast ⊢
      refine exists_taken_behind (fun start k' htaken => ?_) (ih _ hlast hrest)
      rw [textOf_candidate] at htaken ⊢
      exact htaken.of_behind hfirst
    · obtain ⟨hquotes, rfl, rfl, rfl, rfl⟩ := Candidate.segments_eq_append hthis
      have hrest := textOf_segmentsFrom n (some k.closing) k.rest
      refine ⟨[], k, ?_, hquotes, (segmented_of_quotes hquotes _ hrest).2⟩
      rw [List.append_nil]
      exact .first hfirst
  | case3 before c rest k hk hboundary ih =>
    refine exists_taken_verbatim hbefore (fun _ _ => hboundary) (fun h => ih _ (by simp) h) h
  | case4 before c rest hk ih =>
    refine exists_taken_verbatim hbefore (fun k hread => ?_) (fun h => ih _ (by simp) h) h
    rw [hk] at hread
    cases hread

variable (passed) in
/-- The specifiers among segments are those of self-imports. -/
theorem exists_selfImport (hbefore : before = passed.getLast?)
    (h : segmentsFrom name before text = front ++ .specifier n subpath :: back) :
    ∃ start k, SelfImport name (passed ++ text) (passed ++ start) k ∧
      Segmented name start k front n subpath back := by
  obtain ⟨start, k, htaken, hquotes, hseg⟩ := exists_taken passed hbefore h
  exact ⟨start, k, ⟨htaken.stands, hquotes⟩, hseg⟩

theorem Candidate.StandsIn.head_eq {c d : Char} {gap : List Char}
    (h : k.StandsIn name (passed ++ c :: text) (passed ++ d :: gap)) : d = c := by
  have hsource := h.source_eq
  rw [List.append_assoc] at hsource
  exact (List.cons.inj (List.append_cancel_left hsource)).1.symm

/-- A candidate at a place is taken, and a specifier of the segments if its quotes are the same; or
a taken one reaches into it. -/
def TakenOrReached (name passed text start : List Char) (k : Candidate) (segs : List Segment) :
    Prop :=
  (Taken name (passed ++ text) passed.length (passed ++ start) k ∧
      (k.opening = k.closing → ∃ front back, segs = front ++ .specifier name k.subpath :: back ∧
        Segmented name start k front name k.subpath back)) ∨
    Reached name (passed ++ text) passed.length (passed ++ start)

/-- What holds of a candidate in the text behind the first segments holds in the whole text. -/
theorem TakenOrReached.behind {s rest : List Segment} {gap tail : List Char}
    (hlift : ∀ start k, Taken name (passed ++ (textOf s ++ tail)) (passed ++ textOf s).length
      start k → Taken name (passed ++ (textOf s ++ tail)) passed.length start k)
    (h : TakenOrReached name (passed ++ textOf s) tail gap k rest) :
    TakenOrReached name passed (textOf s ++ tail) (textOf s ++ gap) k (s ++ rest) := by
  simp only [TakenOrReached, List.append_assoc] at h ⊢
  rcases h with ⟨htaken, hread⟩ | ⟨start, k₀, htaken, hbounds⟩
  · refine Or.inl ⟨hlift _ _ htaken, fun hquotes => ?_⟩
    obtain ⟨front, back, rfl, hseg⟩ := hread hquotes
    exact ⟨s ++ front, back, by rw [List.append_assoc], hseg.behind s⟩
  · exact Or.inr ⟨start, k₀, hlift _ _ htaken, hbounds⟩

theorem takenOrReached_verbatim {c : Char} {start : List Char} (hbefore : before = passed.getLast?)
    (hnone : ∀ k, candidate? name (c :: text) = some k → ¬ isWordBoundary before (some c) = true)
    (ih : ∀ {gap}, k.StandsIn name ((passed ++ [c]) ++ text) ((passed ++ [c]) ++ gap) →
      TakenOrReached name (passed ++ [c]) text gap k (segmentsFrom name (some c) text))
    (h : k.StandsIn name (passed ++ c :: text) (passed ++ start)) :
    TakenOrReached name passed (c :: text) start k
      (.verbatim [c] :: segmentsFrom name (some c) text) := by
  have hbehind := length_lt_of_unread hbefore hnone
  cases start with
  | nil =>
    rw [List.append_nil] at h
    have := hbehind _ k h (Nat.le_refl _)
    omega
  | cons d gap =>
    obtain rfl := h.head_eq
    have hrest := @ih gap (by simpa using h)
    refine hrest.behind (s := [.verbatim [d]]) fun start k htaken => ?_
    refine htaken.of_later (by simp) fun start k hk hle => ?_
    simpa [Segment.text] using hbehind start k hk hle

variable (passed) in
theorem takenOrReached {start : List Char} (hbefore : before = passed.getLast?)
    (h : k.StandsIn name (passed ++ text) (passed ++ start)) :
    TakenOrReached name passed text start k (segmentsFrom name before text) := by
  fun_induction segmentsFrom name before text generalizing passed start with
  | case1 =>
    have hnil := h.source_eq
    simp [k.text_ne_nil name] at hnil
  | case2 before c rest k₀ hk₀ hboundary ih =>
    have hfirst := Candidate.isFirst_of_read hbefore hk₀ hboundary
    have htext := (candidate?_eq_some_iff.mp hk₀).2
    by_cases hstart : start = []
    · -- Both are the candidate that is read here.
      subst hstart
      rw [List.append_nil] at h
      obtain rfl := Option.some.inj (hk₀.symm.trans (h.at_start hbefore).1)
      have hrest := textOf_segmentsFrom name (some k₀.closing) k₀.rest
      refine Or.inl ⟨?_, fun hquotes => ⟨_, _, segmented_of_quotes hquotes _ hrest⟩⟩
      rw [List.append_nil]
      exact .first hfirst
    · by_cases hlength : start.length < (k₀.text name).length
      · refine Or.inr ⟨passed, k₀, .first hfirst, ?_, ?_⟩
        · have := List.length_pos_iff.mpr hstart
          simpa using this
        · simpa using hlength
      · -- It stands behind the candidate that is read here.
        have hsource : c :: rest = start ++ (k.text name ++ k.rest) := by
          have := h.source_eq
          rw [List.append_assoc] at this
          exact List.append_cancel_left this
        obtain ⟨gap, rfl⟩ : k₀.text name <+: start :=
          List.prefix_of_prefix_length_le ⟨k₀.rest, htext.symm⟩ ⟨_, hsource.symm⟩ (by omega)
        rw [htext] at h hfirst ⊢
        have hlast : some k₀.closing = (passed ++ textOf (k₀.segments name)).getLast? := by
          rw [textOf_candidate, List.getLast?_append_of_ne_nil _ (k₀.text_ne_nil name),
            k₀.getLast?_text]
        rw [← textOf_candidate] at h ⊢
        refine (ih _ hlast (by simpa using h)).behind fun start k htaken => ?_
        rw [textOf_candidate] at htaken ⊢
        exact htaken.of_behind hfirst
  | case3 before c rest k₀ hk₀ hboundary ih =>
    exact takenOrReached_verbatim hbefore (fun _ _ => hboundary) (fun h => ih _ (by simp) h) h
  | case4 before c rest hk₀ ih =>
    refine takenOrReached_verbatim hbefore (fun k hread => ?_) (fun h => ih _ (by simp) h) h
    rw [hk₀] at hread
    cases hread

variable (passed) in
/-- A self-import is among the segments unless an earlier candidate reaches into it. -/
theorem covered_or_segmented {start : List Char} (hbefore : before = passed.getLast?)
    (h : SelfImport name (passed ++ text) (passed ++ start) k) :
    Covered name (passed ++ text) (passed ++ start) ∨
      ∃ front back, segmentsFrom name before text = front ++ .specifier name k.subpath :: back ∧
        Segmented name start k front name k.subpath back := by
  rcases takenOrReached passed hbefore h.stands with ⟨-, hseg⟩ | ⟨b, k₀, htaken, hbounds⟩
  · exact Or.inr (hseg h.quotes)
  · exact Or.inl ⟨b, k₀, htaken.stands, hbounds⟩

end Scan

end DocSnippets.Snippet
