/-!
# Occurrences of one text in another

`cut?` finds the first occurrence of a needle and returns the text on either side; `replaceAll`
replaces occurrences from left to right, never one inside another.
-/

namespace DocSnippets.Text

theorem eq_append_of_isPrefixOf? {needle text rest : List Char}
    (h : needle.isPrefixOf? text = some rest) : text = needle ++ rest := by
  induction needle generalizing text with
  | nil => exact Option.some.inj h
  | cons n needle ih =>
    cases text with
    | nil => exact absurd h (Option.some_ne_none rest).symm
    | cons c text =>
      change (if n == c then needle.isPrefixOf? text else none) = some rest at h
      by_cases hc : (n == c) = true
      · rw [if_pos hc] at h
        rw [eq_of_beq hc, ih h, List.cons_append]
      · rw [if_neg hc] at h
        exact absurd h (Option.some_ne_none rest).symm

theorem length_of_isPrefixOf? {needle text rest : List Char}
    (h : needle.isPrefixOf? text = some rest) : needle.length + rest.length = text.length := by
  rw [eq_append_of_isPrefixOf? h, List.length_append]

def cut? (needle : List Char) : List Char → Option (List Char × List Char)
  | [] => (needle.isPrefixOf? []).map fun rest => ([], rest)
  | c :: text =>
    match needle.isPrefixOf? (c :: text) with
    | some rest => some ([], rest)
    | none => (cut? needle text).map fun parts => (c :: parts.1, parts.2)

theorem eq_append_of_cut? {needle text before after : List Char}
    (h : cut? needle text = some (before, after)) : text = before ++ needle ++ after := by
  induction text generalizing before with
  | nil =>
    simp only [cut?, Option.map_eq_some_iff] at h
    obtain ⟨rest, hrest, hpair⟩ := h
    obtain ⟨rfl, rfl⟩ := Prod.mk.inj hpair
    simpa using eq_append_of_isPrefixOf? hrest
  | cons c text ih =>
    rw [cut?] at h
    split at h
    · next rest hrest =>
      obtain ⟨rfl, rfl⟩ := Prod.mk.inj (Option.some.inj h)
      simpa using eq_append_of_isPrefixOf? hrest
    · obtain ⟨parts, hparts, hpair⟩ := Option.map_eq_some_iff.mp h
      obtain ⟨rfl, rfl⟩ := Prod.mk.inj hpair
      simpa using ih hparts

/-- What follows an occurrence is shorter than the text by the needle at least. -/
theorem length_of_cut? {needle text before after : List Char}
    (h : cut? needle text = some (before, after)) :
    text.length = before.length + needle.length + after.length := by
  rw [eq_append_of_cut? h]
  simp [Nat.add_assoc]

/-- The text with every occurrence of a needle replaced, from left to right; an empty needle has no
occurrence. -/
def replaceAll (needle replacement : List Char) : List Char → List Char
  | [] => []
  | c :: text =>
    if needle ≠ [] ∧ needle.isPrefixOf (c :: text) = true then
      replacement ++ replaceAll needle replacement (text.drop (needle.length - 1))
    else
      c :: replaceAll needle replacement text
termination_by text => text.length
decreasing_by all_goals simp only [List.length_drop, List.length_cons]; omega

/-- The positions, counted in characters from `pos`, at which a needle occurs; an occurrence inside
an earlier one is not counted. -/
def positions (needle : List Char) (pos : Nat) : List Char → List Nat
  | [] => []
  | c :: text =>
    if needle ≠ [] ∧ needle.isPrefixOf (c :: text) = true then
      pos :: positions needle (pos + needle.length) (text.drop (needle.length - 1))
    else
      positions needle (pos + 1) text
termination_by text => text.length
decreasing_by all_goals simp only [List.length_drop, List.length_cons]; omega

def splitOn (sep : Char) : List Char → List (List Char)
  | [] => [[]]
  | c :: text =>
    if c = sep then [] :: splitOn sep text
    else
      match splitOn sep text with
      | [] => [[c]]
      | part :: parts => (c :: part) :: parts

theorem splitOn_ne_nil (sep : Char) (text : List Char) : splitOn sep text ≠ [] := by
  cases text with
  | nil => simp [splitOn]
  | cons c text =>
    rw [splitOn]
    split
    · simp
    · split <;> simp

end DocSnippets.Text
