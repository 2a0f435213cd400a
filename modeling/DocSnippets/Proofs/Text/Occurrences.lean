import DocSnippets.Text.Find
import Mathlib.Data.List.Infix

/-!
# First occurrences

The first occurrence of a needle stands at the end of a text when the text followed by the needle
without its last character does not hold the needle yet. What comes afterwards has no influence.
Replacing goes from one first occurrence to the next.
-/

namespace DocSnippets.Text

/-- Two ways to cut a text: the longer first part goes on where the shorter one ends. -/
theorem exists_append_of_length_le {a b c d : List Char} (h : a ++ b = c ++ d)
    (hle : a.length ≤ c.length) : ∃ mid, c = a ++ mid ∧ b = mid ++ d := by
  obtain ⟨mid, rfl⟩ := List.prefix_of_prefix_length_le ⟨b, rfl⟩ ⟨d, h.symm⟩ hle
  rw [List.append_assoc] at h
  exact ⟨mid, rfl, List.append_cancel_left h⟩

/-- A place in a text of three parts that is not outside the middle one cuts this in two. -/
theorem exists_append_of_between {a b c middle d : List Char} (h : a ++ b = c ++ (middle ++ d))
    (hstart : c.length ≤ a.length) (hstop : a.length ≤ (c ++ middle).length) :
    ∃ left right, a = c ++ left ∧ middle = left ++ right ∧ b = right ++ d := by
  obtain ⟨left, rfl, hrest⟩ := exists_append_of_length_le h.symm hstart
  have hle : left.length ≤ middle.length := by
    simp only [List.length_append] at hstop
    omega
  obtain ⟨right, rfl, rfl⟩ := exists_append_of_length_le hrest.symm hle
  exact ⟨left, right, rfl, rfl, rfl⟩

theorem isPrefixOf?_append (needle rest : List Char) :
    needle.isPrefixOf? (needle ++ rest) = some rest := by
  induction needle with
  | nil => rfl
  | cons n needle ih => simp [List.isPrefixOf?, ih]

theorem isPrefixOf?_eq_none {needle text : List Char} (h : ¬ needle <+: text) :
    needle.isPrefixOf? text = none := by
  cases hp : needle.isPrefixOf? text with
  | none => rfl
  | some rest => exact absurd ⟨rest, (eq_append_of_isPrefixOf? hp).symm⟩ h

theorem cut?_eq_none {needle text : List Char} (h : ¬ needle <:+: text) :
    cut? needle text = none := by
  induction text with
  | nil => rw [cut?, isPrefixOf?_eq_none fun hp => h hp.isInfix, Option.map_none]
  | cons c text ih =>
    rw [cut?, isPrefixOf?_eq_none fun hp => h hp.isInfix]
    simp only [ih fun hi => h (hi.trans (List.suffix_cons c text).isInfix), Option.map_none]

theorem cut?_append {needle before : List Char} (h : ¬ needle <:+: before ++ needle.dropLast)
    (after : List Char) : cut? needle (before ++ (needle ++ after)) = some (before, after) := by
  have hne : needle ≠ [] := fun hnil => h (hnil ▸ List.nil_infix)
  induction before with
  | nil =>
    obtain ⟨n, rest, rfl⟩ := List.exists_cons_of_ne_nil hne
    rw [List.nil_append, List.cons_append, cut?, ← List.cons_append, isPrefixOf?_append]
  | cons c before ih =>
    have hhead : ¬ needle <+: c :: (before ++ (needle ++ after)) := by
      intro hp
      -- The needle is not longer than the text up to the last character of the one that follows.
      refine h (List.prefix_of_prefix_length_le hp ⟨needle.getLast hne :: after, ?_⟩ ?_).isInfix
      · have hlast := List.dropLast_append_getLast hne
        conv_rhs => rw [← hlast]
        simp
      · have := List.length_pos_iff.mpr hne
        simp only [List.length_append, List.length_cons, List.length_dropLast]
        omega
    have htail : ¬ needle <:+: before ++ needle.dropLast := fun hi =>
      h (hi.trans (List.suffix_cons c _).isInfix)
    rw [List.cons_append, cut?, isPrefixOf?_eq_none hhead, ih htail]
    rfl

theorem cut?_singleton {c : Char} {before : List Char} (h : c ∉ before) (after : List Char) :
    cut? [c] (before ++ c :: after) = some (before, after) := by
  have hinfix : ¬ [c] <:+: before ++ [c].dropLast := fun hi =>
    h (by simpa using hi.subset (List.mem_singleton_self c))
  exact cut?_append hinfix after

theorem cut?_of_prefix {needle text rest : List Char} (h : needle.isPrefixOf? text = some rest) :
    cut? needle text = some ([], rest) := by
  cases text with
  | nil => rw [cut?, h, Option.map_some]
  | cons c text => rw [cut?, h]

/-- The first occurrence does not stand behind another one. -/
theorem exists_cut?_of_append (needle before after : List Char) :
    ∃ first rest, cut? needle (before ++ (needle ++ after)) = some (first, rest) ∧
      first.length ≤ before.length := by
  induction before with
  | nil => exact ⟨[], after, cut?_of_prefix (isPrefixOf?_append needle after), Nat.le_refl 0⟩
  | cons c before ih =>
    rw [List.cons_append, cut?]
    cases needle.isPrefixOf? (c :: (before ++ (needle ++ after))) with
    | some rest => exact ⟨[], rest, rfl, Nat.zero_le _⟩
    | none =>
      obtain ⟨first, rest, hcut, hle⟩ := ih
      exact ⟨c :: first, rest, by simp only [hcut, Option.map_some], Nat.succ_le_succ hle⟩

theorem exists_cut?_of_infix {needle text : List Char} (h : needle <:+: text) :
    ∃ first rest, cut? needle text = some (first, rest) := by
  obtain ⟨before, after, rfl⟩ := h
  obtain ⟨first, rest, hcut, -⟩ := exists_cut?_of_append needle before after
  exact ⟨first, rest, by rw [List.append_assoc, hcut]⟩

/-- The needle does not start before the place where it is found. -/
theorem not_infix_dropLast_of_cut? {needle before after text : List Char} (hne : needle ≠ [])
    (h : cut? needle text = some (before, after)) : ¬ needle <:+: before ++ needle.dropLast := by
  rintro ⟨x, y, hxy⟩
  have htext : text = x ++ (needle ++ (y ++ needle.getLast hne :: after)) := by
    rw [eq_append_of_cut? h]
    conv_lhs => rw [← List.dropLast_append_getLast hne]
    simpa using congrArg (· ++ needle.getLast hne :: after) hxy.symm
  obtain ⟨first, rest, hcut, hle⟩ :=
    exists_cut?_of_append needle x (y ++ needle.getLast hne :: after)
  rw [← htext, h] at hcut
  obtain ⟨rfl, -⟩ := Prod.mk.inj (Option.some.inj hcut)
  have hlength := congrArg List.length hxy
  have hpos := List.length_pos_iff.mpr hne
  simp only [List.length_append, List.length_dropLast] at hlength
  omega

theorem not_infix_of_cut? {needle before after text : List Char} (hne : needle ≠ [])
    (h : cut? needle text = some (before, after)) : ¬ needle <:+: before := by
  intro hi
  exact not_infix_dropLast_of_cut? hne h (hi.trans (List.prefix_append before _).isInfix)

/-- What comes behind a text does not move the first occurrence in it. -/
theorem cut?_append_right {needle text before after : List Char} (hne : needle ≠ [])
    (h : cut? needle text = some (before, after)) (more : List Char) :
    cut? needle (text ++ more) = some (before, after ++ more) := by
  have htext : text ++ more = before ++ (needle ++ (after ++ more)) := by
    rw [eq_append_of_cut? h]
    simp only [List.append_assoc]
  rw [htext]
  exact cut?_append (not_infix_dropLast_of_cut? hne h) (after ++ more)

variable {needle replacement : List Char}

/-- An occurrence of a needle without a character lies on one side of that character. -/
theorem split_of_notMem {c : Char} (hne : needle ≠ []) (hc : c ∉ needle) {x y a b : List Char}
    (h : x ++ (needle ++ y) = a ++ c :: b) :
    (∃ y', a = x ++ (needle ++ y') ∧ y = y' ++ c :: b) ∨
      (∃ x', x = a ++ c :: x' ∧ b = x' ++ (needle ++ y)) := by
  rcases List.append_eq_append_iff.mp h with ⟨a', rfl, hrest⟩ | ⟨x', rfl, hrest⟩
  · rcases List.append_eq_append_iff.mp hrest with ⟨y', rfl, rfl⟩ | ⟨z, rfl, hz⟩
    · exact Or.inl ⟨y', rfl, rfl⟩
    · cases z with
      | nil => exact Or.inl ⟨[], by simp, by simpa using hz.symm⟩
      | cons d z =>
        obtain ⟨rfl, -⟩ := List.cons.inj hz
        exact absurd (List.mem_append_right a' List.mem_cons_self) hc
  · cases x' with
    | nil =>
      obtain ⟨n, needle, rfl⟩ := List.exists_cons_of_ne_nil hne
      obtain ⟨rfl, -⟩ := List.cons.inj hrest
      exact absurd List.mem_cons_self hc
    | cons d x' =>
      obtain ⟨rfl, rfl⟩ := List.cons.inj hrest
      exact Or.inr ⟨x', rfl, rfl⟩

theorem prefix_of_append_cons {c : Char} (hc : c ∉ needle) {a b : List Char}
    (h : needle <+: a ++ c :: b) : needle <+: a := by
  obtain ⟨rest, hrest⟩ := h
  rcases List.append_eq_append_iff.mp hrest with ⟨x, rfl, -⟩ | ⟨x, rfl, hx⟩
  · exact List.prefix_append needle x
  · cases x with
    | nil => rw [List.append_nil]
    | cons d x =>
      obtain ⟨rfl, -⟩ := List.cons.inj hx
      exact absurd (List.mem_append_right a List.mem_cons_self) hc

theorem not_infix_append_cons {c : Char} (hne : needle ≠ []) (hc : c ∉ needle) {a b : List Char}
    (ha : ¬ needle <:+: a) (hb : ¬ needle <:+: b) : ¬ needle <:+: a ++ c :: b := by
  rintro ⟨x, y, hxy⟩
  rw [List.append_assoc] at hxy
  rcases split_of_notMem hne hc hxy with ⟨y', rfl, -⟩ | ⟨x', -, rfl⟩
  · exact ha ⟨x, y', by rw [List.append_assoc]⟩
  · exact hb ⟨x', y, by rw [List.append_assoc]⟩

/-- Replacing brings in no character of its own. -/
theorem mem_replaceAll {c : Char} {text : List Char}
    (h : c ∈ replaceAll needle replacement text) : c ∈ text ∨ c ∈ replacement := by
  fun_induction replaceAll needle replacement text with
  | case1 => exact Or.inl h
  | case2 d text hneedle ih =>
    rcases List.mem_append.mp h with h | h
    · exact Or.inr h
    · rcases ih h with h | h
      · exact Or.inl (List.mem_cons_of_mem d (List.mem_of_mem_drop h))
      · exact Or.inr h
  | case3 d text hneedle ih =>
    rcases List.mem_cons.mp h with rfl | h
    · exact Or.inl List.mem_cons_self
    · exact (ih h).imp_left (List.mem_cons_of_mem d)

theorem replaceAll_eq_self {text : List Char} (h : ¬ needle <:+: text) :
    replaceAll needle replacement text = text := by
  induction text with
  | nil => rw [replaceAll]
  | cons c text ih =>
    have hhead : ¬ (needle ≠ [] ∧ needle.isPrefixOf (c :: text) = true) := by
      rintro ⟨-, hp⟩
      exact h (List.isPrefixOf_iff_prefix.mp hp).isInfix
    rw [replaceAll, if_neg hhead, ih fun hi => h (hi.trans (List.suffix_cons c text).isInfix)]

/-- The first occurrence is replaced, and replacing goes on behind it. -/
theorem replaceAll_of_cut? {text before after : List Char} (hne : needle ≠ [])
    (h : cut? needle text = some (before, after)) :
    replaceAll needle replacement text =
      before ++ (replacement ++ replaceAll needle replacement after) := by
  induction text generalizing before with
  | nil =>
    rw [cut?, isPrefixOf?_eq_none fun hp => hne (List.prefix_nil.mp hp)] at h
    cases h
  | cons c text ih =>
    rw [cut?] at h
    by_cases hp : needle <+: c :: text
    · obtain ⟨rest, hrest⟩ := hp
      rw [← hrest, isPrefixOf?_append] at h
      obtain ⟨rfl, rfl⟩ := Prod.mk.inj (Option.some.inj h)
      have hprefix : needle.isPrefixOf (c :: text) = true :=
        List.isPrefixOf_iff_prefix.mpr ⟨rest, hrest⟩
      have hdrop : text.drop (needle.length - 1) = rest := by
        obtain ⟨n, needle, rfl⟩ := List.exists_cons_of_ne_nil hne
        obtain ⟨-, rfl⟩ := List.cons.inj hrest
        simp
      rw [replaceAll, if_pos ⟨hne, hprefix⟩, hdrop, List.nil_append]
    · rw [isPrefixOf?_eq_none hp] at h
      obtain ⟨⟨before', after'⟩, hcut, hpair⟩ := Option.map_eq_some_iff.mp h
      obtain ⟨rfl, rfl⟩ := Prod.mk.inj hpair
      have hhead : ¬ (needle ≠ [] ∧ needle.isPrefixOf (c :: text) = true) := by
        rintro ⟨-, hprefix⟩
        exact hp (List.isPrefixOf_iff_prefix.mp hprefix)
      rw [replaceAll, if_neg hhead, ih hcut, List.cons_append]

theorem replaceAll_singleton (c : Char) (replacement text : List Char) :
    replaceAll [c] replacement text = text.flatMap fun d => if d = c then replacement else [d] := by
  induction text with
  | nil => rw [replaceAll, List.flatMap_nil]
  | cons d text ih =>
    rw [replaceAll, List.flatMap_cons]
    by_cases hd : d = c
    · have hhead : [c] ≠ [] ∧ [c].isPrefixOf (d :: text) = true := by
        rw [hd]
        exact ⟨List.cons_ne_nil c [], by simp⟩
      rw [if_pos hhead, if_pos hd, ← ih]
      rfl
    · have hhead : ¬ ([c] ≠ [] ∧ [c].isPrefixOf (d :: text) = true) := by
        rintro ⟨-, hp⟩
        obtain ⟨rest, hrest⟩ := List.isPrefixOf_iff_prefix.mp hp
        exact hd (List.cons.inj hrest).1.symm
      rw [if_neg hhead, if_neg hd, ih, List.singleton_append]

end DocSnippets.Text
