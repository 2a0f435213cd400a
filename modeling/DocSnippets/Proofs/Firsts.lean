/-!
# First failures

A function that is applied to the elements of a list one after the other succeeds on all of them, or
there is a first one that it fails on.
-/

namespace DocSnippets

variable {α β ε : Type} {f : α → Except ε β} {l m : List α} {a : α} {e : ε}

/-- A function succeeds on all elements of a list. -/
def AllSucceed (f : α → Except ε β) (l : List α) : Prop := ∀ a ∈ l, ∃ x, f a = .ok x

/-- The first element of a list that a function fails on, and its error. -/
def FirstFails (f : α → Except ε β) (l : List α) (a : α) (e : ε) : Prop :=
  ∃ before after, l = before ++ a :: after ∧ AllSucceed f before ∧ f a = .error e

theorem AllSucceed.nil : AllSucceed f [] := by
  intro a ha
  cases ha

theorem allSucceed_cons_iff : AllSucceed f (a :: l) ↔ (∃ x, f a = .ok x) ∧ AllSucceed f l :=
  List.forall_mem_cons

theorem allSucceed_append_iff : AllSucceed f (l ++ m) ↔ AllSucceed f l ∧ AllSucceed f m :=
  List.forall_mem_append

namespace FirstFails

theorem not_nil : ¬ FirstFails f [] a e := by
  rintro ⟨before, after, hsplit, -⟩
  exact absurd hsplit.symm (by simp)

theorem not_allSucceed (h : FirstFails f l a e) : ¬ AllSucceed f l := by
  obtain ⟨before, after, rfl, -, hfails⟩ := h
  intro hall
  obtain ⟨x, hx⟩ := hall a (List.mem_append_right _ List.mem_cons_self)
  rw [hfails] at hx
  cases hx

theorem head (h : f a = .error e) (l : List α) : FirstFails f (a :: l) a e :=
  ⟨[], l, rfl, AllSucceed.nil, h⟩

/-- The first failure of a list is at its head, or behind a success. -/
theorem of_cons {b : α} (h : FirstFails f (b :: l) a e) :
    (b = a ∧ f b = .error e) ∨ ((∃ x, f b = .ok x) ∧ FirstFails f l a e) := by
  obtain ⟨before, after, hsplit, hbefore, hfails⟩ := h
  cases before with
  | nil =>
    obtain ⟨rfl, rfl⟩ := List.cons.inj hsplit
    exact Or.inl ⟨rfl, hfails⟩
  | cons c before =>
    obtain ⟨rfl, rfl⟩ := List.cons.inj hsplit
    obtain ⟨hfirst, hrest⟩ := allSucceed_cons_iff.mp hbefore
    exact Or.inr ⟨hfirst, before, after, rfl, hrest, hfails⟩

theorem behind (hl : AllSucceed f l) (h : FirstFails f m a e) : FirstFails f (l ++ m) a e := by
  obtain ⟨before, after, rfl, hbefore, hfails⟩ := h
  exact ⟨l ++ before, after, by rw [List.append_assoc],
    allSucceed_append_iff.mpr ⟨hl, hbefore⟩, hfails⟩

theorem ahead (h : FirstFails f l a e) (m : List α) : FirstFails f (l ++ m) a e := by
  obtain ⟨before, after, rfl, hbefore, hfails⟩ := h
  exact ⟨before, after ++ m, by rw [List.append_assoc, List.cons_append], hbefore, hfails⟩

end FirstFails

theorem allSucceed_or_firstFails (f : α → Except ε β) (l : List α) :
    AllSucceed f l ∨ ∃ a e, FirstFails f l a e := by
  induction l with
  | nil => exact Or.inl AllSucceed.nil
  | cons b l ih =>
    cases hb : f b with
    | error e => exact Or.inr ⟨b, e, FirstFails.head hb l⟩
    | ok x =>
      rcases ih with hall | ⟨a, e, hfirst⟩
      · exact Or.inl (allSucceed_cons_iff.mpr ⟨⟨x, hb⟩, hall⟩)
      · have hone : AllSucceed f [b] := allSucceed_cons_iff.mpr ⟨⟨x, hb⟩, AllSucceed.nil⟩
        exact Or.inr ⟨a, e, hfirst.behind hone⟩

end DocSnippets
