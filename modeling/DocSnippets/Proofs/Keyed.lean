import Mathlib.Data.List.Forall2

/-!
# Entries by key

In a list of pairs a key stands for the first value that it is declared with. Entries under other
keys have no part in this, and neither has the order, as far as keys are declared once.
-/

namespace DocSnippets.Keyed

variable {α β : Type} [BEq α] [LawfulBEq α]

theorem lookup_filter (keep : α → Bool) (entries : List (α × β)) (key : α) :
    (entries.filter fun e => keep e.1).lookup key =
      if keep key then entries.lookup key else none := by
  induction entries with
  | nil => rw [List.filter_nil, List.lookup_nil, ite_self]
  | cons e entries ih =>
    rw [List.filter_cons]
    by_cases heq : key = e.1
    · subst heq
      by_cases hkeep : keep e.1 = true
      · rw [if_pos hkeep, if_pos hkeep, List.lookup_cons, beq_self_eq_true, List.lookup_cons,
          beq_self_eq_true]
      · rw [if_neg hkeep, if_neg hkeep, ih, if_neg hkeep]
    · have hne : (key == e.1) = false := by simpa using heq
      have htail : (e :: entries).lookup key = entries.lookup key := by rw [List.lookup_cons, hne]
      rw [htail, ← ih]
      split
      · rw [List.lookup_cons, hne]
      · rfl

theorem lookup_eq_some_iff_mem {entries : List (α × β)} (h : (entries.map (·.1)).Nodup)
    {key : α} {value : β} : entries.lookup key = some value ↔ (key, value) ∈ entries := by
  rw [List.lookup_eq_some_iff]
  constructor
  · rintro ⟨before, after, rfl, -⟩
    exact List.mem_append_right before List.mem_cons_self
  · intro hmem
    obtain ⟨before, after, rfl⟩ := List.append_of_mem hmem
    refine ⟨before, after, rfl, fun e he => ?_⟩
    rw [List.map_append, List.map_cons] at h
    have hapart := (List.nodup_append.mp h).2.2 e.1 (List.mem_map_of_mem he) key List.mem_cons_self
    simpa using hapart.symm

theorem lookup_perm {entries entries' : List (α × β)} (h : entries.Perm entries')
    (hkeys : (entries.map (·.1)).Nodup) (key : α) : entries.lookup key = entries'.lookup key := by
  have hkeys' : (entries'.map (·.1)).Nodup := ((h.map _).nodup_iff).mp hkeys
  apply Option.ext
  intro value
  rw [lookup_eq_some_iff_mem hkeys, lookup_eq_some_iff_mem hkeys', h.mem_iff]

omit [LawfulBEq α] in
/-- Entries with the same keys and related values give related values. -/
theorem lookup_rel {r : β → β → Prop} {entries entries' : List (α × β)}
    (h : List.Forall₂ (fun e e' => e.1 = e'.1 ∧ r e.2 e'.2) entries entries') (key : α) :
    Option.Rel r (entries.lookup key) (entries'.lookup key) := by
  induction h with
  | nil => exact .none
  | cons hhead htail ih =>
    rw [List.lookup_cons, List.lookup_cons, hhead.1]
    split
    · exact .some hhead.2
    · exact ih

end DocSnippets.Keyed
