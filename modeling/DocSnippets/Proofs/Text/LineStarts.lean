import DocSnippets.Text.Lines
import Mathlib.Data.List.Basic

/-!
# Line starts

A line starts where a text does and behind each newline. The lines of a text, taken with their
newlines, are its cuts at the line starts.
-/

namespace DocSnippets.Text

/-- Whether a line starts behind this text. -/
def StartsLine (before : List Char) : Prop := ∀ c ∈ before.getLast?, c = '\n'

theorem startsLine_nil : StartsLine [] := fun c hc => by cases hc

variable {before front text line : List Char} {c : Char}

theorem startsLine_append_iff (h : text ≠ []) : StartsLine (front ++ text) ↔ StartsLine text := by
  rw [StartsLine, StartsLine, List.getLast?_append_of_ne_nil _ h]

theorem StartsLine.append (hfront : StartsLine front) (h : StartsLine before) :
    StartsLine (front ++ before) := by
  by_cases hnil : before = []
  · rwa [hnil, List.append_nil]
  · exact (startsLine_append_iff hnil).mpr h

theorem StartsLine.mem_newline (h : StartsLine text) (hne : text ≠ []) : '\n' ∈ text := by
  have hlast : text.getLast hne = '\n' := h _ (List.getLast?_eq_some_getLast hne)
  exact hlast ▸ List.getLast_mem hne

theorem segments_append (h : StartsLine before) (text : List Char) :
    segments (before ++ text) = segments before ++ segments text := by
  induction before with
  | nil => rfl
  | cons c before ih =>
    rw [List.cons_append, segments, segments]
    by_cases hnil : before = []
    · have hc : c = '\n' := h c (by rw [hnil]; rfl)
      rw [if_pos hc, if_pos hc, hnil]
      rfl
    · have hbefore : StartsLine ([c] ++ before) := h
      rw [ih ((startsLine_append_iff hnil).mp hbefore)]
      split
      · rfl
      · have hsegments : segments before ≠ [] := fun hempty => hnil (by
          rw [← flatten_segments before, hempty, List.flatten_nil])
        obtain ⟨first, others, hfirst⟩ := List.exists_cons_of_ne_nil hsegments
        rw [hfirst]
        rfl

/-- The first line of a text goes on to the first newline at least. -/
theorem segments_eq_cons_of_prefix {head : List Char} (hne : head ≠ [])
    (hhead : '\n' ∉ head.dropLast) (rest : List Char) :
    ∃ line others, segments (head ++ rest) = line :: others ∧ head <+: line := by
  induction head with
  | nil => exact absurd rfl hne
  | cons c head ih =>
    rw [List.cons_append, segments]
    by_cases hnil : head = []
    · subst hnil
      split
      · next hc => exact ⟨['\n'], _, rfl, hc ▸ List.prefix_refl _⟩
      · split
        · exact ⟨[c], [], rfl, List.prefix_refl _⟩
        · next line others _ => exact ⟨c :: line, others, rfl, line, rfl⟩
    · rw [List.dropLast_cons_of_ne_nil hnil, List.mem_cons, not_or] at hhead
      obtain ⟨line, others, hline, hprefix⟩ := ih hnil hhead.2
      rw [if_neg (Ne.symm hhead.1), hline]
      exact ⟨c :: line, others, rfl, (List.prefix_cons_inj c).mpr hprefix⟩

theorem getLast?_of_segments {above below : List (List Char)}
    (h : segments text = above ++ line :: below) :
    ∀ a ∈ above, a.getLast? = some '\n' := by
  induction text generalizing above line below with
  | nil => simp [segments] at h
  | cons c text ih =>
    intro a ha
    obtain ⟨first, others, rfl⟩ := List.exists_cons_of_ne_nil (List.ne_nil_of_mem ha)
    rw [segments] at h
    split at h
    · obtain ⟨rfl, hothers⟩ := List.cons.inj h
      rcases List.mem_cons.mp ha with rfl | ha
      · rfl
      · exact ih hothers a ha
    · split at h
      · simp at h
      · next segment rest hsegments =>
        obtain ⟨rfl, rfl⟩ := List.cons.inj h
        have hsplit : segments text = (segment :: others) ++ line :: below := hsegments
        have hlast := ih hsplit
        rcases List.mem_cons.mp ha with rfl | ha
        · have hsegment := hlast segment List.mem_cons_self
          have hne : segment ≠ [] := by rintro rfl; cases hsegment
          rwa [List.getLast?_cons_of_ne_nil hne]
        · exact hlast a (List.mem_cons_of_mem segment ha)

theorem exists_eq_of_mem_segments (h : line ∈ segments text) :
    ∃ before after, text = before ++ (line ++ after) ∧ StartsLine before := by
  obtain ⟨above, below, hsplit⟩ := List.append_of_mem h
  refine ⟨above.flatten, below.flatten, ?_, ?_⟩
  · rw [← flatten_segments text, hsplit, List.flatten_append, List.flatten_cons]
  · have habove := getLast?_of_segments hsplit
    rcases List.eq_nil_or_concat above with rfl | ⟨front, last, rfl⟩
    · exact startsLine_nil
    · have hlast := habove last (by simp)
      have hne : last ≠ [] := by rintro rfl; cases hlast
      rw [List.concat_eq_append, List.flatten_append, List.flatten_singleton,
        startsLine_append_iff hne]
      intro c hc
      exact (Option.some.inj (hlast.symm.trans hc)).symm

theorem newline_notMem_dropLast (h : line ∈ segments text) : '\n' ∉ line.dropLast := by
  induction text generalizing line with
  | nil => simp [segments] at h
  | cons c text ih =>
    rw [segments] at h
    split at h
    · rcases List.mem_cons.mp h with rfl | h
      · exact List.not_mem_nil
      · exact ih h
    · next hc =>
      split at h
      · obtain rfl := List.mem_singleton.mp h
        exact List.not_mem_nil
      · next segment rest hsegments =>
        rcases List.mem_cons.mp h with rfl | h
        · by_cases hne : segment = []
          · simp [hne]
          · rw [List.dropLast_cons_of_ne_nil hne, List.mem_cons, not_or]
            exact ⟨Ne.symm hc, ih (hsegments ▸ List.mem_cons_self)⟩
        · exact ih (hsegments ▸ List.mem_cons_of_mem segment h)

end DocSnippets.Text
