import DocSnippets.Text.Lines
import DocSnippets.Text.Offset

/-!
# Lines of offsets

The line of an offset is one more than the number of newlines before it. An offset inside a text
lies on one of the lines of the text.
-/

namespace DocSnippets.Text

theorem takeBytes_add (a b : List Char) (offset : Nat) :
    takeBytes (byteLength a + offset) (a ++ b) = a ++ takeBytes offset b := by
  induction a with
  | nil => simp [byteLength]
  | cons c a ih =>
    have hpos : 0 < c.utf8Size := c.utf8Size_pos
    have hne : ¬ byteLength (c :: a) + offset = 0 := by
      simp only [byteLength]
      omega
    have hrest : byteLength (c :: a) + offset - c.utf8Size = byteLength a + offset := by
      simp only [byteLength]
      omega
    rw [List.cons_append, takeBytes, if_neg hne, hrest, ih, List.cons_append]

theorem takeBytes_append_of_le {a : List Char} {offset : Nat} (h : offset ≤ byteLength a)
    (b : List Char) : takeBytes offset (a ++ b) = takeBytes offset a := by
  induction a generalizing offset with
  | nil =>
    obtain rfl : offset = 0 := Nat.le_zero.mp h
    cases b <;> simp [takeBytes]
  | cons c a ih =>
    rw [List.cons_append, takeBytes, takeBytes]
    by_cases hz : offset = 0
    · rw [if_pos hz, if_pos hz]
    · have hle : offset - c.utf8Size ≤ byteLength a := by
        simp only [byteLength] at h
        omega
      rw [if_neg hz, if_neg hz, ih hle]

/-- An offset inside a text belongs to a character. The newlines before the offset are those before
the character, for a newline has no inner offset. -/
theorem exists_char_of_lt {text : List Char} {offset : Nat} (h : offset < byteLength text) :
    ∃ before c after, text = before ++ c :: after ∧
      (takeBytes offset text).count '\n' = before.count '\n' := by
  induction text generalizing offset with
  | nil => exact absurd h (Nat.not_lt_zero offset)
  | cons c text ih =>
    by_cases hz : offset = 0
    · exact ⟨[], c, text, rfl, by simp [takeBytes, hz]⟩
    rw [takeBytes, if_neg hz]
    by_cases hin : offset < c.utf8Size
    · have hwide : c ≠ '\n' := by
        rintro rfl
        have hsize : '\n'.utf8Size = 1 := by decide
        omega
      have hzero : offset - c.utf8Size = 0 := by omega
      refine ⟨[], c, text, rfl, ?_⟩
      rw [hzero, List.count_cons_of_ne hwide]
      cases text <;> simp [takeBytes]
    · have hlt : offset - c.utf8Size < byteLength text := by
        simp only [byteLength] at h
        omega
      obtain ⟨before, d, after, rfl, hcount⟩ := ih hlt
      refine ⟨c :: before, d, after, rfl, ?_⟩
      rw [List.count_cons, List.count_cons, hcount]

theorem count_newline_lt (before : List Char) (c : Char) (after : List Char) :
    before.count '\n' < (segments (before ++ c :: after)).length := by
  induction before with
  | nil =>
    rw [List.nil_append, segments]
    split
    · simp
    · split <;> simp
  | cons d before ih =>
    rw [List.cons_append, segments]
    by_cases hd : d = '\n'
    · rw [if_pos hd, hd, List.count_cons_self, List.length_cons]
      exact Nat.succ_lt_succ ih
    · rw [if_neg hd, List.count_cons_of_ne hd]
      cases hs : segments (before ++ c :: after) with
      | nil =>
        rw [hs] at ih
        exact absurd ih (Nat.not_lt_zero _)
      | cons segment rest => rwa [hs] at ih

end DocSnippets.Text
