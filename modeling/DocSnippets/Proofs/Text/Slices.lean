import DocSnippets.Proofs.Text.Occurrences
import DocSnippets.Text.Offset

/-!
# Slices of a text

A slice is cut out of the UTF-8 form of a text by offsets. It exists only when they lie between two
characters. The offset of an occurrence is one of these.
-/

namespace DocSnippets.Text

/-- What follows an offset, if it lies between two characters. -/
def sliceFrom? : List Char → Nat → Option (List Char)
  | text, 0 => some text
  | [], _ + 1 => none
  | c :: text, offset + 1 =>
    if c.utf8Size ≤ offset + 1 then sliceFrom? text (offset + 1 - c.utf8Size) else none

/-- What precedes an offset, if it lies between two characters. -/
def sliceTo? (text : List Char) (offset : Nat) : Option (List Char) :=
  (sliceFrom? text offset).map fun rest => text.take (text.length - rest.length)

def slice? (text : List Char) (start stop : Nat) : Option (List Char) :=
  if start ≤ stop then (sliceFrom? text start).bind fun rest => sliceTo? rest (stop - start)
  else none

/-- The offset of the first occurrence of a needle. -/
def find? (needle text : List Char) : Option Nat :=
  (cut? needle text).map fun parts => byteLength parts.1

theorem sliceFrom?_append (a b : List Char) : sliceFrom? (a ++ b) (byteLength a) = some b := by
  induction a with
  | nil => rw [List.nil_append, byteLength, sliceFrom?]
  | cons c a ih =>
    have hpos : 0 < c.utf8Size := c.utf8Size_pos
    obtain ⟨n, hn⟩ : ∃ n, byteLength (c :: a) = n + 1 :=
      Nat.exists_eq_succ_of_ne_zero (by simp only [byteLength]; omega)
    have hsize : c.utf8Size ≤ n + 1 := by
      simp only [byteLength] at hn
      omega
    have hrest : n + 1 - c.utf8Size = byteLength a := by
      simp only [byteLength] at hn
      omega
    rw [hn, List.cons_append, sliceFrom?, if_pos hsize, hrest, ih]

theorem sliceTo?_append (a b : List Char) : sliceTo? (a ++ b) (byteLength a) = some a := by
  rw [sliceTo?, sliceFrom?_append, Option.map_some, List.length_append, Nat.add_sub_cancel,
    List.take_left]

theorem slice?_append (a b c : List Char) :
    slice? (a ++ (b ++ c)) (byteLength a) (byteLength a + byteLength b) = some b := by
  rw [slice?, if_pos (Nat.le_add_right _ _), sliceFrom?_append, Option.bind_some,
    Nat.add_sub_cancel_left, sliceTo?_append]

theorem sliceTo?_take (text : List Char) (n : Nat) :
    sliceTo? text (byteLength (text.take n)) = some (text.take n) := by
  have h := sliceTo?_append (text.take n) (text.drop n)
  rwa [List.take_append_drop] at h

theorem slice?_take (text : List Char) (m n : Nat) :
    slice? text (byteLength (text.take m)) (byteLength (text.take (m + n))) =
      some ((text.drop m).take n) := by
  have h := slice?_append (text.take m) ((text.drop m).take n) ((text.drop m).drop n)
  rwa [List.take_append_drop, List.take_append_drop, ← byteLength_append, ← List.take_add] at h

end DocSnippets.Text
