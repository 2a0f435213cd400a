/-!
# Offsets

Positions that leave the program are offsets into the UTF-8 form of a text. The length of a text in
that form is the sum of the sizes of its characters.
-/

namespace DocSnippets.Text

def byteLength : List Char → Nat
  | [] => 0
  | c :: text => c.utf8Size + byteLength text

@[simp] theorem byteLength_append (a b : List Char) :
    byteLength (a ++ b) = byteLength a + byteLength b := by
  induction a with
  | nil => simp [byteLength]
  | cons c a ih => simp [byteLength, ih, Nat.add_assoc]

def takeBytes : Nat → List Char → List Char
  | _, [] => []
  | offset, c :: text => if offset = 0 then [] else c :: takeBytes (offset - c.utf8Size) text

theorem takeBytes_byteLength (a b : List Char) : takeBytes (byteLength a) (a ++ b) = a := by
  induction a with
  | nil => cases b <;> simp [takeBytes, byteLength]
  | cons c a ih =>
    have hpos : 0 < c.utf8Size := c.utf8Size_pos
    have hne : ¬ byteLength (c :: a) = 0 := by simp only [byteLength]; omega
    rw [List.cons_append, takeBytes, if_neg hne]
    simp [byteLength, ih]

end DocSnippets.Text
