import DocSnippets.Text.Offset

/-!
# UTF-16 units

Other programs count the characters of a text, and denote its value, in UTF-16 code units. A
character outside the basic plane has two of them, every other one has one.
-/

namespace DocSnippets.Text

/-- The units of a code point: itself, or a high and a low surrogate. -/
def unitsOf (point : Nat) : List Nat :=
  if point < 0x10000 then [point]
  else [0xd800 + (point - 0x10000) / 0x400, 0xdc00 + (point - 0x10000) % 0x400]

def units (text : List Char) : List Nat := text.flatMap fun c => unitsOf c.toNat

@[simp] theorem units_nil : units [] = [] := rfl

@[simp] theorem units_cons (c : Char) (text : List Char) :
    units (c :: text) = unitsOf c.toNat ++ units text := List.flatMap_cons

theorem length_unitsOf_le (c : Char) : (unitsOf c.toNat).length ≤ c.utf8Size := by
  rw [unitsOf]
  split
  · exact c.utf8Size_pos
  · next hwide =>
    have hsize : c.utf8Size = 4 := by
      rw [Char.utf8Size_eq_four_iff, UInt32.lt_iff_toNat_lt]
      exact Nat.lt_of_not_le fun hle => hwide (Nat.lt_succ_of_le hle)
    rw [hsize]
    exact (by decide : 2 ≤ 4)

/-- A text has no more units than bytes. -/
theorem length_units_le (text : List Char) : (units text).length ≤ byteLength text := by
  induction text with
  | nil => exact Nat.le_refl 0
  | cons c text ih =>
    rw [units_cons, List.length_append, byteLength]
    exact Nat.add_le_add (length_unitsOf_le c) ih

end DocSnippets.Text
