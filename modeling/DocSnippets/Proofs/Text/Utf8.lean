import DocSnippets.Text.Utf8
import Mathlib.Tactic.SplitIfs

/-!
# Text that is written and read again

Every text is read from its own encoding as it was: nothing in it is replaced.
-/

namespace DocSnippets.Text

theorem isBetween_iff {low high byte : Nat} :
    isBetween low high byte = true ↔ low ≤ byte ∧ byte ≤ high := by
  simp [isBetween]

section

variable {a b c d n : Nat} (rest : List Nat)

theorem isTrail_of_rem (h : b = n % 64 + 128) : isTrail b = true := by
  apply isBetween_iff.mpr
  omega

theorem decodeLossy_one (ha : a < 0x80) :
    decodeLossy (a :: rest) = Char.ofNat a :: decodeLossy rest := by
  rw [decodeLossy.eq_def]
  dsimp only
  rw [if_pos ha]

theorem decodeLossy_two (ha : isBetween 0xc2 0xdf a = true) (hb : isTrail b = true) :
    decodeLossy (a :: b :: rest) = assembled (a - 0xc0) [b] :: decodeLossy rest := by
  have hfirst := isBetween_iff.mp ha
  rw [decodeLossy.eq_def]
  dsimp only
  rw [if_neg (by omega), if_pos ha, if_pos hb]

theorem decodeLossy_three (ha : isBetween 0xe0 0xef a = true) (hb : isSecond a b = true)
    (hc : isTrail c = true) :
    decodeLossy (a :: b :: c :: rest) = assembled (a - 0xe0) [b, c] :: decodeLossy rest := by
  have hfirst := isBetween_iff.mp ha
  have hshort : ¬ isBetween 0xc2 0xdf a = true := by
    rw [isBetween_iff]
    omega
  rw [decodeLossy.eq_def]
  dsimp only
  rw [if_neg (by omega), if_neg hshort, if_pos ha, if_pos hb, if_pos hc]

theorem decodeLossy_four (ha : isBetween 0xf0 0xf4 a = true) (hb : isSecond a b = true)
    (hc : isTrail c = true) (hd : isTrail d = true) :
    decodeLossy (a :: b :: c :: d :: rest) =
      assembled (a - 0xf0) [b, c, d] :: decodeLossy rest := by
  have hfirst := isBetween_iff.mp ha
  have hshort : ¬ isBetween 0xc2 0xdf a = true := by
    rw [isBetween_iff]
    omega
  have hlonger : ¬ isBetween 0xe0 0xef a = true := by
    rw [isBetween_iff]
    omega
  rw [decodeLossy.eq_def]
  dsimp only
  rw [if_neg (by omega), if_neg hshort, if_neg hlonger, if_pos ha, if_pos hb, if_pos hc, if_pos hd]

/-- The second byte of a long encoding leaves out the code points that have a shorter one, the
surrogates, and what is past the last code point. -/
theorem isSecond_three (h : a = n / 4096 + 0xe0) (hb : b = n / 64 % 64 + 0x80) (hlow : 0x7ff < n)
    (hvalid : n < 0xd800 ∨ 0xdfff < n) (hhigh : n ≤ 0xffff) : isSecond a b = true := by
  unfold isSecond secondRange
  split_ifs <;> rw [isBetween_iff] <;> dsimp only <;> omega

theorem isSecond_four (h : a = n / 262144 + 0xf0) (hb : b = n / 4096 % 64 + 0x80)
    (hlow : 0xffff < n) (hhigh : n < 0x110000) : isSecond a b = true := by
  unfold isSecond secondRange
  split_ifs <;> rw [isBetween_iff] <;> dsimp only <;> omega

end

/-- The encoding of a character is read as this character, whatever stands behind it. -/
theorem decodeLossy_encode (c : Char) (rest : List Nat) :
    decodeLossy ((String.utf8EncodeChar c).map UInt8.toNat ++ rest) = c :: decodeLossy rest := by
  have hvalid : c.toNat < 0xd800 ∨ 0xdfff < c.toNat ∧ c.toNat < 0x110000 := c.valid
  have hc : Char.ofNat c.toNat = c := Char.ofNat_toNat c
  have hval : c.val.toNat = c.toNat := rfl
  unfold String.utf8EncodeChar
  rw [hval]
  generalize c.toNat = n at hvalid hc
  have hlast : (n % 64 + 128) % 2 ^ 8 = n % 64 + 128 := by omega
  have hmiddle : (n / 64 % 64 + 128) % 2 ^ 8 = n / 64 % 64 + 128 := by omega
  have hthird : (n / 4096 % 64 + 128) % 2 ^ 8 = n / 4096 % 64 + 128 := by omega
  dsimp only
  split_ifs with hone htwo hthree
  · have hbyte : n % 2 ^ 8 = n := by omega
    simp only [List.map_cons, List.map_nil, List.cons_append, List.nil_append, UInt8.toNat_ofNat',
      hbyte]
    rw [decodeLossy_one rest (by omega), hc]
  · have hlead : (n / 64 % 32 + 192) % 2 ^ 8 = n / 64 + 192 := by omega
    simp only [List.map_cons, List.map_nil, List.cons_append, List.nil_append, UInt8.toNat_ofNat',
      hlead, hlast]
    rw [decodeLossy_two rest (isBetween_iff.mpr (by omega)) (isTrail_of_rem rfl), assembled]
    have hwhole : [n % 64 + 128].foldl (fun n b => n * 64 + (b - 0x80)) (n / 64 + 192 - 0xc0) =
        n := by
      simp only [List.foldl_cons, List.foldl_nil]
      omega
    rw [hwhole, hc]
  · have hlead : (n / 4096 % 16 + 224) % 2 ^ 8 = n / 4096 + 224 := by omega
    simp only [List.map_cons, List.map_nil, List.cons_append, List.nil_append, UInt8.toNat_ofNat',
      hlead, hmiddle, hlast]
    have hsecond : isSecond (n / 4096 + 224) (n / 64 % 64 + 128) = true :=
      isSecond_three rfl rfl (by omega) (by omega) (by omega)
    rw [decodeLossy_three rest (isBetween_iff.mpr (by omega)) hsecond (isTrail_of_rem rfl),
      assembled]
    have hwhole : [n / 64 % 64 + 128, n % 64 + 128].foldl (fun n b => n * 64 + (b - 0x80))
        (n / 4096 + 224 - 0xe0) = n := by
      simp only [List.foldl_cons, List.foldl_nil]
      omega
    rw [hwhole, hc]
  · have hlead : (n / 262144 % 8 + 240) % 2 ^ 8 = n / 262144 + 240 := by omega
    simp only [List.map_cons, List.map_nil, List.cons_append, List.nil_append, UInt8.toNat_ofNat',
      hlead, hthird, hmiddle, hlast]
    have hsecond : isSecond (n / 262144 + 240) (n / 4096 % 64 + 128) = true :=
      isSecond_four rfl rfl (by omega) (by omega)
    rw [decodeLossy_four rest (isBetween_iff.mpr (by omega)) hsecond (isTrail_of_rem rfl)
      (isTrail_of_rem rfl), assembled]
    have hwhole : [n / 4096 % 64 + 128, n / 64 % 64 + 128, n % 64 + 128].foldl
        (fun n b => n * 64 + (b - 0x80)) (n / 262144 + 240 - 0xf0) = n := by
      simp only [List.foldl_cons, List.foldl_nil]
      omega
    rw [hwhole, hc]

/-- A text is read from its encoding as it is. -/
theorem ofBytes_toUTF8 (s : String) : ofBytes s.toUTF8 = s.toList := by
  obtain ⟨text, rfl⟩ : ∃ text, s = String.ofList text := ⟨s.toList, by rw [String.ofList_toList]⟩
  have hbytes : ofBytes (String.ofList text).toUTF8 =
      decodeLossy ((text.flatMap String.utf8EncodeChar).map UInt8.toNat) := by
    simp [ofBytes, List.utf8Encode]
  rw [hbytes, String.toList_ofList]
  clear hbytes
  induction text with
  | nil => rfl
  | cons c text ih => rw [List.flatMap_cons, List.map_append, decodeLossy_encode, ih]

end DocSnippets.Text
