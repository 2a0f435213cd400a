import DocSnippets.Proofs.Text.Occurrences
import DocSnippets.Proofs.WorkFile

/-!
# Texts without the mark of a work directory

The name of a work directory starts with a mark. A text is unmarked when the mark does not occur in
it. The mark holds neither a slash nor a dot nor a blank, starts with the only character that can
start it, and ends with a dash, so that unmarked texts combine to unmarked texts.
-/

namespace DocSnippets

open Text

namespace WorkFile

/-- The characters that the name of a work directory starts with. -/
def mark : List Char := directoryMark.toList

theorem mark_ne_nil : mark ≠ [] := by decide

theorem toList_directoryName (suffix : String) :
    (directoryName suffix).toList = mark ++ suffix.toList :=
  String.toList_append

end WorkFile

open WorkFile (mark)

/-- The mark of a work directory does not occur. -/
def Unmarked (text : List Char) : Prop := ¬ mark <:+: text

namespace Unmarked

theorem nil : Unmarked [] := fun h => WorkFile.mark_ne_nil (List.infix_nil.mp h)

theorem of_infix {a b : List Char} (h : a <:+: b) (hb : Unmarked b) : Unmarked a :=
  fun hmark => hb (hmark.trans h)

theorem append_cons {a b : List Char} {c : Char} (ha : Unmarked a) (hc : c ∉ mark)
    (hb : Unmarked b) : Unmarked (a ++ c :: b) :=
  not_infix_append_cons WorkFile.mark_ne_nil hc ha hb

theorem cons {b : List Char} {c : Char} (hc : c ≠ 'c') (hb : Unmarked b) : Unmarked (c :: b) := by
  intro h
  rcases List.infix_cons_iff.mp h with ⟨rest, hrest⟩ | h
  · exact hc (List.cons.inj hrest).1.symm
  · exact hb h

theorem append_of_noStart {a b : List Char} (ha : 'c' ∉ a) (hb : Unmarked b) :
    Unmarked (a ++ b) := by
  induction a with
  | nil => exact hb
  | cons c a ih =>
    have hc : c ≠ 'c' := fun heq => ha (heq ▸ List.mem_cons_self)
    exact cons hc (ih fun hmem => ha (List.mem_cons_of_mem c hmem))

theorem append_of_noDash {a b : List Char} (ha : Unmarked a) (hb : '-' ∉ b) :
    Unmarked (a ++ b) := by
  rintro ⟨x, y, hxy⟩
  rcases List.append_eq_append_iff.mp hxy with ⟨z, rfl, -⟩ | ⟨z, hz, rfl⟩
  · exact ha ⟨x, z, rfl⟩
  · rcases List.eq_nil_or_concat z with rfl | ⟨z, c, rfl⟩
    · exact ha ⟨x, [], by simpa using hz⟩
    · have hmark : mark = "compiled-docs".toList ++ ['-'] := by decide
      have hlast : (x ++ mark).getLast? = some c := by
        rw [hz, List.concat_eq_append, ← List.append_assoc, List.getLast?_concat]
      rw [hmark, ← List.append_assoc, List.getLast?_concat] at hlast
      obtain rfl := Option.some.inj hlast
      exact hb (by simp)

theorem of_noDash {b : List Char} (hb : '-' ∉ b) : Unmarked b := nil.append_of_noDash hb

end Unmarked

theorem unmarked_stem (id : Nat) : Unmarked (WorkFile.stem id) := by
  have hmark : Unmarked WorkFile.snippetMark.toList := by
    unfold Unmarked
    decide
  refine hmark.append_of_noDash fun hmem => ?_
  exact WorkFile.ne_of_mem_digits hmem (by decide) rfl

/-- The name of a snippet file makes no mark with what comes before or after it. -/
theorem unmarked_snippetName (id : Nat) (dialect : Dialect) {text : List Char}
    (h : Unmarked text) : Unmarked ((WorkFile.snippetName id dialect).toList ++ text) := by
  have hext : 'c' ∉ dialect.extension.toList := by cases dialect <;> decide
  rw [WorkFile.toList_snippetName, List.append_assoc]
  exact (unmarked_stem id).append_cons (by decide) (h.append_of_noStart hext)

end DocSnippets
