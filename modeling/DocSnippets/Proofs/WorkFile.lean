import DocSnippets.Proofs.Path
import DocSnippets.WorkFile

/-!
# Names of work files

The number of a snippet file can be read off its name. The project file beside it has the same stem
and an extension that no snippet file has.
-/

namespace DocSnippets.WorkFile

/-- The name of a work file up to its extension. -/
def stem (id : Nat) : List Char := snippetMark.toList ++ Nat.toDigits 10 id

def projectName (id : Nat) : String := String.ofList (stem id ++ '.' :: projectExtension.toList)

theorem toList_snippetName (id : Nat) (dialect : Dialect) :
    (snippetName id dialect).toList = stem id ++ '.' :: dialect.extension.toList := by
  simp [snippetName, stem]

theorem toList_projectName (id : Nat) :
    (projectName id).toList = stem id ++ '.' :: projectExtension.toList :=
  String.toList_ofList

theorem ne_of_mem_digits {id : Nat} {c d : Char} (hc : c ∈ Nat.toDigits 10 id)
    (hd : d.isDigit = false) : c ≠ d := by
  rintro rfl
  have hdigit : c.isDigit = true := Nat.isDigit_of_mem_toDigits (by decide) (by decide) hc
  rw [hd] at hdigit
  cases hdigit

theorem notMem_stem {id : Nat} {d : Char} (hmark : d ∉ snippetMark.toList)
    (hd : d.isDigit = false) : d ∉ stem id := by
  intro hmem
  rcases List.mem_append.mp hmem with hmem | hmem
  · exact hmark hmem
  · exact ne_of_mem_digits hmem hd rfl

theorem stem_injective {a b : Nat} (h : stem a = stem b) : a = b := by
  have hdigits : Nat.toDigits 10 a = Nat.toDigits 10 b := List.append_cancel_left h
  have hvalue := congrArg (Nat.ofDigitChars 10 · 0) hdigits
  simpa only [Nat.ofDigitChars_ten_toDigits] using hvalue

theorem length_stem (id : Nat) : 6 ≤ (stem id).length := by
  simp [stem, snippetMark]

theorem stem_ne_nil (id : Nat) : stem id ≠ [] := by
  intro h
  have hlength := length_stem id
  rw [h, List.length_nil] at hlength
  omega

theorem stem_ne_dot (id : Nat) : stem id ≠ ['.'] := by
  intro h
  have hlength := length_stem id
  rw [h, List.length_singleton] at hlength
  omega

theorem isName_stem (id : Nat) {extension : List Char} (hext : '/' ∉ extension) :
    Path.IsName (stem id ++ '.' :: extension) := by
  have hlong : 2 < (stem id ++ '.' :: extension).length := by
    have hlength := length_stem id
    rw [List.length_append]
    omega
  constructor
  case ne_nil =>
    intro h
    rw [h] at hlong
    exact absurd hlong (by decide)
  case ne_dot =>
    intro h
    rw [h] at hlong
    exact absurd hlong (by decide)
  case ne_dots =>
    intro h
    rw [h] at hlong
    exact absurd hlong (by decide)
  case noSlash =>
    intro hmem
    rcases List.mem_append.mp hmem with hmem | hmem
    · exact notMem_stem (by decide) (by decide) hmem
    · rcases List.mem_cons.mp hmem with hmem | hmem
      · cases hmem
      · exact hext hmem

theorem extension_noDot (dialect : Dialect) : '.' ∉ dialect.extension.toList := by
  cases dialect <;> decide

theorem extension_noSlash (dialect : Dialect) : '/' ∉ dialect.extension.toList := by
  cases dialect <;> decide

theorem isName_snippetName (id : Nat) (dialect : Dialect) :
    Path.IsName (snippetName id dialect).toList := by
  rw [toList_snippetName]
  exact isName_stem id (extension_noSlash dialect)

theorem isName_projectName (id : Nat) : Path.IsName (projectName id).toList := by
  rw [toList_projectName]
  exact isName_stem id (by decide)

theorem projectFor_append (dir : List Char) (id : Nat) (dialect : Dialect) :
    projectFor ⟨String.ofList (dir ++ '/' :: (snippetName id dialect).toList)⟩ =
      ⟨String.ofList (dir ++ '/' :: (projectName id).toList)⟩ := by
  rw [toList_snippetName, toList_projectName]
  exact Path.withExtension_append (isName_stem id (extension_noSlash dialect)) (stem_ne_nil id)
    (stem_ne_dot id) (extension_noDot dialect) dir projectExtension

theorem stem_eq_of_append {a b : Nat} {x y : List Char}
    (h : stem a ++ '.' :: x = stem b ++ '.' :: y) : a = b := by
  have hplain : ∀ id, ∀ c ∈ stem id, (c != '.') = true := by
    intro id c hc
    rw [bne_iff_ne]
    rintro rfl
    exact notMem_stem (by decide) (by decide) hc
  have hstem := congrArg (List.takeWhile (· != '.')) h
  rw [List.takeWhile_append_of_pos (hplain a), List.takeWhile_append_of_pos (hplain b)] at hstem
  exact stem_injective (by simpa using hstem)

theorem snippetName_injective {a b : Nat} {d e : Dialect}
    (h : snippetName a d = snippetName b e) : a = b := by
  have hlist := congrArg String.toList h
  rw [toList_snippetName, toList_snippetName] at hlist
  exact stem_eq_of_append hlist

theorem projectName_injective {a b : Nat} (h : projectName a = projectName b) : a = b := by
  have hlist := congrArg String.toList h
  rw [toList_projectName, toList_projectName] at hlist
  exact stem_eq_of_append hlist

theorem snippetName_ne_projectName (a b : Nat) (d : Dialect) : snippetName a d ≠ projectName b := by
  intro h
  have hlist := congrArg String.toList h
  rw [toList_snippetName, toList_projectName] at hlist
  obtain rfl := stem_eq_of_append hlist
  have hext : d.extension.toList = projectExtension.toList :=
    (List.cons.inj (List.append_cancel_left hlist)).2
  cases d <;> exact absurd hext (by decide)

end DocSnippets.WorkFile
