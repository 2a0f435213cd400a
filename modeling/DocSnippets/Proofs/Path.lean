import DocSnippets.Path
import Mathlib.Algebra.GroupWithZero.Nat

/-!
# Files in a directory

A path that is spelled as a directory, a slash and a name has that name as its last component, and
changing its extension changes nothing before the last dot.
-/

namespace DocSnippets

namespace Text

theorem splitOn_append_cons (sep : Char) (a b : List Char) :
    splitOn sep (a ++ sep :: b) = splitOn sep a ++ splitOn sep b := by
  induction a with
  | nil => simp [splitOn]
  | cons c a ih =>
    rw [List.cons_append, splitOn, splitOn, ih]
    by_cases hc : c = sep
    · rw [if_pos hc, if_pos hc, List.cons_append]
    · rw [if_neg hc, if_neg hc]
      cases hparts : splitOn sep a with
      | nil => exact absurd hparts (splitOn_ne_nil sep a)
      | cons part parts => rfl

theorem splitOn_of_notMem {sep : Char} {text : List Char} (h : sep ∉ text) :
    splitOn sep text = [text] := by
  induction text with
  | nil => rfl
  | cons c text ih =>
    have hc : c ≠ sep := fun heq => h (heq ▸ List.mem_cons_self)
    rw [splitOn, if_neg hc, ih fun hmem => h (List.mem_cons_of_mem c hmem)]

theorem notMem_of_mem_splitOn {sep : Char} {text part : List Char} (h : part ∈ splitOn sep text) :
    sep ∉ part := by
  induction text generalizing part with
  | nil =>
    obtain rfl := List.mem_singleton.mp h
    exact List.not_mem_nil
  | cons c text ih =>
    rw [splitOn] at h
    split at h
    · rcases List.mem_cons.mp h with rfl | h
      · exact List.not_mem_nil
      · exact ih h
    · next hc =>
      split at h
      · next hnil => exact absurd hnil (splitOn_ne_nil sep text)
      · next part' parts hparts =>
        rcases List.mem_cons.mp h with rfl | h
        · intro hmem
          rcases List.mem_cons.mp hmem with heq | hmem
          · exact hc heq.symm
          · exact ih (hparts ▸ List.mem_cons_self) hmem
        · exact ih (hparts ▸ List.mem_cons_of_mem part' h)

/-- The parts with a separator behind each of them make up the text and one separator. -/
theorem sum_length_splitOn (sep : Char) (text : List Char) :
    ((splitOn sep text).map fun part => part.length + 1).sum = text.length + 1 := by
  induction text with
  | nil => rfl
  | cons c text ih =>
    rw [splitOn]
    split
    · rw [List.map_cons, List.sum_cons, ih, List.length_cons, List.length_nil]
      omega
    · cases hparts : splitOn sep text with
      | nil => exact absurd hparts (splitOn_ne_nil sep text)
      | cons part parts =>
        rw [hparts, List.map_cons, List.sum_cons] at ih
        rw [List.map_cons, List.sum_cons, List.length_cons, List.length_cons]
        omega

end Text

namespace Path

/-- A part of a path that is a name. -/
structure IsName (part : List Char) : Prop where
  ne_nil : part ≠ []
  ne_dot : part ≠ ['.']
  ne_dots : part ≠ ['.', '.']
  noSlash : '/' ∉ part

variable {name : List Char}

theorem marksFrom_append (h : IsName name) (parts : List (List Char)) (pos : Nat) (first : Bool) :
    marksFrom pos first (parts ++ [name]) =
      marksFrom pos first parts ++
        [(.name (String.ofList name),
          pos + (parts.map fun part => part.length + 1).sum + name.length)] := by
  induction parts generalizing pos first with
  | nil => simp [marksFrom, h.ne_nil, h.ne_dot, h.ne_dots]
  | cons part parts ih =>
    rw [List.cons_append, marksFrom, marksFrom, ih]
    have hstop : pos + part.length + 1 + (parts.map fun part => part.length + 1).sum =
        pos + ((part :: parts).map fun part => part.length + 1).sum := by
      rw [List.map_cons, List.sum_cons]
      omega
    rw [hstop]
    split
    · rfl
    · split
      · split <;> rfl
      · split <;> rfl

theorem getLast?_marks (h : IsName name) (dir : List Char) :
    (⟨String.ofList (dir ++ '/' :: name)⟩ : Path).marks.getLast? =
      some (.name (String.ofList name), (dir ++ '/' :: name).length) := by
  unfold marks
  dsimp only
  rw [String.toList_ofList, Text.splitOn_append_cons, Text.splitOn_of_notMem h.noSlash,
    marksFrom_append h, Text.sum_length_splitOn]
  have hstop : 0 + (dir.length + 1) + name.length = (dir ++ '/' :: name).length := by
    rw [List.length_append, List.length_cons]
    omega
  rw [hstop]
  split
  · rw [← List.cons_append, List.getLast?_concat]
  · rw [List.getLast?_concat]

theorem fileName?_append (h : IsName name) (dir : List Char) :
    (⟨String.ofList (dir ++ '/' :: name)⟩ : Path).fileName? = some (String.ofList name) := by
  unfold fileName? components
  rw [List.getLast?_map, getLast?_marks h]
  rfl

theorem splitName_append {stem extension : List Char} (hstem : stem ≠ [])
    (hext : '.' ∉ extension) : splitName (stem ++ '.' :: extension) = (stem, some extension) := by
  have hplain : ∀ c ∈ extension.reverse, (c != '.') = true := by
    intro c hc
    rw [bne_iff_ne]
    rintro rfl
    exact hext (List.mem_reverse.mp hc)
  unfold splitName
  dsimp only
  rw [List.reverse_append, List.reverse_cons, List.append_assoc,
    List.takeWhile_append_of_pos hplain, List.dropWhile_append_of_pos hplain]
  simp [hstem]

variable {stem : List Char}

theorem setExtension_append {extension : List Char} (hname : IsName (stem ++ '.' :: extension))
    (hstem : stem ≠ []) (hext : '.' ∉ extension) (dir : List Char) (new : String) :
    (⟨String.ofList (dir ++ '/' :: (stem ++ '.' :: extension))⟩ : Path).setExtension new =
      ⟨String.ofList (dir ++ '/' :: (stem ++ '.' :: new.toList))⟩ := by
  unfold setExtension
  rw [getLast?_marks hname]
  dsimp only
  rw [String.toList_ofList, String.toList_ofList, splitName_append hstem hext]
  dsimp only
  have hkeep : (dir ++ '/' :: (stem ++ '.' :: extension)).length -
      (stem ++ '.' :: extension).length + stem.length = (dir ++ '/' :: stem).length := by
    simp only [List.length_append, List.length_cons]
    omega
  have htext : dir ++ '/' :: (stem ++ '.' :: extension) =
      (dir ++ '/' :: stem) ++ '.' :: extension := by simp
  rw [hkeep, htext, List.take_left]
  simp

theorem withExtension_append {extension : List Char} (hname : IsName (stem ++ '.' :: extension))
    (hstem : stem ≠ []) (hdot : stem ≠ ['.']) (hext : '.' ∉ extension) (dir : List Char)
    (new : String) :
    (⟨String.ofList (dir ++ '/' :: (stem ++ '.' :: extension))⟩ : Path).withExtension new =
      ⟨String.ofList (dir ++ '/' :: (stem ++ '.' :: new.toList))⟩ := by
  unfold withExtension extension?
  rw [fileName?_append hname]
  dsimp only [Option.bind_some]
  rw [String.toList_ofList, splitName_append hstem hext]
  dsimp only
  rw [String.toList_ofList]
  have htext : dir ++ '/' :: (stem ++ '.' :: extension) =
      (dir ++ '/' :: (stem ++ ['.'])) ++ extension := by simp
  have hkeep : (dir ++ '/' :: (stem ++ '.' :: extension)).length - extension.length =
      (dir ++ '/' :: (stem ++ ['.'])).length := by
    simp only [List.length_append, List.length_cons, List.length_nil]
    omega
  rw [hkeep, htext, List.take_left]
  -- What is left ends with the dot: its extension has no characters.
  have hleft : IsName (stem ++ '.' :: []) := by
    constructor
    case ne_nil => simp
    case ne_dot => simpa using hstem
    case ne_dots =>
      intro heq
      have hpair : stem ++ ['.'] = ['.'] ++ ['.'] := heq
      exact hdot (List.append_inj_left' hpair rfl)
    case noSlash =>
      intro hmem
      refine hname.noSlash ?_
      rcases List.mem_append.mp hmem with hmem | hmem
      · exact List.mem_append_left _ hmem
      · exact absurd hmem (by decide)
  exact setExtension_append hleft hstem List.not_mem_nil dir new

end Path

end DocSnippets
