import DocSnippets.Diagnostic.Scrub
import DocSnippets.Proofs.Diagnostic.Unmarked
import DocSnippets.Proofs.Text.Digits

/-!
# Spelled work files

The path of a snippet or project file, from the name of the work directory on, as a message may
spell it. The reader of spelled work files accepts exactly these, and another one can begin inside
such a path only within the name of the directory.
-/

namespace DocSnippets.Scrubber

open Text
open WorkFile (mark)

/-- The extensions of snippet and project files. -/
def endings : List (List Char) := [".tsconfig.json".toList, ".tsx".toList, ".ts".toList]

/-- The name of a work directory and of a snippet or project file in it. The name of the directory
may be any that starts with the mark, and the slash may lean either way. -/
inductive IsWorkFile : List Char → Prop
  | spelled {part digits ending : List Char} {slash : Char}
      (hpart : ∀ c ∈ part, isPathChar c = true ∧ isSlash c = false) (hslash : isSlash slash = true)
      (hne : digits ≠ []) (hdigits : ∀ c ∈ digits, isDigit c = true) (hending : ending ∈ endings) :
      IsWorkFile
        (mark ++ (part ++ slash :: (WorkFile.snippetMark.toList ++ (digits ++ ending))))

theorem isPathChar_of_isSlash {c : Char} (h : isSlash c = true) : isPathChar c = true := by
  rw [isSlash, Bool.or_eq_true, decide_eq_true_eq, decide_eq_true_eq] at h
  rcases h with rfl | rfl <;> decide

/-- A range of characters without blanks and delimiters. -/
theorem isPathChar_of_range (low high : Nat)
    (hblanks : ∀ r ∈ blanks.ranges, r.2 < low ∨ high < r.1)
    (hdelimiters : ∀ d ∈ pathDelimiters.map Char.toNat, d < low ∨ high < d) {c : Char}
    (hlow : low ≤ c.toNat) (hhigh : c.toNat ≤ high) : isPathChar c = true := by
  have hblank : isBlank c = false := by
    by_contra hblank
    rw [Bool.not_eq_false] at hblank
    obtain ⟨r, hr, hstart, hstop⟩ := (CharSet.contains_iff _ _).mp hblank
    have := hblanks r hr
    omega
  have hmem : c ∉ pathDelimiters := by
    intro hmem
    have := hdelimiters c.toNat (List.mem_map_of_mem hmem)
    omega
  simp [isPathChar, hblank, hmem]

theorem isPathChar_of_isDigit {c : Char} (h : isDigit c = true) : isPathChar c = true := by
  have hall : ∀ r ∈ digits.ranges, (∀ s ∈ blanks.ranges, s.2 < r.1 ∨ r.2 < s.1) ∧
      ∀ d ∈ pathDelimiters.map Char.toNat, d < r.1 ∨ r.2 < d := by
    decide
  obtain ⟨r, hr, hlow, hhigh⟩ := (CharSet.contains_iff _ _).mp h
  exact isPathChar_of_range r.1 r.2 (hall r hr).1 (hall r hr).2 hlow hhigh

theorem isPathChar_of_isAlphanum {c : Char} (h : c.isAlphanum = true) : isPathChar c = true := by
  rcases toNat_of_isAlphanum h with ⟨hlow, hhigh⟩ | ⟨hlow, hhigh⟩ | ⟨hlow, hhigh⟩
  · exact isPathChar_of_range 65 90 (by decide) (by decide) hlow hhigh
  · exact isPathChar_of_range 97 122 (by decide) (by decide) hlow hhigh
  · exact isPathChar_of_range 48 57 (by decide) (by decide) hlow hhigh

theorem isPathChar_of_mem_mark : ∀ c ∈ mark, isPathChar c = true :=
  List.all_eq_true.mp (by decide)

namespace IsWorkFile

variable {f : List Char}

theorem mark_prefix (h : IsWorkFile f) : mark <+: f := by
  cases h
  exact List.prefix_append _ _

theorem ne_nil (h : IsWorkFile f) : f ≠ [] := by
  rintro rfl
  exact WorkFile.mark_ne_nil (List.prefix_nil.mp h.mark_prefix)

theorem isPathChar (h : IsWorkFile f) : ∀ c ∈ f, isPathChar c = true := by
  have hsnippet : WorkFile.snippetMark.toList.all Scrubber.isPathChar = true := by decide
  have hendings : ∀ e ∈ endings, e.all Scrubber.isPathChar = true := by decide
  cases h with
  | spelled hpart hslash hne hdigits hending =>
    intro c hc
    simp only [List.mem_append, List.mem_cons] at hc
    rcases hc with hc | hc | rfl | hc | hc | hc
    · exact isPathChar_of_mem_mark c hc
    · exact (hpart c hc).1
    · exact isPathChar_of_isSlash hslash
    · exact List.all_eq_true.mp hsnippet c hc
    · exact isPathChar_of_isDigit (hdigits c hc)
    · exact List.all_eq_true.mp (hendings _ hending) c hc

end IsWorkFile

theorem afterExtension?_append {ending : List Char} (h : ending ∈ endings) (rest : List Char) :
    afterExtension? (ending ++ rest) ≠ none := by
  unfold afterExtension?
  split
  · simp
  · next hproject =>
    simp only [endings, List.mem_cons, List.not_mem_nil, or_false] at h
    rcases h with rfl | rfl | rfl
    · rw [isPrefixOf?_append] at hproject
      cases hproject
    · have hsplit : ".tsx".toList ++ rest = ".ts".toList ++ ('x' :: rest) := rfl
      rw [hsplit, isPrefixOf?_append]
      simp
    · rw [isPrefixOf?_append]
      simp

theorem exists_ending {text rest : List Char} (h : afterExtension? text = some rest) :
    ∃ ending ∈ endings, text = ending ++ rest := by
  unfold afterExtension? at h
  split at h
  · next r hr =>
    obtain rfl := Option.some.inj h
    exact ⟨_, by simp [endings], eq_append_of_isPrefixOf? hr⟩
  · obtain ⟨r, hr, rfl⟩ := Option.map_eq_some_iff.mp h
    rw [eq_append_of_isPrefixOf? hr]
    cases hx : ['x'].isPrefixOf? r with
    | none => exact ⟨_, by simp [endings], rfl⟩
    | some r' =>
      refine ⟨".tsx".toList, by simp [endings], ?_⟩
      rw [eq_append_of_isPrefixOf? hx]
      rfl

theorem afterWorkFile?_append {f : List Char} (h : IsWorkFile f) (rest : List Char) :
    afterWorkFile? (f ++ rest) ≠ none := by
  cases h with
  | @spelled part digits ending slash hpart hslash hne hdigits hending =>
    have hplain : ∀ c ∈ part, (isPathChar c && !isSlash c) = true := by
      intro c hc
      simp [hpart c hc]
    have hdot : ∃ more, ending = '.' :: more := by
      simp only [endings, List.mem_cons, List.not_mem_nil, or_false] at hending
      rcases hending with rfl | rfl | rfl <;> exact ⟨_, rfl⟩
    obtain ⟨digit, more, rfl⟩ := List.exists_cons_of_ne_nil hne
    have hdigit : isDigit digit = true := hdigits digit List.mem_cons_self
    have hstop : (digit :: more ++ (ending ++ rest)).dropWhile isDigit = ending ++ rest := by
      obtain ⟨tail, rfl⟩ := hdot
      rw [List.dropWhile_append_of_pos hdigits]
      exact List.dropWhile_cons_of_neg (by decide)
    have hname : (part ++ slash :: (WorkFile.snippetMark.toList ++
        (digit :: more ++ (ending ++ rest)))).dropWhile
          (fun c => isPathChar c && !isSlash c) =
        slash :: (WorkFile.snippetMark.toList ++ (digit :: more ++ (ending ++ rest))) := by
      rw [List.dropWhile_append_of_pos hplain]
      exact List.dropWhile_cons_of_neg (by simp [hslash])
    have htext : mark ++ (part ++ slash :: (WorkFile.snippetMark.toList ++
        (digit :: more ++ ending))) ++ rest =
        mark ++ (part ++ slash :: (WorkFile.snippetMark.toList ++
          (digit :: more ++ (ending ++ rest)))) := by
      simp only [List.append_assoc, List.cons_append]
    rw [htext]
    unfold afterWorkFile?
    rw [show WorkFile.directoryMark.toList = mark from rfl, isPrefixOf?_append]
    simp only [bind, Option.bind_some]
    rw [hname]
    dsimp only
    rw [if_pos hslash, isPrefixOf?_append, Option.bind_some, hstop]
    simpa [hdigit] using afterExtension?_append hending rest

theorem exists_workFile {text rest : List Char} (h : afterWorkFile? text = some rest) :
    ∃ f, IsWorkFile f ∧ text = f ++ rest := by
  unfold afterWorkFile? at h
  obtain ⟨r, hr, h⟩ := Option.bind_eq_some_iff.mp h
  have hpart : ∀ c ∈ r.takeWhile (fun c => isPathChar c && !isSlash c),
      isPathChar c = true ∧ isSlash c = false := by
    intro c hc
    have hall := List.all_eq_true.mp List.all_takeWhile c hc
    simpa using hall
  split at h
  · cases h
  · next slash r' hdrop =>
    split at h
    · next hslash =>
      obtain ⟨r'', hr'', h⟩ := Option.bind_eq_some_iff.mp h
      split at h
      · next hhead =>
        obtain ⟨ending, hending, htail⟩ := exists_ending h
        have hdigits : ∀ c ∈ r''.takeWhile isDigit, isDigit c = true :=
          List.all_eq_true.mp List.all_takeWhile
        have hne : r''.takeWhile isDigit ≠ [] := by
          cases r'' with
          | nil => cases hhead
          | cons c more =>
            have hc : isDigit c = true := by simpa using hhead
            simp [hc]
        refine ⟨_, .spelled hpart hslash hne hdigits hending, ?_⟩
        have hnumber : r'' = r''.takeWhile isDigit ++ (ending ++ rest) := by
          rw [← htail, List.takeWhile_append_dropWhile]
        have hname : r' = WorkFile.snippetMark.toList ++
            (r''.takeWhile isDigit ++ (ending ++ rest)) := by
          rw [← hnumber]
          exact eq_append_of_isPrefixOf? hr''
        have hdirectory : r = r.takeWhile (fun c => isPathChar c && !isSlash c) ++ slash :: r' := by
          rw [← hdrop, List.takeWhile_append_dropWhile]
        calc text
          _ = mark ++ r := eq_append_of_isPrefixOf? hr
          _ = mark ++ (r.takeWhile (fun c => isPathChar c && !isSlash c) ++ slash :: r') :=
            congrArg _ hdirectory
          _ = _ := by
            rw [hname]
            simp only [List.append_assoc, List.cons_append]
      · cases h
    · cases h

/-- No mark starts in a text, whatever follows it. -/
def NoStart (text : List Char) : Prop :=
  ∀ t, t <:+ text → t ≠ [] → ∀ rest, ¬ mark <+: t ++ rest

namespace NoStart

theorem of_clash {text : List Char}
    (h : ∀ t ∈ text.tails, t ≠ [] → ¬ t <+: mark ∧ ¬ mark <+: t) : NoStart text := by
  intro t ht hne rest hmark
  obtain ⟨hshort, hlong⟩ := h t ((List.mem_tails t text).mpr ht) hne
  rcases List.prefix_or_prefix_of_prefix hmark (List.prefix_append t rest) with h | h
  · exact hlong h
  · exact hshort h

theorem of_notMem {text : List Char} (h : 'c' ∉ text) : NoStart text := by
  intro t ht hne rest hmark
  obtain ⟨c, more, rfl⟩ := List.exists_cons_of_ne_nil hne
  obtain ⟨tail, hmark⟩ := hmark
  have hc : 'c' = c := (List.cons.inj hmark).1
  exact h (ht.subset (hc ▸ List.mem_cons_self))

theorem append {a b : List Char} (ha : NoStart a) (hb : NoStart b) : NoStart (a ++ b) := by
  rintro t ⟨x, hx⟩ hne rest hmark
  rcases List.append_eq_append_iff.mp hx with ⟨y, rfl, rfl⟩ | ⟨y, rfl, rfl⟩
  · by_cases hy : y = []
    · subst hy
      exact hb b (List.suffix_refl b) hne rest hmark
    · rw [List.append_assoc] at hmark
      exact ha y (List.suffix_append x y) hy _ hmark
  · exact hb t (List.suffix_append y t) hne rest hmark

end NoStart

/-- No mark starts behind the name of the directory. -/
theorem noStart_file {digits ending : List Char} {slash : Char} (hslash : isSlash slash = true)
    (hdigits : ∀ c ∈ digits, isDigit c = true) (hending : ending ∈ endings) :
    NoStart (slash :: (WorkFile.snippetMark.toList ++ (digits ++ ending))) := by
  have hstart : NoStart [slash] := by
    apply NoStart.of_notMem
    intro hmem
    rw [← List.mem_singleton.mp hmem] at hslash
    cases hslash
  have hsnippet : NoStart WorkFile.snippetMark.toList := NoStart.of_clash (by decide)
  have hnumber : NoStart digits := by
    apply NoStart.of_notMem
    intro hmem
    exact absurd (hdigits _ hmem) (by decide)
  have hextension : NoStart ending := by
    have hall : ∀ e ∈ endings, ∀ t ∈ e.tails, t ≠ [] → ¬ t <+: mark ∧ ¬ mark <+: t := by decide
    exact NoStart.of_clash (hall ending hending)
  exact hstart.append (hsnippet.append (hnumber.append hextension))

/-- A mark overlaps itself only as a whole. -/
theorem mark_unbordered {t : List Char} (ht : t <:+ mark) (hne : t ≠ []) (h : t <+: mark) :
    t = mark := by
  have hall : ∀ t ∈ mark.tails, t ≠ [] → t <+: mark → t = mark := by decide
  exact hall t ((List.mem_tails t mark).mpr ht) hne h

namespace IsWorkFile

variable {part digits ending rest : List Char} {slash : Char}

/-- A mark in the name of the directory is the start of a shorter name. -/
theorem of_part (hpart : ∀ c ∈ part, Scrubber.isPathChar c = true ∧ isSlash c = false)
    (hslash : isSlash slash = true) (hne : digits ≠ []) (hdigits : ∀ c ∈ digits, isDigit c = true)
    (hending : ending ∈ endings)
    (hmark : mark <+: part ++ slash :: (WorkFile.snippetMark.toList ++ (digits ++ ending)) ++ rest) :
    IsWorkFile (part ++ slash :: (WorkFile.snippetMark.toList ++ (digits ++ ending))) := by
  have hapart : slash ∉ mark := by
    intro hmem
    have hplain : mark.all (fun c => !isSlash c) = true := by decide
    simpa [hslash] using List.all_eq_true.mp hplain slash hmem
  rw [List.append_assoc, List.cons_append] at hmark
  obtain ⟨more, rfl⟩ := prefix_of_append_cons hapart hmark
  rw [List.append_assoc]
  exact .spelled (fun c hc => hpart c (List.mem_append_right mark hc)) hslash hne hdigits hending

/-- What a mark begins inside a work file is itself a work file. -/
theorem of_mark {x y : List Char} (h : IsWorkFile (x ++ y)) (hy : y ≠ [])
    (hmark : mark <+: y ++ rest) : IsWorkFile y := by
  generalize hf : x ++ y = f at h
  cases h with
  | @spelled part digits ending slash hpart hslash hne hdigits hending =>
    rcases List.append_eq_append_iff.mp hf with ⟨m, hm, rfl⟩ | ⟨x', rfl, hx'⟩
    · -- The two marks overlap, so they are one, unless the second starts right behind the first.
      by_cases hnil : m = []
      · subst hnil
        exact of_part hpart hslash hne hdigits hending hmark
      · have hshort : m <+: mark := by
          have hlength : m.length ≤ mark.length := by
            rw [hm, List.length_append]
            exact Nat.le_add_left _ _
          rw [List.append_assoc] at hmark
          exact List.prefix_of_prefix_length_le (List.prefix_append m _) hmark hlength
        obtain rfl := mark_unbordered ⟨x, hm.symm⟩ hnil hshort
        exact .spelled hpart hslash hne hdigits hending
    · rcases List.append_eq_append_iff.mp hx' with ⟨file, rfl, hfile⟩ | ⟨part', rfl, rfl⟩
      · exact absurd hmark (noStart_file hslash hdigits hending y ⟨file, hfile.symm⟩ hy rest)
      · have hshort : ∀ c ∈ part', Scrubber.isPathChar c = true ∧ isSlash c = false :=
          fun c hc => hpart c (List.mem_append_right x' hc)
        exact of_part hshort hslash hne hdigits hending hmark

end IsWorkFile

end DocSnippets.Scrubber
