import DocSnippets.Proofs.Disk.Walk
import Mathlib.Logic.Relation

/-!
# Growing trees

Making a directory with those above it adds directories to a tree and changes nothing that is there.
What is added lies where the path leads or where one of its ancestors leads.
-/

namespace DocSnippets

/-- The second path is the first one or one of its ancestors. -/
abbrev Path.Above : Path → Path → Prop :=
  Relation.ReflTransGen fun p parent => p.parent? = some parent

namespace Text

theorem splitOn_replicate (sep : Char) (n : Nat) :
    splitOn sep (List.replicate n sep) = List.replicate (n + 1) [] := by
  induction n with
  | zero => rfl
  | succ n ih => rw [List.replicate_succ, splitOn, if_pos rfl, ih, List.replicate_succ (n := n + 1)]

/-- Separators at the end of a text give empty parts. -/
theorem splitOn_append_replicate (sep : Char) (text : List Char) (n : Nat) :
    splitOn sep (text ++ List.replicate n sep) = splitOn sep text ++ List.replicate n [] := by
  cases n with
  | zero => simp
  | succ n => rw [List.replicate_succ, splitOn_append_cons, splitOn_replicate]

end Text

namespace Disk

open Text

/-- Two trees that cannot be told apart. -/
structure Same (d d' : Disk) : Prop where
  current : d'.current = d.current
  entry : ∀ l, d'.entry? l = d.entry? l

/-- The second tree is the first one with more directories, all of them where the path or one of its
ancestors leads. -/
structure MadeFor (d d' : Disk) (p : Path) : Prop where
  current : d'.current = d.current
  kept : ∀ l e, d.entry? l = some e → d'.entry? l = some e
  made : ∀ l e, d.entry? l = none → d'.entry? l = some e →
    e = .directory ∧ ∃ q, p.Above q ∧ d'.locate q = .ok l

variable {a b c d d' : Disk} {p : Path}

theorem walk_blanks {l : Location} (h : d.entry? l = some .directory) (n : Nat) :
    d.walk l (List.replicate n []) = .ok l := by
  have hshort : ¬ nameLimit < byteLength [] := by decide
  induction n with
  | zero => rfl
  | succ n ih => simp only [List.replicate_succ, walk, h, if_neg hshort, true_or, if_true, ih]

/-- A path that was good stays good in a tree with the same directories and more. -/
theorem locate_grown (hk : Keeps d d') (hcurrent : d'.current = d.current) {l : Location}
    (h : d.locate p = .ok l) : d'.locate p = .ok l := by
  unfold locate at h ⊢
  split at h
  · cases h
  · rw [hcurrent]
    exact walk_keeps hk h

namespace Same

theorem symm (h : Same d d') : Same d' d where
  current := h.current.symm
  entry l := (h.entry l).symm

theorem locate_ok (h : Same d d') {l : Location} (hl : d.locate p = .ok l) :
    d'.locate p = .ok l := by
  refine locate_grown (fun l hdir => ?_) h.current hl
  rw [h.entry, hdir]

end Same

namespace MadeFor

theorem keeps (h : d.MadeFor d' p) : Keeps d d' := fun l => h.kept l .directory

theorem refl (d : Disk) (p : Path) : d.MadeFor d p where
  current := rfl
  kept _ _ h := h
  made l e hnone hsome := by
    rw [hnone] at hsome
    cases hsome

theorem trans (hab : a.MadeFor b p) (hbc : b.MadeFor c p) : a.MadeFor c p where
  current := hbc.current.trans hab.current
  kept l e h := hbc.kept l e (hab.kept l e h)
  made l e hnone hsome := by
    cases hentry : b.entry? l with
    | none => exact hbc.made l e hentry hsome
    | some e' =>
      obtain ⟨hdir, q, habove, hlocate⟩ := hab.made l e' hnone hentry
      have hkept := hbc.kept l e' hentry
      rw [hsome] at hkept
      obtain rfl := Option.some.inj hkept
      exact ⟨hdir, q, habove, locate_grown hbc.keeps hbc.current hlocate⟩

/-- What was made for the parent of a path was made for the path. -/
theorem of_parent {parent : Path} (h : d.MadeFor d' parent) (hparent : p.parent? = some parent) :
    d.MadeFor d' p where
  current := h.current
  kept := h.kept
  made l e hnone hsome := by
    obtain ⟨hdir, q, habove, hlocate⟩ := h.made l e hnone hsome
    exact ⟨hdir, q, habove.head hparent, hlocate⟩

theorem of_same (h : a.MadeFor b p) (hsame : Same b c) : a.MadeFor c p where
  current := hsame.current.trans h.current
  kept l e he := (hsame.entry l).trans (h.kept l e he)
  made l e hnone hsome := by
    rw [hsame.entry] at hsome
    obtain ⟨hdir, q, habove, hlocate⟩ := h.made l e hnone hsome
    exact ⟨hdir, q, habove, hsame.locate_ok hlocate⟩

/-- Nothing comes up where nothing is made. -/
theorem entry?_none (h : d.MadeFor d' p) {l : Location} (hnone : d'.entry? l = none) :
    d.entry? l = none := by
  cases hentry : d.entry? l with
  | none => rfl
  | some e =>
    rw [h.kept l e hentry] at hnone
    cases hnone

end MadeFor

/-- What is dropped from the end of a path are slashes alone. -/
theorem exists_dropSlashes (p : Path) :
    dropSlashes p = p ∨ (dropSlashes p).text.toList ≠ [] ∧
      ∃ n, p.text.toList = (dropSlashes p).text.toList ++ List.replicate n '/' := by
  unfold dropSlashes
  dsimp only
  split
  · exact Or.inl rfl
  · next hkept =>
    rw [String.toList_ofList]
    refine Or.inr ⟨hkept, (p.text.toList.reverse.takeWhile (· = '/')).length, ?_⟩
    have hslashes : p.text.toList.reverse.takeWhile (· = '/') =
        List.replicate (p.text.toList.reverse.takeWhile (· = '/')).length '/' := by
      rw [List.eq_replicate_iff]
      refine ⟨rfl, fun c hc => ?_⟩
      simpa using List.all_eq_true.mp List.all_takeWhile c hc
    rw [← List.reverse_replicate, ← hslashes, ← List.reverse_append,
      List.takeWhile_append_dropWhile, List.reverse_reverse]

/-- A path leads to the same place without the slashes at its end, where there is a directory. -/
theorem locate_of_dropSlashes {l : Location} (hfault : pathFault? p = none)
    (h : d.locate (dropSlashes p) = .ok l) (hdir : d.entry? l = some .directory) :
    d.locate p = .ok l := by
  rcases exists_dropSlashes p with hsame | ⟨hne, n, htext⟩
  · rwa [hsame] at h
  · have habsolute : p.isAbsolute = (dropSlashes p).isAbsolute := by
      obtain ⟨c, rest, hkept⟩ := List.exists_cons_of_ne_nil hne
      unfold Path.isAbsolute
      rw [htext, hkept, List.cons_append, List.head?_cons, List.head?_cons]
    unfold locate at h ⊢
    rw [hfault, htext, splitOn_append_replicate, habsolute, walk_append]
    split at h
    · cases h
    · rw [h]
      exact walk_blanks hdir n

theorem makeDirectory_made (h : d.makeDirectory p = .ok d') : d.MadeFor d' p := by
  unfold makeDirectory at h
  cases hfault : pathFault? p with
  | some fault => rw [hfault] at h; cases h
  | none =>
    rw [hfault] at h
    cases hlocate : d.locate (dropSlashes p) with
    | error fault => simp only [hlocate, bind, Except.bind] at h; cases h
    | ok top =>
      simp only [hlocate, bind, Except.bind] at h
      cases hentry : d.entry? top with
      | some e => rw [hentry] at h; cases h
      | none =>
        rw [hentry] at h
        obtain rfl := Except.ok.inj h
        have htop : top ≠ [] := by
          rintro rfl
          cases hentry
        have hkeeps : Keeps d (d.put top .directory) := keeps_put (by simp [hentry]) _
        constructor
        case current => rfl
        case kept =>
          intro l e he
          have hne : l ≠ top := by
            rintro rfl
            rw [hentry] at he
            cases he
          rwa [entry?_put htop, if_neg hne]
        case made =>
          intro l e hnone hsome
          rw [entry?_put htop] at hsome
          split at hsome
          · next heq =>
            subst heq
            have hdir : entry? (d.put l .directory) l = some .directory := by
              rw [entry?_put htop, if_pos rfl]
            refine ⟨(Option.some.inj hsome).symm, p, .refl, ?_⟩
            exact locate_of_dropSlashes hfault (locate_grown hkeeps rfl hlocate) hdir
          · rw [hnone] at hsome
            cases hsome

theorem settle_ensureDirectory_made (d : Disk) (p : Path) :
    d.MadeFor (d.settle (d.ensureDirectory p)).2 p := by
  unfold ensureDirectory
  split
  · next d' hmade => exact makeDirectory_made hmade
  · split
    · exact MadeFor.refl d p
    · exact MadeFor.refl d p

theorem makeWithParents_made (d : Disk) (depth : Nat) (p : Path) :
    d.MadeFor (d.makeWithParents depth p).2 p := by
  induction depth generalizing d p with
  | zero => exact settle_ensureDirectory_made d p
  | succ depth ih =>
    rw [makeWithParents]
    split
    · next d' hmade => exact makeDirectory_made hmade
    · split
      · exact MadeFor.refl d p
      · next parent hparent =>
        have habove : d.MadeFor (if parent.text = "" then (none, d)
            else d.makeWithParents depth parent).2 p := by
          split
          · exact MadeFor.refl d p
          · exact (ih d parent).of_parent hparent
        dsimp only
        split
        · exact habove
        · exact habove.trans (settle_ensureDirectory_made _ p)
    · split
      · exact MadeFor.refl d p
      · exact MadeFor.refl d p

theorem makeDirectories_made (d : Disk) (p : Path) : d.MadeFor (d.makeDirectories p).2 p := by
  unfold makeDirectories
  split
  · exact MadeFor.refl d p
  · exact makeWithParents_made d p.components.length p

end Disk

end DocSnippets
