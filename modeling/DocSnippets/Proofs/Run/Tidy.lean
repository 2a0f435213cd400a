import DocSnippets.Proofs.Run.Workplace

/-!
# Steps of a confined compiler

What the steps of a worker do to the tree of a run: no directory disappears, and no directory comes
up in the place of a snippet file that is still to be written. A step for one number leaves the
other numbers alone. The outcome of a snippet is then what the compiler replies to it, or, where its
file does not fit, that it could not be written.
-/

namespace DocSnippets

open Text
open Disk (childPath Keeps)

/-- A tree that is good for the files still to be written: those whose numbers are to be given, and
those whose numbers are reserved. -/
structure Tidy (w : WorkDirectory) (home : Disk) (reserved : Nat → Prop) (shared : Shared) :
    Prop where
  keeps : Keeps home shared.disk
  clear : ∀ id dialect, shared.nextId ≤ id ∨ reserved id →
    shared.disk.entry? (w.location ++ [WorkFile.snippetName id dialect]) ≠ some .directory

/-- The fault of a snippet file: only a name or a path that is too long. -/
def WorkDirectory.faultOf (w : WorkDirectory) (id : Nat) (dialect : Dialect) : Option Disk.Fault :=
  if w.Fits id dialect then none else some .nameTooLong

/-- What is replied for a snippet: by the compiler, or that its file could not be written. -/
def replyTo (reply : String → Dialect → CompilerOptions → Reply) (options : CompilerOptions)
    (s : Prepared) : Option Disk.Fault → Reply
  | none => reply s.submitted s.block.dialect options
  | some fault => .unwritten fault

namespace WorkFile

theorem snippetName_noNul (id : Nat) (dialect : Dialect) :
    '\x00' ∉ (snippetName id dialect).toList := by
  rw [toList_snippetName]
  intro hmem
  rcases List.mem_append.mp hmem with hmem | hmem
  · exact notMem_stem (by decide) (by decide) hmem
  · cases dialect <;> exact absurd hmem (by decide)

theorem projectName_noNul (id : Nat) : '\x00' ∉ (projectName id).toList := by
  rw [toList_projectName]
  intro hmem
  rcases List.mem_append.mp hmem with hmem | hmem
  · exact notMem_stem (by decide) (by decide) hmem
  · exact absurd hmem (by decide)

end WorkFile

namespace WorkDirectory.Made

variable {w : WorkDirectory} {root : List Char} {suffix : String} {home : Disk}

theorem locate_snippetPath (h : w.Made root suffix home) {d : Disk} (hkeeps : Keeps home d)
    (id : Nat) (dialect : Dialect) :
    d.locate (w.snippetPath id dialect) =
      if w.Fits id dialect then .ok (w.location ++ [WorkFile.snippetName id dialect])
      else .error .nameTooLong := by
  have hlocate := h.locate_childPath hkeeps (WorkFile.isName_snippetName id dialect)
    (WorkFile.snippetName_noNul id dialect)
  rw [← h.snippetPath_eq, String.ofList_toList] at hlocate
  exact hlocate

theorem locate_projectFor_ne (h : w.Made root suffix home) {d : Disk} (hkeeps : Keeps home d)
    (id : Nat) (dialect : Dialect) {l : Location}
    (hl : l ≠ w.location ++ [WorkFile.projectName id]) :
    d.locate (WorkFile.projectFor (w.snippetPath id dialect)) ≠ .ok l := by
  rw [h.projectFor_snippetPath, h.locate_childPath hkeeps (WorkFile.isName_projectName id)
    (WorkFile.projectName_noNul id), String.ofList_toList]
  split
  · intro heq
    exact hl (Except.ok.inj heq).symm
  · intro heq
    cases heq

theorem locate_snippetPath_ne (h : w.Made root suffix home) {d : Disk} (hkeeps : Keeps home d)
    (id : Nat) (dialect : Dialect) {l : Location}
    (hl : l ≠ w.location ++ [WorkFile.snippetName id dialect]) :
    d.locate (w.snippetPath id dialect) ≠ .ok l := by
  rw [h.locate_snippetPath hkeeps]
  split
  · intro heq
    exact hl (Except.ok.inj heq).symm
  · intro heq
    cases heq

end WorkDirectory.Made

namespace Tidy

variable {w : Workshop} {root : List Char} {suffix : String} {home : Disk}
  {reserved : Nat → Prop} {shared : Shared}

theorem start (h : w.directory.Made root suffix home) (submitted : List Submission) :
    Tidy w.directory home (fun _ => False) ⟨home, 1, submitted⟩ where
  keeps := Keeps.refl home
  clear id dialect _ := by
    rw [h.bare]
    exact fun hnone => by cases hnone

theorem mono (h : Tidy w.directory home reserved shared) {fewer : Nat → Prop}
    (hfewer : ∀ id, fewer id → reserved id ∨ shared.nextId ≤ id) :
    Tidy w.directory home fewer shared where
  keeps := h.keeps
  clear id dialect hid := by
    refine h.clear id dialect ?_
    rcases hid with hid | hid
    · exact Or.inl hid
    · exact (hfewer id hid).symm

theorem takeFile (h : Tidy w.directory home reserved shared) (s : Prepared) :
    Tidy w.directory home (fun id => reserved id ∨ id = shared.nextId) (w.takeFile s shared).2 where
  keeps := h.keeps
  clear id dialect hid := by
    refine h.clear id dialect ?_
    rcases hid with hid | hid | rfl
    · exact Or.inl (Nat.le_of_succ_le hid)
    · exact Or.inr hid
    · exact Or.inl (Nat.le_refl _)

theorem write (h : Tidy w.directory home reserved shared)
    (hmade : w.directory.Made root suffix home) {id : Nat} (hid : reserved id) (s : Prepared) :
    (Workshop.write s (w.directory.snippetPath id s.block.dialect) shared).1 =
        w.directory.faultOf id s.block.dialect ∧
      Tidy w.directory home reserved
        (Workshop.write s (w.directory.snippetPath id s.block.dialect) shared).2 := by
  have hclear := h.clear id s.block.dialect (Or.inr hid)
  have hlocate := hmade.locate_snippetPath h.keeps id s.block.dialect
  by_cases hfits : w.directory.Fits id s.block.dialect
  · rw [if_pos hfits] at hlocate
    -- Whatever was there, a file is put in its place.
    obtain ⟨content, executable, hwritten⟩ : ∃ content executable,
        shared.disk.writeText (w.directory.snippetPath id s.block.dialect) s.submitted =
          .ok (shared.disk.put (w.directory.location ++ [WorkFile.snippetName id s.block.dialect])
            (.file content executable)) := by
      simp only [Disk.writeText, Disk.write, hlocate, bind, Except.bind]
      cases hentry : shared.disk.entry?
          (w.directory.location ++ [WorkFile.snippetName id s.block.dialect]) with
      | none => exact ⟨_, _, rfl⟩
      | some e =>
        cases e with
        | directory => exact absurd hentry hclear
        | file content executable => exact ⟨_, _, rfl⟩
    have hwrite : Workshop.write s (w.directory.snippetPath id s.block.dialect) shared =
        (none, { shared with
          disk := shared.disk.put (w.directory.location ++
            [WorkFile.snippetName id s.block.dialect]) (.file content executable) }) := by
      rw [Workshop.write, hwritten]
    rw [hwrite, WorkDirectory.faultOf, if_pos hfits]
    refine ⟨rfl, h.keeps.trans (Disk.keeps_put hclear _), fun other dialect hother => ?_⟩
    rw [Disk.entry?_put (by simp)]
    split
    · exact fun hfile => by cases hfile
    · exact h.clear other dialect hother
  · rw [if_neg hfits] at hlocate
    have hwrite : Workshop.write s (w.directory.snippetPath id s.block.dialect) shared =
        (some .nameTooLong, shared) := by
      simp only [Workshop.write, Disk.writeText, Disk.write, hlocate, bind, Except.bind]
    rw [hwrite, WorkDirectory.faultOf, if_neg hfits]
    exact ⟨rfl, h⟩

theorem submit {reply : String → Dialect → CompilerOptions → Reply}
    (h : Tidy w.directory home reserved shared) (hmade : w.directory.Made root suffix home)
    (hconfined : w.compiler.Confined reply) {id : Nat} (hgiven : id < shared.nextId)
    (hid : ¬ reserved id) (s : Prepared) (fault : Option Disk.Fault) :
    Tidy w.directory home reserved
      (w.submit s (w.directory.snippetPath id s.block.dialect) fault shared).2 := by
  cases fault with
  | some fault => exact h
  | none =>
    have hothers := hconfined.others (w.request s (w.directory.snippetPath id s.block.dialect))
      shared.disk
    have hsame : ∀ l, l ≠ w.directory.location ++ [WorkFile.snippetName id s.block.dialect] →
        l ≠ w.directory.location ++ [WorkFile.projectName id] →
        Disk.entry? (w.compiler (w.request s (w.directory.snippetPath id s.block.dialect))
          shared.disk).2 l = shared.disk.entry? l := fun l hsnippet hproject =>
      hothers l (hmade.locate_snippetPath_ne h.keeps id _ hsnippet)
        (hmade.locate_projectFor_ne h.keeps id _ hproject)
    refine ⟨fun l hdir => ?_, ?_⟩
    · have hother : ∀ name, l ≠ w.directory.location ++ [name] := by
        rintro name rfl
        rw [hmade.bare] at hdir
        cases hdir
      exact (hsame l (hother _) (hother _)).trans (h.keeps l hdir)
    · intro other dialect hother
      have hne : other ≠ id := by
        rintro rfl
        rcases hother with hother | hother
        · exact absurd hgiven (Nat.not_lt.mpr hother)
        · exact hid hother
      have hsnippet : w.directory.location ++ [WorkFile.snippetName other dialect] ≠
          w.directory.location ++ [WorkFile.snippetName id s.block.dialect] := fun heq =>
        hne (WorkFile.snippetName_injective (List.cons.inj (List.append_cancel_left heq)).1)
      have hproject : w.directory.location ++ [WorkFile.snippetName other dialect] ≠
          w.directory.location ++ [WorkFile.projectName id] := fun heq =>
        WorkFile.snippetName_ne_projectName other id dialect
          (List.cons.inj (List.append_cancel_left heq)).1
      exact fun hdir => h.clear other dialect hother ((hsame _ hsnippet hproject).symm.trans hdir)

end Tidy

namespace Workshop

variable {w : Workshop} {reply : String → Dialect → CompilerOptions → Reply}

theorem submit_confined (hconfined : w.compiler.Confined reply) (s : Prepared) (file : Path)
    (fault : Option Disk.Fault) (shared : Shared) :
    (w.submit s file fault shared).1 = ((replyTo reply w.options s fault).answer file).outcome := by
  cases fault with
  | none => exact congrArg Answer.outcome (hconfined.answers (w.request s file) shared.disk)
  | some fault => exact (Reply.unwritten_outcome fault file).symm

theorem replyTo_literal (hconfined : w.compiler.Confined reply) (s : Prepared)
    (fault : Option Disk.Fault) : (replyTo reply w.options s fault).Literal := by
  cases fault with
  | none => exact hconfined.literal _ _ _
  | some fault => exact Reply.unwritten_literal fault

/-- The result for a snippet in the file with a number. -/
def resultAt (w : Workshop) (reply : String → Dialect → CompilerOptions → Reply) (id : Nat)
    (s : Prepared) : SnippetResult :=
  result s (w.directory.snippetPath id s.block.dialect)
    ((replyTo reply w.options s (w.directory.faultOf id s.block.dialect)).answer
      (w.directory.snippetPath id s.block.dialect)).outcome

/-- A snippet that the compiler has nothing against is faulty only if its file does not fit. -/
theorem resultAt_isOk {id : Nat} {s : Prepared}
    (h : reply s.submitted s.block.dialect w.options = .success) :
    (w.resultAt reply id s).isOk = true ↔ w.directory.Fits id s.block.dialect := by
  unfold resultAt WorkDirectory.faultOf
  by_cases hfits : w.directory.Fits id s.block.dialect
  · rw [if_pos hfits, replyTo, h]
    exact iff_of_true rfl hfits
  · rw [if_neg hfits]
    exact iff_of_false Bool.false_ne_true hfits

/-- A work directory and a number do not show in a result. -/
theorem resultAt_eq {v : Workshop} {root : List Char} {a b : String} {home home' : Disk}
    (hw : w.directory.Made root a home) (hv : v.directory.Made root b home')
    (hroot : Unmarked root) (hconfined : w.compiler.Confined reply)
    (hoptions : v.options = w.options) {s : Prepared} {i j : Nat}
    (ha : ¬ a.toList ++ '/' :: WorkFile.snippetMark.toList <:+: s.block.file.text.toList)
    (hb : ¬ b.toList ++ '/' :: WorkFile.snippetMark.toList <:+: s.block.file.text.toList)
    (hfits : w.directory.Fits i s.block.dialect ↔ v.directory.Fits j s.block.dialect) :
    w.resultAt reply i s = v.resultAt reply j s := by
  have hfault : v.directory.faultOf j s.block.dialect = w.directory.faultOf i s.block.dialect := by
    simp only [WorkDirectory.faultOf, hfits]
  have hresult := Reply.result_eq
    (replyTo_literal hconfined s (w.directory.faultOf i s.block.dialect))
    (p := hw.place hroot i) (q := hv.place hroot j) ha hb
  rw [hw.place_file, hv.place_file] at hresult
  unfold resultAt
  rw [hfault, hoptions]
  exact hresult

end Workshop

end DocSnippets
