import DocSnippets.Diagnostic.Scrub
import DocSnippets.Proofs.Diagnostic.Unmarked

/-!
# Mentions of work files

A text that mentions the work directory only through the path of a snippet file and of its project
file becomes, when it is scrubbed, a text in which the label of the block stands for each mention.
What is left depends neither on the directory nor on the number of the file.
-/

namespace DocSnippets

open Text
open WorkFile (mark)

inductive Mention where
  | snippet
  | project
deriving DecidableEq

/-- Mentions, each with the text behind it, and a path for each mention. -/
def Mention.spell (path : Mention → List Char) : List (Mention × List Char) → List Char
  | [] => []
  | (m, text) :: rest => path m ++ (text ++ spell path rest)

/-- A text with mentions: what stands before the first one, and the mentions with what stands behind
each of them. -/
structure Template where
  head : List Char
  tail : List (Mention × List Char)

namespace Template

def pathOf (file : Path) : Mention → List Char
  | .snippet => file.text.toList
  | .project => (WorkFile.projectFor file).text.toList

def textFor (file : Path) (t : Template) : List Char := t.head ++ Mention.spell (pathOf file) t.tail

/-- No literal part of a template holds the mark of a work directory. -/
structure Literal (t : Template) : Prop where
  head : Unmarked t.head
  tail : ∀ m ∈ t.tail, Unmarked m.2

end Template

/-- The place of a snippet file: the directory `root` without its final slash, the random part of
the name of the work directory in it, and the number of the file. -/
structure Place where
  root : List Char
  random : List Char
  id : Nat
  root_absolute : root = [] ∨ root.head? = some '/'
  root_unmarked : Unmarked root
  random_noDash : '-' ∉ random
  random_noSlash : '/' ∉ random
  random_noBlank : ' ' ∉ random

namespace Place

variable (p : Place)

/-- What stands before the mark in every path of the place. -/
def base : List Char := p.root ++ ['/']

/-- What stands behind the mark in the path of a file with a name. -/
def within (name : List Char) : List Char := p.random ++ '/' :: name

def file (dialect : Dialect) : Path :=
  ⟨String.ofList (p.base ++ (mark ++ p.within (WorkFile.snippetName p.id dialect).toList))⟩

theorem base_eq : ∃ rest, p.base = '/' :: rest := by
  unfold base
  rcases p.root_absolute with h | h
  · exact ⟨[], by rw [h]; rfl⟩
  · obtain ⟨rest, hroot⟩ := List.head?_eq_some_iff.mp h
    exact ⟨rest ++ ['/'], by rw [hroot, List.cons_append]⟩

theorem toList_file (dialect : Dialect) : (p.file dialect).text.toList =
    p.base ++ (mark ++ p.within (WorkFile.snippetName p.id dialect).toList) :=
  String.toList_ofList

theorem toList_projectFor (dialect : Dialect) :
    (WorkFile.projectFor (p.file dialect)).text.toList =
      p.base ++ (mark ++ p.within (WorkFile.projectName p.id).toList) := by
  have hdir (name : List Char) : p.base ++ (mark ++ p.within name) =
      (p.base ++ mark ++ p.random) ++ '/' :: name := by
    simp only [within, List.append_assoc]
  rw [file, hdir, WorkFile.projectFor_append, hdir, String.toList_ofList]

theorem mark_once {x y r : List Char} (hr : Unmarked (mark.tail ++ r))
    (h : x ++ (mark ++ y) = p.base ++ (mark ++ r)) : x = p.base ∧ y = r := by
  have hsplit : x ++ (mark ++ y) = p.root ++ '/' :: (mark ++ r) := by
    rw [h, base, List.append_assoc, List.singleton_append]
  rcases split_of_notMem WorkFile.mark_ne_nil (by decide) hsplit with ⟨y', hroot, -⟩ | ⟨x', rfl, hx⟩
  · exact absurd ⟨x, y', by rw [hroot, List.append_assoc]⟩ p.root_unmarked
  · cases x' with
    | nil => exact ⟨rfl, (List.append_cancel_left hx).symm⟩
    | cons c x' =>
      have htail : mark.tail ++ r = x' ++ (mark ++ y) := (List.cons.inj hx).2
      exact absurd ⟨x', y, by rw [htail, List.append_assoc]⟩ hr

/-- Behind the mark of a path no other mark comes up, whatever unmarked text follows the path. -/
theorem within_unmarked (dialect : Dialect) {text : List Char} (h : Unmarked text) :
    Unmarked (mark.tail ++ (p.within (WorkFile.snippetName p.id dialect).toList ++ text)) := by
  have htail : Unmarked mark.tail := by
    unfold Unmarked
    decide
  have hname := unmarked_snippetName p.id dialect h
  have hall := (htail.append_of_noDash p.random_noDash).append_cons (c := '/') (by decide) hname
  simpa only [within, List.append_assoc, List.cons_append] using hall

end Place

/-- What may follow a text that is looked at in part: for the project file, whose extension could
be completed, nothing or a further path; for the snippet file anything. -/
abbrev Continuation := List Char → Prop

def Continuation.path : Continuation := fun text => ∀ c ∈ text.head?, c = '/'

def Continuation.any : Continuation := fun _ => True

/-- No mark in a text begins a path whose part behind the mark is `wanted`, whatever allowed text
follows. -/
def Inert (wanted : List Char) (allowed : Continuation) (text : List Char) : Prop :=
  ∀ x y, text = x ++ (mark ++ y) → ∀ next, allowed next → ¬ wanted <+: y ++ next

namespace Inert

theorem of_unmarked {wanted text : List Char} {allowed : Continuation} (h : Unmarked text) :
    Inert wanted allowed text := by
  rintro x y rfl
  exact absurd ⟨x, y, by rw [List.append_assoc]⟩ h

variable {p : Place} {wanted text : List Char} {allowed : Continuation}

theorem not_infix (h : Inert wanted allowed text) (hend : allowed []) :
    ¬ p.base ++ (mark ++ wanted) <:+: text := by
  rintro ⟨before, after, rfl⟩
  refine h (before ++ p.base) (wanted ++ after) (by simp only [List.append_assoc]) [] hend ?_
  rw [List.append_nil]
  exact List.prefix_append wanted after

/-- The path does not come up before its own start when it follows an inert text. -/
theorem not_infix_append_dropLast (h : Inert wanted allowed text) (hne : wanted ≠ [])
    (hpath : ∀ rest, allowed ('/' :: rest)) :
    ¬ p.base ++ (mark ++ wanted) <:+: text ++ (p.base ++ (mark ++ wanted)).dropLast := by
  rintro ⟨before, after, hinfix⟩
  have hdrop : (p.base ++ (mark ++ wanted)).dropLast = p.base ++ (mark ++ wanted.dropLast) := by
    rw [List.dropLast_append_of_ne_nil (by simp [hne]), List.dropLast_append_of_ne_nil hne]
  have hshort : before.length < text.length := by
    have hlength := congrArg List.length hinfix
    have hpos := List.length_pos_iff.mpr hne
    simp only [hdrop, List.length_append, List.length_dropLast] at hlength
    omega
  obtain ⟨rest, hbase⟩ := p.base_eq
  have hslash : (before ++ p.base) ++ (mark ++ (wanted ++ after)) =
      text ++ '/' :: (rest ++ (mark ++ wanted.dropLast)) := by
    rw [hdrop] at hinfix
    rw [← List.cons_append, ← hbase, ← hinfix]
    simp only [List.append_assoc]
  rcases split_of_notMem WorkFile.mark_ne_nil (by decide) hslash with
    ⟨y, htext, hy⟩ | ⟨x, hx, hrest⟩
  · -- The mark lies in the text.
    refine h (before ++ p.base) y htext _ (hpath (rest ++ (mark ++ wanted.dropLast))) ?_
    rw [← hy]
    exact List.prefix_append wanted after
  · -- The mark starts in the path, before the one that the path has.
    have hlength := congrArg List.length hx
    rw [List.length_append, List.length_append, List.length_cons, hbase, List.length_cons]
      at hlength
    have hroot : '/' :: (rest ++ (mark ++ wanted.dropLast)) =
        p.root ++ '/' :: (mark ++ wanted.dropLast) := by
      rw [← List.cons_append, ← hbase, Place.base, List.append_assoc, List.singleton_append]
    have hmark : ('/' :: x) ++ (mark ++ (wanted ++ after)) =
        p.root ++ '/' :: (mark ++ wanted.dropLast) := by
      rw [← hroot, hrest, List.cons_append]
    rcases split_of_notMem WorkFile.mark_ne_nil (by decide) hmark with ⟨y, hr, -⟩ | ⟨z, hz, -⟩
    · exact p.root_unmarked ⟨'/' :: x, y, by rw [hr, List.append_assoc]⟩
    · have hlong := congrArg List.length hz
      have hbaselength := congrArg List.length hbase
      rw [List.length_cons, List.length_append, List.length_cons] at hlong
      rw [Place.base, List.length_append, List.length_singleton, List.length_cons] at hbaselength
      omega

end Inert

end DocSnippets
