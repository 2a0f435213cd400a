import DocSnippets.Proofs.Diagnostic.Exposure
import DocSnippets.Run.Compilation

/-!
# What a message names

A message is put together from labels, numbers, fixed words and scrubbed texts. The mark of a work
directory occurs in none of the other parts, so what a message names of a work directory comes from a
scrubbed text.
-/

namespace DocSnippets

open Text
open Scrubber (MarkedPath Silent Exposed IsWorkFile)

/-- A text after the exact paths of the snippet's files have been replaced. -/
def Scrubber.relabel (s : Scrubber) (text : List Char) : List Char :=
  s.exact.foldl (fun acc path => replaceAll path s.label acc) text

/-- The texts of the compiler that an outcome carries. -/
def Outcome.texts : Outcome → List String
  | .success => []
  | .diagnostics list => list.map (·.text)
  | .generic text => [text]

namespace Mapped

variable {needle : List Char}

theorem onLines_cons_cons (a b : List Char) (texts : List (List Char)) :
    onLines (a :: b :: texts) = a ++ '\n' :: onLines (b :: texts) := by
  simp [onLines]

/-- An occurrence does not go over the end of a line. -/
theorem infix_onLines_iff (h : MarkedPath needle) (texts : List (List Char)) :
    needle <:+: onLines texts ↔ ∃ text ∈ texts, needle <:+: text := by
  induction texts with
  | nil =>
    constructor
    · intro hoccurs
      exact absurd (List.infix_nil.mp hoccurs) h.ne_nil
    · rintro ⟨text, hmem, -⟩
      cases hmem
  | cons a texts ih =>
    cases texts with
    | nil => simp [onLines]
    | cons b texts =>
      rw [onLines_cons_cons, List.exists_mem_cons_iff, ← ih]
      constructor
      · intro hoccurs
        by_contra hneither
        obtain ⟨hfirst, hrest⟩ := not_or.mp hneither
        exact not_infix_append_cons h.ne_nil (h.notMem (by decide)) hfirst hrest hoccurs
      · rintro (hfirst | hrest)
        · exact hfirst.trans (List.prefix_append a _).isInfix
        · exact hrest.trans ((List.suffix_cons _ _).trans (List.suffix_append a _)).isInfix

theorem infix_append_iff {before text : List Char} (h : Silent needle before) :
    needle <:+: before ++ text ↔ needle <:+: text :=
  ⟨h text, fun hoccurs => hoccurs.trans (List.suffix_append before text).isInfix⟩

variable {s : Scrubber}

theorem infix_entry_iff (h : MarkedPath needle) (hlabel : Silent needle s.label) (p : Prepared)
    (d : Diagnostic) : needle <:+: entry s p d ↔ needle <:+: s.scrub d.text.toList := by
  have hline : Silent needle " (line ".toList := h.silent_noStart (by decide)
  have hclose : Silent needle "): ".toList := h.silent_noStart (by decide)
  have hcolon : Silent needle ": ".toList := h.silent_noStart (by decide)
  unfold entry
  dsimp only
  split
  · next line _ =>
    have hnumber : Silent needle (Nat.toDigits 10 line) := by
      refine h.silent_noStart fun hmem => ?_
      exact WorkFile.ne_of_mem_digits hmem (by decide) rfl
    exact infix_append_iff (((hlabel.append hline).append hnumber).append hclose)
  · exact infix_append_iff (hlabel.append hcolon)

theorem not_infix_emptyEntry (h : MarkedPath needle) (hlabel : Silent needle s.label) :
    ¬ needle <:+: emptyEntry s := by
  intro hoccurs
  have hwords : ¬ WorkFile.mark <:+: ": compilation failed without diagnostics".toList := by decide
  exact hwords (h.marked.isInfix.trans (hlabel _ hoccurs))

theorem infix_genericMessage_iff (h : MarkedPath needle) (hlabel : Silent needle s.label)
    (text : String) :
    needle <:+: (genericMessage text s).toList ↔ needle <:+: s.scrub text.toList := by
  have hcolon : Silent needle ": ".toList := h.silent_noStart (by decide)
  rw [genericMessage, String.toList_ofList]
  exact infix_append_iff (hlabel.append hcolon)

theorem infix_ofDiagnostics_iff (h : MarkedPath needle) (hlabel : Silent needle s.label)
    (list : List Diagnostic) (p : Prepared) :
    needle <:+: (ofDiagnostics list p s).message.toList ↔
      ∃ d ∈ list, needle <:+: s.scrub d.text.toList := by
  rw [ofDiagnostics]
  dsimp only
  rw [String.toList_ofList, infix_onLines_iff h]
  split
  · next hnone =>
    obtain rfl := List.map_eq_nil_iff.mp hnone
    constructor
    · rintro ⟨text, hmem, hoccurs⟩
      obtain rfl := List.mem_singleton.mp hmem
      exact absurd hoccurs (not_infix_emptyEntry h hlabel)
    · rintro ⟨d, hmem, -⟩
      cases hmem
  · simp only [List.mem_map, exists_exists_and_eq_and, infix_entry_iff h hlabel]

end Mapped

namespace SnippetResult

variable {needle : List Char} {p : Prepared} {file : Path} {o : Outcome} {f : Failure}

/-- A part of the path of a work directory is in a message exactly where it is left exposed in one of
the compiler's texts. -/
theorem infix_message_iff (h : MarkedPath needle)
    (hfile : ¬ needle <:+: p.block.file.text.toList)
    (hfailure : (Workshop.result p file o).failure = some f) :
    needle <:+: f.message.toList ↔
      ∃ text ∈ o.texts,
        Exposed needle ((Scrubber.ofSnippet file p.block).relabel text.toList) := by
  have hlabel : Silent needle (Scrubber.ofSnippet file p.block).label := h.silent_label hfile
  have hscrub (text : List Char) : needle <:+: (Scrubber.ofSnippet file p.block).scrub text ↔
      Exposed needle ((Scrubber.ofSnippet file p.block).relabel text) :=
    h.infix_replaceSpelled_iff hlabel _
  cases o with
  | success => cases hfailure
  | diagnostics list =>
    obtain rfl := Option.some.inj hfailure
    simp only [Mapped.infix_ofDiagnostics_iff h hlabel, hscrub, Outcome.texts, List.mem_map,
      exists_exists_and_eq_and]
  | generic text =>
    obtain rfl := Option.some.inj hfailure
    simp only [Mapped.infix_genericMessage_iff h hlabel, hscrub, Outcome.texts,
      List.mem_singleton, exists_eq_left]

/-- The path of a snippet or project file in a work directory never gets into a message, unless the
name of the documentation file spells it. -/
theorem not_workFile_in_message {work : List Char} (h : IsWorkFile work)
    (hfile : ¬ work <:+: p.block.file.text.toList)
    (hfailure : (Workshop.result p file o).failure = some f) :
    ¬ work <:+: f.message.toList := by
  intro hoccurs
  obtain ⟨text, -, hexposed⟩ := (infix_message_iff h.markedPath hfile hfailure).mp hoccurs
  exact Scrubber.not_exposed_of_isWorkFile h _ hexposed

end SnippetResult

end DocSnippets
