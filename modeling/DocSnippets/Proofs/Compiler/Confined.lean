import DocSnippets.Proofs.Diagnostic.Scrubbing
import DocSnippets.Run.Compilation

/-!
# Confined compilers

A confined compiler answers as a function of the source, the dialect and the options, mentions the
work directory only through the paths of the snippet file and of its project file, and touches no
other file. The result for a snippet does not show where it was compiled.
-/

namespace DocSnippets

structure Remark where
  offset : Option Nat
  code : Option Nat
  text : Template

/-- An answer with mentions in the place of paths. -/
inductive Reply where
  | success
  | diagnostics (list : List Remark)
  | generic (text : Template)
  | panicked (text : Option Template)

namespace Remark

def diagnostic (file : Path) (r : Remark) : Diagnostic where
  offset := r.offset
  code := r.code
  text := String.ofList (r.text.textFor file)

end Remark

namespace Reply

def answer (file : Path) : Reply → Answer
  | .success => .finished .success
  | .diagnostics list => .finished (.diagnostics (list.map (Remark.diagnostic file)))
  | .generic text => .finished (.generic (String.ofList (text.textFor file)))
  | .panicked text => .panicked (text.map fun t => String.ofList (t.textFor file))

/-- The literal parts of a reply do not name a work directory. -/
def Literal : Reply → Prop
  | .success => True
  | .diagnostics list => ∀ r ∈ list, r.text.Literal
  | .generic text => text.Literal
  | .panicked text => ∀ t ∈ text, t.Literal

end Reply

/-- A compiler whose answers are those of a reply function, and which leaves everything as it is but
the snippet file and the project file. -/
structure Compiler.Confined (c : Compiler) (reply : String → Dialect → CompilerOptions → Reply) :
    Prop where
  answers : ∀ r d, (c r d).1 = (reply r.source r.dialect r.options).answer r.file
  literal : ∀ source dialect options, (reply source dialect options).Literal
  others : ∀ r d l, d.locate r.file ≠ .ok l → d.locate (WorkFile.projectFor r.file) ≠ .ok l →
    Disk.entry? (c r d).2 l = d.entry? l

namespace Template

def prepend (front : List Char) (t : Template) : Template := ⟨front ++ t.head, t.tail⟩

theorem ofList_prepend (front : String) (t : Template) (file : Path) :
    String.ofList ((t.prepend front.toList).textFor file) =
      front ++ String.ofList (t.textFor file) := by
  simp only [textFor, prepend, List.append_assoc, String.ofList_append, String.ofList_toList]

theorem ofList_plain (text : String) (file : Path) :
    String.ofList (Template.textFor file ⟨text.toList, []⟩) = text := by
  rw [textFor, Mention.spell, List.append_nil, String.ofList_toList]

end Template

namespace Reply

/-- What is reported when a snippet file cannot be written. -/
def unwritten (fault : Disk.Fault) : Reply :=
  .generic ⟨"Failed to write ".toList, [(.snippet, ": ".toList ++ fault.message.toList)]⟩

theorem unwritten_literal (fault : Disk.Fault) : (unwritten fault).Literal := by
  have hhead : Unmarked "Failed to write ".toList := Unmarked.of_noDash (by decide)
  have hmessage : Unmarked (": ".toList ++ fault.message.toList) := by
    unfold Unmarked
    cases fault <;> decide
  refine ⟨hhead, fun m hm => ?_⟩
  obtain rfl := List.mem_singleton.mp hm
  exact hmessage

theorem unwritten_outcome (fault : Disk.Fault) (file : Path) :
    ((unwritten fault).answer file).outcome =
      .generic ("Failed to write " ++ file.text ++ ": " ++ fault.message) := by
  unfold unwritten answer Answer.outcome
  rw [Outcome.generic.injEq, ← String.toList_inj, String.toList_ofList]
  simp [Template.textFor, Mention.spell, Template.pathOf]

/-- What is reported when the compiler breaks down. -/
def brokenDown : Option Template → Template
  | none => ⟨"compiler panicked".toList, []⟩
  | some text => text.prepend "compiler panicked: ".toList

theorem brokenDown_literal {text : Option Template} (h : (Reply.panicked text).Literal) :
    (brokenDown text).Literal := by
  cases text with
  | none => exact ⟨Unmarked.of_noDash (by decide), fun m hm => by cases hm⟩
  | some t =>
    have ht := h t rfl
    have hwords : Unmarked "compiler panicked:".toList := Unmarked.of_noDash (by decide)
    have hfront : "compiler panicked: ".toList = "compiler panicked:".toList ++ [' '] := by decide
    have hhead : "compiler panicked: ".toList ++ t.head =
        "compiler panicked:".toList ++ ' ' :: t.head := by
      rw [hfront, List.append_assoc, List.singleton_append]
    have hall : Unmarked ("compiler panicked: ".toList ++ t.head) := by
      rw [hhead]
      exact hwords.append_cons (by decide) ht.head
    exact ⟨hall, ht.tail⟩

theorem panicked_outcome (text : Option Template) (file : Path) :
    ((Reply.panicked text).answer file).outcome =
      ((Reply.generic (brokenDown text)).answer file).outcome := by
  cases text with
  | none => exact congrArg Outcome.generic (Template.ofList_plain _ file).symm
  | some t => exact congrArg Outcome.generic (Template.ofList_prepend _ t file).symm

theorem ofSnippet_label (file : Path) (block : Block) :
    (Scrubber.ofSnippet file block).label = block.label.toList := rfl

variable {s : Prepared} {reply : Reply}

theorem genericMessage_eq {t : Template} (h : t.Literal) {p q : Place}
    (hp : ¬ p.within WorkFile.snippetMark.toList <:+: s.block.file.text.toList)
    (hq : ¬ q.within WorkFile.snippetMark.toList <:+: s.block.file.text.toList) :
    Mapped.genericMessage (String.ofList (t.textFor (p.file s.block.dialect)))
        (Scrubber.ofSnippet (p.file s.block.dialect) s.block) =
      Mapped.genericMessage (String.ofList (t.textFor (q.file s.block.dialect)))
        (Scrubber.ofSnippet (q.file s.block.dialect) s.block) := by
  have hscrub := (Template.scrub_textFor h p s.block.dialect hp).trans
    (Template.scrub_textFor h q s.block.dialect hq).symm
  simp only [Mapped.genericMessage, String.toList_ofList, hscrub, ofSnippet_label]

theorem ofDiagnostics_eq {list : List Remark} (h : ∀ r ∈ list, r.text.Literal) {p q : Place}
    (hp : ¬ p.within WorkFile.snippetMark.toList <:+: s.block.file.text.toList)
    (hq : ¬ q.within WorkFile.snippetMark.toList <:+: s.block.file.text.toList) :
    Mapped.ofDiagnostics (list.map (Remark.diagnostic (p.file s.block.dialect))) s
        (Scrubber.ofSnippet (p.file s.block.dialect) s.block) =
      Mapped.ofDiagnostics (list.map (Remark.diagnostic (q.file s.block.dialect))) s
        (Scrubber.ofSnippet (q.file s.block.dialect) s.block) := by
  have hentry : ∀ r ∈ list,
      Mapped.entry (Scrubber.ofSnippet (p.file s.block.dialect) s.block) s
          (r.diagnostic (p.file s.block.dialect)) =
        Mapped.entry (Scrubber.ofSnippet (q.file s.block.dialect) s.block) s
          (r.diagnostic (q.file s.block.dialect)) := by
    intro r hr
    have hscrub := (Template.scrub_textFor (h r hr) p s.block.dialect hp).trans
      (Template.scrub_textFor (h r hr) q s.block.dialect hq).symm
    simp only [Mapped.entry, Mapped.lineOf, Remark.diagnostic, String.toList_ofList, hscrub,
      ofSnippet_label]
  have hline : ∀ file, Mapped.lineOf s ∘ Remark.diagnostic file =
    fun r => r.offset.map fun offset =>
      Diagnostic.snippetLine s.submitted.toList offset s.wrapping s.block.lineCount := fun _ => rfl
  have hcode : ∀ file, Diagnostic.code ∘ Remark.diagnostic file = Remark.code := fun _ => rfl
  simp only [Mapped.ofDiagnostics, List.map_map, List.filterMap_map, hline, hcode,
    Mapped.emptyEntry, ofSnippet_label]
  rw [Function.comp_def, Function.comp_def, List.map_congr_left hentry]

/-- The result for a snippet is the same in any two places. -/
theorem result_eq (h : reply.Literal) {p q : Place}
    (hp : ¬ p.within WorkFile.snippetMark.toList <:+: s.block.file.text.toList)
    (hq : ¬ q.within WorkFile.snippetMark.toList <:+: s.block.file.text.toList) :
    Workshop.result s (p.file s.block.dialect) (reply.answer (p.file s.block.dialect)).outcome =
      Workshop.result s (q.file s.block.dialect)
        (reply.answer (q.file s.block.dialect)).outcome := by
  cases reply with
  | success => simp only [Workshop.result, SnippetResult.ofOutcome, answer, Answer.outcome]
  | diagnostics list =>
    unfold Workshop.result SnippetResult.ofOutcome
    simp only [answer, Answer.outcome, ofDiagnostics_eq h hp hq]
  | generic text =>
    unfold Workshop.result SnippetResult.ofOutcome
    simp only [answer, Answer.outcome, genericMessage_eq h hp hq]
  | panicked text =>
    rw [panicked_outcome, panicked_outcome]
    unfold Workshop.result SnippetResult.ofOutcome
    simp only [answer, Answer.outcome, genericMessage_eq (brokenDown_literal h) hp hq]

end Reply

end DocSnippets
