import DocSnippets.Proofs.Diagnostic.Mention

/-!
# Scrubbing mentions

Scrubbing replaces the path of the project file first and that of the snippet file then. What has
been passed without a replacement stays inert, so each pass replaces exactly its own mentions. One
spelling has to be told apart beforehand: the path of a snippet file with the rest of the project
extension behind it is the path of the project file.
-/

namespace DocSnippets

open Text
open WorkFile (mark)

/-- What the extension of a snippet file without markup lacks of that of a project file. -/
def projectRest : List Char := "config.json".toList

/-- A mention as it is spelled: a snippet file followed by the rest of the project extension is a
project file. -/
def Mention.absorb (dialect : Dialect) (m : Mention × List Char) : Mention × List Char :=
  if m.1 = .snippet ∧ dialect.isJsx = false then
    ((projectRest.isPrefixOf? m.2).map fun rest => (.project, rest)).getD m
  else m

/-- The text behind a snippet file does not complete its path to that of the project file. -/
def Apart (dialect : Dialect) (text : List Char) : Prop :=
  ∀ next, Continuation.path next →
    ¬ WorkFile.projectExtension.toList <+: dialect.extension.toList ++ (text ++ next)

/-- Mentions whose texts are unmarked, and which no absorption changes. -/
structure Settled (dialect : Dialect) (tail : List (Mention × List Char)) : Prop where
  unmarked : ∀ m ∈ tail, Unmarked m.2
  apart : ∀ m ∈ tail, m.1 = .snippet → Apart dialect m.2

theorem apart_of_not_prefix {dialect : Dialect} {text : List Char}
    (h : dialect.isJsx = false → ¬ projectRest <+: text) : Apart dialect text := by
  intro next hnext hprefix
  have hproject : WorkFile.projectExtension.toList = 't' :: 's' :: projectRest := by decide
  rw [hproject] at hprefix
  cases hjsx : dialect.isJsx with
  | true =>
    have hext : dialect.extension.toList = ['t', 's', 'x'] := by simp [Dialect.extension, hjsx]
    rw [hext] at hprefix
    have hx : projectRest <+: 'x' :: (text ++ next) := by simpa using hprefix
    exact absurd (List.cons_prefix_cons.mp hx).1 (by decide)
  | false =>
    have hext : dialect.extension.toList = ['t', 's'] := by simp [Dialect.extension, hjsx]
    rw [hext] at hprefix
    have hrest : projectRest <+: text ++ next := by simpa using hprefix
    refine h hjsx ?_
    cases next with
    | nil => rwa [List.append_nil] at hrest
    | cons c next =>
      obtain rfl : c = '/' := hnext c rfl
      exact prefix_of_append_cons (by decide) hrest

namespace Mention

theorem absorb_unmarked {dialect : Dialect} {m : Mention × List Char} (h : Unmarked m.2) :
    Unmarked (absorb dialect m).2 := by
  unfold absorb
  split
  · cases hrest : projectRest.isPrefixOf? m.2 with
    | none => exact h
    | some rest =>
      refine h.of_infix (List.IsSuffix.isInfix ⟨projectRest, ?_⟩)
      exact (eq_append_of_isPrefixOf? hrest).symm
  · exact h

theorem absorb_apart {dialect : Dialect} {m : Mention × List Char}
    (h : (absorb dialect m).1 = .snippet) : Apart dialect (absorb dialect m).2 := by
  refine apart_of_not_prefix fun hjsx hprefix => ?_
  unfold absorb at h hprefix
  by_cases hm : m.1 = .snippet
  · rw [if_pos ⟨hm, hjsx⟩] at h hprefix
    cases hrest : projectRest.isPrefixOf? m.2 with
    | none =>
      rw [hrest] at hprefix
      obtain ⟨rest, htext⟩ := hprefix
      have hsome := isPrefixOf?_append projectRest rest
      rw [htext] at hsome
      rw [Option.map_none, Option.getD_none, hrest] at hsome
      cases hsome
    | some rest =>
      rw [hrest] at h
      cases h
  · rw [if_neg fun hboth => hm hboth.1] at h
    exact hm h

theorem settled_absorb {dialect : Dialect} {tail : List (Mention × List Char)}
    (h : ∀ m ∈ tail, Unmarked m.2) : Settled dialect (tail.map (absorb dialect)) := by
  constructor
  case unmarked =>
    intro m hm
    obtain ⟨m, hmem, rfl⟩ := List.mem_map.mp hm
    exact absorb_unmarked (h m hmem)
  case apart =>
    intro m hm hsnippet
    obtain ⟨m, hmem, rfl⟩ := List.mem_map.mp hm
    exact absorb_apart hsnippet

theorem spell_absorb (p : Place) (dialect : Dialect) (tail : List (Mention × List Char)) :
    spell (Template.pathOf (p.file dialect)) (tail.map (absorb dialect)) =
      spell (Template.pathOf (p.file dialect)) tail := by
  induction tail with
  | nil => rfl
  | cons m tail ih =>
    have hone : Template.pathOf (p.file dialect) (absorb dialect m).1 ++ (absorb dialect m).2 =
        Template.pathOf (p.file dialect) m.1 ++ m.2 := by
      unfold absorb
      split
      · next hm =>
        cases hrest : projectRest.isPrefixOf? m.2 with
        | none => rfl
        | some rest =>
          have hext : dialect.extension.toList = ['t', 's'] := by
            simp [Dialect.extension, hm.2]
          have hproject : WorkFile.projectExtension.toList = 't' :: 's' :: projectRest := by decide
          rw [hm.1, eq_append_of_isPrefixOf? hrest]
          simp only [Option.map_some, Option.getD_some, Template.pathOf, p.toList_projectFor,
            p.toList_file, Place.within, WorkFile.toList_projectName, WorkFile.toList_snippetName,
            hext, hproject, List.append_assoc, List.cons_append, List.nil_append]
      · rfl
    rw [List.map_cons, spell, spell, ih, ← List.append_assoc, ← List.append_assoc, hone]

end Mention

namespace Block

/-- The words between the file name and the number in a label. -/
def labelWords : List Char := ['→', ' ', 'C', 'o', 'd', 'e', ' ', 'B', 'l', 'o', 'c', 'k']

/-- What stands behind the file name and a blank in the label of a block. -/
def labelRest (b : Block) : List Char := labelWords ++ ' ' :: Nat.toDigits 10 b.index

theorem toList_label (b : Block) : b.label.toList = b.file.text.toList ++ ' ' :: b.labelRest := by
  have hwords : " → Code Block ".toList = ' ' :: (labelWords ++ [' ']) := by decide
  rw [label, String.toList_append, String.toList_append, hwords, String.toList_ofList, labelRest]
  simp only [List.append_assoc, List.cons_append, List.nil_append]

theorem labelRest_unmarked (b : Block) {text : List Char} (h : Unmarked text) :
    Unmarked (b.labelRest ++ text) := by
  have hwords : Unmarked labelWords := by
    unfold Unmarked
    decide
  have hdigits : 'c' ∉ Nat.toDigits 10 b.index := fun hmem =>
    WorkFile.ne_of_mem_digits hmem (by decide) rfl
  rw [labelRest, List.append_assoc, List.cons_append]
  exact hwords.append_cons (by decide) (h.append_of_noStart hdigits)

end Block

namespace Inert

variable {p : Place} {dialect : Dialect} {text literal : List Char}

/-- A snippet file that is passed while project files are replaced. -/
theorem append_snippet
    (h : Inert (p.within (WorkFile.projectName p.id).toList) .path text)
    (hliteral : Unmarked literal) (hapart : Apart dialect literal) :
    Inert (p.within (WorkFile.projectName p.id).toList) .path
      (text ++ ((p.file dialect).text.toList ++ literal)) := by
  intro x y hxy next hnext hprefix
  obtain ⟨rest, hbase⟩ := p.base_eq
  have hfile : (p.file dialect).text.toList ++ literal =
      p.base ++ (mark ++ (p.within (WorkFile.snippetName p.id dialect).toList ++ literal)) := by
    rw [p.toList_file, List.append_assoc, List.append_assoc]
  have hslash : x ++ (mark ++ y) =
      text ++ '/' :: (rest ++ (mark ++ (p.within (WorkFile.snippetName p.id dialect).toList ++
        literal))) := by
    rw [← hxy, hfile, hbase, List.cons_append]
  rcases split_of_notMem WorkFile.mark_ne_nil (by decide) hslash with
    ⟨y', htext, rfl⟩ | ⟨x', rfl, hx⟩
  · refine h x y' htext _ ?_ (by simpa only [List.append_assoc] using hprefix)
    intro c hc
    exact (Option.some.inj hc).symm
  · have honce := p.mark_once (x := '/' :: x') (y := y) (p.within_unmarked dialect hliteral) (by
      rw [List.cons_append, ← hx, hbase, List.cons_append])
    rw [honce.2] at hprefix
    refine hapart next hnext ?_
    have hname : (WorkFile.projectName p.id).toList <+:
        (WorkFile.snippetName p.id dialect).toList ++ (literal ++ next) := by
      simpa [Place.within] using hprefix
    rw [WorkFile.toList_projectName, WorkFile.toList_snippetName, List.append_assoc] at hname
    simpa using hname

/-- A label that is passed while snippet files are replaced. Neither the name of the documentation
file nor what stands around it can be part of the snippet's path. -/
theorem append_label {block : Block}
    (h : Inert (p.within (WorkFile.snippetName p.id dialect).toList) .any text)
    (hliteral : Unmarked literal)
    (hfile : ¬ p.within WorkFile.snippetMark.toList <:+: block.file.text.toList) :
    Inert (p.within (WorkFile.snippetName p.id dialect).toList) .any
      (text ++ (block.label.toList ++ literal)) := by
  intro x y hxy next hnext hprefix
  have hkey : p.within WorkFile.snippetMark.toList <+: y ++ next := by
    refine List.IsPrefix.trans ?_ hprefix
    rw [WorkFile.toList_snippetName, WorkFile.stem, Place.within, Place.within]
    simp
  have hblank : ' ' ∉ p.within WorkFile.snippetMark.toList := by
    intro hmem
    rcases List.mem_append.mp hmem with hmem | hmem
    · exact p.random_noBlank hmem
    · exact absurd hmem (by decide)
  have hsplit : x ++ (mark ++ y) = (text ++ block.file.text.toList) ++
      ' ' :: (block.labelRest ++ literal) := by
    rw [← hxy, block.toList_label]
    simp only [List.append_assoc, List.cons_append]
  rcases split_of_notMem WorkFile.mark_ne_nil (by decide) hsplit with
    ⟨y', htext, rfl⟩ | ⟨x', -, hrest⟩
  · rw [← List.append_assoc] at htext
    rcases List.append_eq_append_iff.mp htext with ⟨z, hz, hfilename⟩ | ⟨z, rfl, rfl⟩
    · -- The mark ends in the documentation file's name, so the key would stand in that name.
      refine hfile ?_
      rw [hfilename]
      rw [List.append_assoc, List.cons_append] at hkey
      exact (prefix_of_append_cons hblank hkey).isInfix.trans (List.suffix_append z y').isInfix
    · refine h x z (List.append_assoc _ _ _)
        (block.file.text.toList ++ ' ' :: (block.labelRest ++ literal) ++ next) trivial ?_
      simpa only [List.append_assoc] using hprefix
  · exact block.labelRest_unmarked hliteral ⟨x', y, by rw [hrest, List.append_assoc]⟩

end Inert

def Template.halfway (file : Path) (label : List Char) : Mention → List Char
  | .snippet => file.text.toList
  | .project => label

namespace Settled

variable {p : Place} {dialect : Dialect} {tail : List (Mention × List Char)}

theorem of_cons {m : Mention × List Char} (h : Settled dialect (m :: tail)) :
    Settled dialect tail where
  unmarked := fun n hn => h.unmarked n (List.mem_cons_of_mem m hn)
  apart := fun n hn => h.apart n (List.mem_cons_of_mem m hn)

theorem head_unmarked {m : Mention × List Char} (h : Settled dialect (m :: tail)) :
    Unmarked m.2 :=
  h.unmarked m List.mem_cons_self

theorem replace_project (h : Settled dialect tail) (label : List Char) {text : List Char}
    (hinert : Inert (p.within (WorkFile.projectName p.id).toList) .path text) :
    replaceAll (WorkFile.projectFor (p.file dialect)).text.toList label
        (text ++ Mention.spell (Template.pathOf (p.file dialect)) tail) =
      text ++ Mention.spell (Template.halfway (p.file dialect) label) tail := by
  have hne : p.within (WorkFile.projectName p.id).toList ≠ [] := by simp [Place.within]
  induction tail generalizing text with
  | nil =>
    rw [p.toList_projectFor, Mention.spell, Mention.spell, List.append_nil]
    exact replaceAll_eq_self (hinert.not_infix fun c hc => by cases hc)
  | cons m tail ih =>
    obtain ⟨mention, literal⟩ := m
    cases mention with
    | project =>
      have hcut := cut?_append
        (hinert.not_infix_append_dropLast (p := p) hne fun rest c hc => (Option.some.inj hc).symm)
        (literal ++ Mention.spell (Template.pathOf (p.file dialect)) tail)
      have hnext := ih h.of_cons (Inert.of_unmarked h.head_unmarked)
      rw [Mention.spell, Template.pathOf, Mention.spell, Template.halfway]
      rw [← p.toList_projectFor dialect] at hcut
      rw [replaceAll_of_cut? (by rw [p.toList_projectFor]; simp [WorkFile.mark_ne_nil]) hcut, hnext]
    | snippet =>
      have hpassed := hinert.append_snippet h.head_unmarked (h.apart _ List.mem_cons_self rfl)
      have hnext := ih h.of_cons hpassed
      simpa only [Mention.spell, Template.pathOf, Template.halfway, List.append_assoc] using hnext

theorem replace_snippet (h : Settled dialect tail) {block : Block}
    (hfile : ¬ p.within WorkFile.snippetMark.toList <:+: block.file.text.toList)
    {text : List Char}
    (hinert : Inert (p.within (WorkFile.snippetName p.id dialect).toList) .any text) :
    replaceAll (p.file dialect).text.toList block.label.toList
        (text ++ Mention.spell (Template.halfway (p.file dialect) block.label.toList) tail) =
      text ++ Mention.spell (fun _ => block.label.toList) tail := by
  have hne : p.within (WorkFile.snippetName p.id dialect).toList ≠ [] := by simp [Place.within]
  induction tail generalizing text with
  | nil =>
    rw [p.toList_file, Mention.spell, Mention.spell, List.append_nil]
    exact replaceAll_eq_self (hinert.not_infix trivial)
  | cons m tail ih =>
    obtain ⟨mention, literal⟩ := m
    cases mention with
    | project =>
      have hpassed := hinert.append_label h.head_unmarked hfile
      have hnext := ih h.of_cons hpassed
      simpa only [Mention.spell, Template.halfway, List.append_assoc] using hnext
    | snippet =>
      have hcut := cut?_append
        (hinert.not_infix_append_dropLast (p := p) hne fun rest => trivial)
        (literal ++ Mention.spell (Template.halfway (p.file dialect) block.label.toList) tail)
      have hnext := ih h.of_cons (Inert.of_unmarked h.head_unmarked)
      rw [Mention.spell, Template.halfway, Mention.spell]
      rw [← p.toList_file dialect] at hcut
      rw [replaceAll_of_cut? (by rw [p.toList_file]; simp [WorkFile.mark_ne_nil]) hcut, hnext]

end Settled

namespace Template

/-- What scrubbing makes of a template: the label for every mention, and then what is replaced in
any text. -/
def scrubbed (dialect : Dialect) (label : List Char) (t : Template) : List Char :=
  Scrubber.replaceSpelled label
    (t.head ++ Mention.spell (fun _ => label) (t.tail.map (Mention.absorb dialect)))

/-- Scrubbing leaves nothing of the place. -/
theorem scrub_textFor {t : Template} (h : t.Literal) (p : Place) (dialect : Dialect)
    {block : Block} (hfile : ¬ p.within WorkFile.snippetMark.toList <:+: block.file.text.toList) :
    (Scrubber.ofSnippet (p.file dialect) block).scrub (t.textFor (p.file dialect)) =
      t.scrubbed dialect block.label.toList := by
  have hsettled : Settled dialect (t.tail.map (Mention.absorb dialect)) :=
    Mention.settled_absorb h.tail
  have hproject := hsettled.replace_project (p := p) block.label.toList (Inert.of_unmarked h.head)
  have hsnippet := hsettled.replace_snippet hfile (Inert.of_unmarked h.head)
  rw [Mention.spell_absorb] at hproject
  unfold Scrubber.scrub Scrubber.ofSnippet textFor scrubbed
  simp only [List.foldl_cons, List.foldl_nil]
  rw [hproject, hsnippet]

end Template

end DocSnippets
