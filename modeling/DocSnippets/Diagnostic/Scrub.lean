import DocSnippets.Markdown.Block
import DocSnippets.Text.Blank
import DocSnippets.Text.Digit
import DocSnippets.WorkFile

/-!
# Scrubbing

The paths of work files mean nothing to a reader of the report. They are replaced by a label that
names the block: first the exact paths of the snippet's own files, then any spelled path of a
snippet or project file in a work directory.
-/

namespace DocSnippets

def Block.label (b : Block) : String :=
  b.file.text ++ " → Code Block " ++ String.ofList (Nat.toDigits 10 b.index)

/-- What is replaced by the label: the exact paths, the longer one first. -/
structure Scrubber where
  exact : List (List Char)
  label : List Char

namespace Scrubber

/-- The characters that end a spelled path, besides blanks. -/
def pathDelimiters : List Char := ['\'', '"', '`', '(', ')', '[', ']', '<', '>']

def isPathChar (c : Char) : Bool :=
  !Text.isBlank c && !pathDelimiters.contains c

def isSlash (c : Char) : Bool := c = '/' || c = '\\'

def afterExtension? (text : List Char) : Option (List Char) :=
  match ".tsconfig.json".toList.isPrefixOf? text with
  | some rest => some rest
  | none =>
    (".ts".toList.isPrefixOf? text).map fun rest => (['x'].isPrefixOf? rest).getD rest

/-- What follows the name of a work directory and of a file in it, if a text starts with them. -/
def afterWorkFile? (text : List Char) : Option (List Char) := do
  let rest ← WorkFile.directoryMark.toList.isPrefixOf? text
  match rest.dropWhile fun c => isPathChar c && !isSlash c with
  | [] => none
  | c :: rest =>
    if isSlash c then
      let rest ← WorkFile.snippetMark.toList.isPrefixOf? rest
      if rest.head?.any Text.isDigit then afterExtension? (rest.dropWhile Text.isDigit) else none
    else none

def afterLast? : List Char → Option (List Char)
  | [] => none
  | c :: text =>
    if isPathChar c then
      match afterLast? text with
      | some rest => some rest
      | none => afterWorkFile? (c :: text)
    else none

theorem length_afterExtension? {text rest : List Char} (h : afterExtension? text = some rest) :
    rest.length < text.length := by
  unfold afterExtension? at h
  split at h
  · next r hr =>
    cases h
    rw [Text.eq_append_of_isPrefixOf? hr]
    simp only [List.length_append, String.toList]
    exact Nat.lt_add_of_pos_left (by decide)
  · obtain ⟨r, hr, rfl⟩ := Option.map_eq_some_iff.mp h
    rw [Text.eq_append_of_isPrefixOf? hr]
    cases hx : ['x'].isPrefixOf? r with
    | none =>
      rw [Option.getD_none, List.length_append]
      exact Nat.lt_add_of_pos_left (by decide)
    | some r' =>
      rw [Text.eq_append_of_isPrefixOf? hx]
      simp
      omega

theorem length_afterWorkFile? {text rest : List Char} (h : afterWorkFile? text = some rest) :
    rest.length < text.length := by
  unfold afterWorkFile? at h
  obtain ⟨r, hr, h⟩ := Option.bind_eq_some_iff.mp h
  have h₁ := congrArg List.length (Text.eq_append_of_isPrefixOf? hr)
  rw [List.length_append] at h₁
  split at h
  · cases h
  · next c r₂ hdrop =>
    have h₂ := (List.dropWhile_sublist (fun c => isPathChar c && !isSlash c) (l := r)).length_le
    rw [hdrop, List.length_cons] at h₂
    split at h
    · obtain ⟨r₃, hr₃, h⟩ := Option.bind_eq_some_iff.mp h
      have h₃ := congrArg List.length (Text.eq_append_of_isPrefixOf? hr₃)
      rw [List.length_append] at h₃
      split at h
      · have h₄ := length_afterExtension? h
        have h₅ := (List.dropWhile_sublist Text.isDigit (l := r₃)).length_le
        omega
      · cases h
    · cases h

theorem length_afterLast? {text rest : List Char} (h : afterLast? text = some rest) :
    rest.length < text.length := by
  induction text with
  | nil => cases h
  | cons c text ih =>
    rw [afterLast?] at h
    split at h
    · split at h
      · next r hr =>
        cases h
        have := ih hr
        simp only [List.length_cons]
        omega
      · exact length_afterWorkFile? h
    · cases h

/-- Replaces spelled work files. Within a run of path characters everything up to the last work file
is one path. -/
def replaceSpelled (label : List Char) (text : List Char) : List Char :=
  match text with
  | [] => []
  | c :: rest =>
    match _h : afterLast? (c :: rest) with
    | some after => label ++ replaceSpelled label after
    | none =>
      if isPathChar c then
        c :: (rest.takeWhile isPathChar ++ replaceSpelled label (rest.dropWhile isPathChar))
      else c :: replaceSpelled label rest
termination_by text.length
decreasing_by
  · exact length_afterLast? _h
  · have := (List.dropWhile_sublist isPathChar (l := rest)).length_le
    simp only [List.length_cons]
    omega
  · simp only [List.length_cons]
    omega

/-- The scrubber for the snippet file that a block is compiled from. -/
def ofSnippet (snippet : Path) (block : Block) : Scrubber where
  exact := [(WorkFile.projectFor snippet).text.toList, snippet.text.toList]
  label := block.label.toList

def scrub (s : Scrubber) (text : List Char) : List Char :=
  replaceSpelled s.label (s.exact.foldl (fun acc path => Text.replaceAll path s.label acc) text)

end Scrubber

end DocSnippets
