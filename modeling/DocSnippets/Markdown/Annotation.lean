import DocSnippets.Text.Blank
import DocSnippets.Text.Find
import DocSnippets.Text.Offset

/-!
# Ignore annotations

An ignore annotation is an HTML comment that holds the mark `snipcheck:ignore`, or the older
`ts-docs-verifier:ignore`, with blanks around it. A fence is ignored when only blanks separate it
from the end of an annotation. The ends of all annotations are found first; each fence is then
looked up among them.
-/

namespace DocSnippets.Markdown

def afterAnnotation? (text : List Char) : Option (List Char) := do
  let inner ← "<!--".toList.isPrefixOf? text
  let inner := Text.trimStart inner
  let marked ← ("snipcheck".toList.isPrefixOf? inner).or
    ("ts-docs-verifier".toList.isPrefixOf? inner)
  let rest ← ":ignore".toList.isPrefixOf? marked
  "-->".toList.isPrefixOf? (Text.trimStart rest)

theorem length_of_afterAnnotation? {text rest : List Char} (h : afterAnnotation? text = some rest) :
    rest.length < text.length := by
  obtain ⟨inner, hopen, h⟩ := Option.bind_eq_some_iff.mp h
  obtain ⟨marked, hmark, h⟩ := Option.bind_eq_some_iff.mp h
  obtain ⟨tail, hignore, hclose⟩ := Option.bind_eq_some_iff.mp h
  have hopened := Text.length_of_isPrefixOf? hopen
  have hlead : (Text.trimStart inner).length ≤ inner.length := (List.dropWhile_sublist _).length_le
  have hmarked : marked.length ≤ (Text.trimStart inner).length := by
    rcases Option.or_eq_some_iff.mp hmark with hmark | ⟨-, hmark⟩
    · have := Text.length_of_isPrefixOf? hmark
      omega
    · have := Text.length_of_isPrefixOf? hmark
      omega
  have hignored := Text.length_of_isPrefixOf? hignore
  have htrail : (Text.trimStart tail).length ≤ tail.length := (List.dropWhile_sublist _).length_le
  have hclosed := Text.length_of_isPrefixOf? hclose
  have hsize : "<!--".toList.length = 4 := rfl
  omega

/-- The offsets just past the annotations of a text that starts at `offset`. Annotations are found
from left to right; the search goes on where one ends. -/
def annotationEnds (offset : Nat) (text : List Char) : List Nat :=
  match text with
  | [] => []
  | c :: rest =>
    match _h : afterAnnotation? (c :: rest) with
    | some after =>
      let stop := offset + (Text.byteLength (c :: rest) - Text.byteLength after)
      stop :: annotationEnds stop after
    | none => annotationEnds (offset + c.utf8Size) rest
termination_by text.length
decreasing_by
  · exact length_of_afterAnnotation? _h
  · simp only [List.length_cons]
    omega

/-- Whether a number is among ascending ones: the middle one tells in which half it can be. -/
def isAmong (n : Nat) (ascending : List Nat) : Bool :=
  match _h : ascending.drop (ascending.length / 2) with
  | [] => false
  | middle :: above =>
    if n = middle then true
    else if n < middle then isAmong n (ascending.take (ascending.length / 2))
    else isAmong n above
termination_by ascending.length
decreasing_by
  all_goals
    have hlength := congrArg List.length _h
    simp only [List.length_drop, List.length_cons] at hlength
  · rw [List.length_take]
    omega
  · omega

/-- A fence is ignored when the text before it, trimmed, ends where an annotation ends. -/
def isIgnored (ends : List Nat) (preceding : List Char) : Bool :=
  isAmong (Text.byteLength (Text.trimEnd preceding)) ends

end DocSnippets.Markdown
