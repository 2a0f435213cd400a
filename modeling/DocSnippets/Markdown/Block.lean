import DocSnippets.Markdown.Annotation
import DocSnippets.Markdown.Region
import DocSnippets.Path

/-!
# Code blocks

The code blocks of a document are its regions without the ignored ones, numbered from one. An
ignored region takes no number.
-/

namespace DocSnippets

/-- A code block of a documentation file; `index` counts from one within the file. -/
structure Block where
  file : Path
  index : Nat
  source : String
  dialect : Dialect
deriving DecidableEq

namespace Markdown

/-- Numbers regions from `index`. -/
def blocksFrom (file : Path) (index : Nat) : List Region → List Block
  | [] => []
  | r :: rs =>
    { file, index, source := String.ofList r.body, dialect := r.dialect } ::
      blocksFrom file (index + 1) rs

def activeRegions (text : List Char) : List Region :=
  let ends := annotationEnds 0 text
  (regions text).filter fun r => !isIgnored ends (text.take r.start)

/-- The code blocks of a document in the order of the text. -/
def blocks (file : Path) (text : String) : List Block :=
  blocksFrom file 1 (activeRegions text.toList)

end Markdown

end DocSnippets
