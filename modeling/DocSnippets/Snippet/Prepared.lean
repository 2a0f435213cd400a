import DocSnippets.Markdown.Block
import DocSnippets.Snippet.SelfImport
import DocSnippets.Snippet.Wrapping
import DocSnippets.Text.Lines

/-!
# Prepared snippets

A block is prepared for the compiler by localizing its imports and then wrapping it.
-/

namespace DocSnippets

namespace Block

/-- The number of lines of a block, at least one. -/
def lineCount (b : Block) : Nat := max 1 (Text.lines b.source.toList).length

end Block

structure Prepared where
  block : Block
  submitted : String
  wrapping : Snippet.Wrapping
deriving DecidableEq

namespace Prepared

def ofText (block : Block) (text : List Char) (wrapEnabled : Bool) : Prepared :=
  let wrapped := Snippet.wrap text wrapEnabled
  { block, submitted := String.ofList wrapped.1, wrapping := wrapped.2 }

def ofBlock (package : Package) (wrapEnabled : Bool) (block : Block) :
    Except ResolutionError Prepared :=
  (Snippet.localize package block.source.toList).map fun text => ofText block text wrapEnabled

end Prepared

end DocSnippets
