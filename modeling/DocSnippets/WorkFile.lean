import DocSnippets.Markdown.Dialect
import DocSnippets.Path

/-!
# Work files

The names of the files that exist only while a run lasts: a work directory, and in it for each
snippet its source and the project file beside it.
-/

namespace DocSnippets.WorkFile

/-- The start of the name of a work directory; a random part follows. -/
def directoryMark : String := "compiled-docs-"

/-- The start of the name of a snippet file; its number follows. -/
def snippetMark : String := "block-"

def projectExtension : String := "tsconfig.json"

def directoryName (suffix : String) : String := directoryMark ++ suffix

def snippetName (id : Nat) (dialect : Dialect) : String :=
  snippetMark ++ String.ofList (Nat.toDigits 10 id) ++ "." ++ dialect.extension

def projectFor (snippet : Path) : Path := snippet.withExtension projectExtension

end DocSnippets.WorkFile
