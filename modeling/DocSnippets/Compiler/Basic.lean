import DocSnippets.Compiler.Options
import DocSnippets.Diagnostic.Basic
import DocSnippets.Markdown.Dialect

/-!
# Compilers

A compiler gets one snippet at a time, with the file it was written to, and may look at the file
tree and change it. It answers with an outcome, or breaks down.
-/

namespace DocSnippets

structure Request where
  source : String
  file : Path
  dialect : Dialect
  options : CompilerOptions

inductive Outcome where
  | success
  | diagnostics (list : List Diagnostic)
  | generic (text : String)
deriving DecidableEq

/-- How a call of a compiler ends: with an outcome, or by breaking down with or without a text. -/
inductive Answer where
  | finished (o : Outcome)
  | panicked (text : Option String)
deriving DecidableEq

/-- A breakdown counts as a failure of the snippet at hand. -/
def Answer.outcome : Answer → Outcome
  | .finished o => o
  | .panicked (some text) => .generic ("compiler panicked: " ++ text)
  | .panicked none => .generic "compiler panicked"

abbrev Compiler := Request → Disk → Answer × Disk

end DocSnippets
