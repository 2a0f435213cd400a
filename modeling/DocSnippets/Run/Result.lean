import DocSnippets.Compiler.Basic
import DocSnippets.Diagnostic.Mapping
import DocSnippets.Json.Printer

/-!
# Results

The result for a snippet says which block it is, and for a failure what the reader is told, with the
faulty lines and the codes.
-/

namespace DocSnippets

/-- What is wrong with a snippet, in words for the reader. -/
structure Failure where
  message : String
  codes : List Nat
deriving DecidableEq

/-- The result for one snippet, as written in the documentation. -/
structure SnippetResult where
  file : Path
  index : Nat
  snippet : String
  lines : List Nat
  failure : Option Failure
deriving DecidableEq

namespace SnippetResult

def isOk (r : SnippetResult) : Bool := r.failure.isNone

def ofOutcome (s : Prepared) (scrubber : Scrubber) (o : Outcome) : SnippetResult :=
  let found : List Nat × Option Failure :=
    match o with
    | .success => ([], none)
    | .diagnostics list =>
      let mapped := Mapped.ofDiagnostics list s scrubber
      (mapped.lines, some ⟨mapped.message, mapped.codes⟩)
    | .generic text => ([], some ⟨Mapped.genericMessage text scrubber, []⟩)
  { file := s.block.file
    index := s.block.index
    snippet := s.block.source
    lines := found.1
    failure := found.2 }

def naturals (ns : List Nat) : Json.Value := .array (ns.map fun n => .number (.natural n))

def Failure.value (f : Failure) : Json.Value :=
  .object [("message", .string f.message), ("diagnostic_codes", naturals f.codes)]

/-- The document of a result; the failure is left out where there is none. -/
def value (r : SnippetResult) : Json.Value :=
  .object ([("file", .string r.file.text), ("index", .number (.natural r.index)),
    ("snippet", .string r.snippet), ("lines_with_errors", naturals r.lines)] ++
      (r.failure.map fun f => ("error", Failure.value f)).toList)

end SnippetResult

end DocSnippets
