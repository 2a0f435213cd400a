import DocSnippets.Diagnostic.Basic
import DocSnippets.Diagnostic.Position
import DocSnippets.Diagnostic.Scrub
import DocSnippets.Snippet.Prepared

/-!
# Messages for the reader

The diagnostics of one snippet become one message with an entry for each of them, the lines of the
snippet that they are about, and their codes.
-/

namespace DocSnippets

/-- What is reported about a snippet that failed: `lines` ascending without repetition, `codes` in
the order of the report. -/
structure Mapped where
  message : String
  lines : List Nat
  codes : List Nat
deriving DecidableEq

namespace Mapped

/-- Adds a number to an ascending list, where it may be already. -/
def insertAscending (n : Nat) : List Nat → List Nat
  | [] => [n]
  | m :: rest =>
    if n < m then n :: m :: rest
    else if n = m then m :: rest
    else m :: insertAscending n rest

/-- The line of a diagnostic in the snippet as written, if it has a place in it. -/
def lineOf (s : Prepared) (d : Diagnostic) : Option Nat :=
  d.offset.map fun offset =>
    Diagnostic.snippetLine s.submitted.toList offset s.wrapping s.block.lineCount

/-- The entry of a diagnostic: the block, the line where there is one, and the scrubbed text. -/
def entry (scrubber : Scrubber) (s : Prepared) (d : Diagnostic) : List Char :=
  let text := scrubber.scrub d.text.toList
  match lineOf s d with
  | some line =>
    scrubber.label ++ " (line ".toList ++ Nat.toDigits 10 line ++ "): ".toList ++ text
  | none => scrubber.label ++ ": ".toList ++ text

def emptyEntry (scrubber : Scrubber) : List Char :=
  scrubber.label ++ ": compilation failed without diagnostics".toList

def onLines (texts : List (List Char)) : List Char := (texts.intersperse ['\n']).flatten

def ofDiagnostics (diagnostics : List Diagnostic) (s : Prepared) (scrubber : Scrubber) : Mapped :=
  let entries := diagnostics.map (entry scrubber s)
  { message := String.ofList (onLines (if entries = [] then [emptyEntry scrubber] else entries))
    lines := (diagnostics.filterMap (lineOf s)).foldl (fun acc n => insertAscending n acc) []
    codes := diagnostics.filterMap (·.code) }

def genericMessage (text : String) (scrubber : Scrubber) : String :=
  String.ofList (scrubber.label ++ ": ".toList ++ scrubber.scrub text.toList)

end Mapped

end DocSnippets
