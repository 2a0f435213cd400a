import DocSnippets.Snippet.Wrapping
import DocSnippets.Text.Lines
import DocSnippets.Text.Offset

/-!
# Positions

The compiler names places by line and column of the submitted text. They become offsets into it,
and offsets become lines of the snippet as it stands in the documentation.
-/

namespace DocSnippets.Diagnostic

/-- The offset of a column, counted in characters from one, within a segment; a column past the end
is the end. -/
def columnOffset (segment : List Char) (col : Nat) : Nat :=
  Text.byteLength (segment.take (col - 1))

/-- The offset of a line and a column, both counted from one, in a text given by its segments; a
line that does not exist is the end of the text. -/
def offsetIn (col : Nat) : Nat → List (List Char) → Nat
  | _, [] => 0
  | 1, segment :: _ => columnOffset segment col
  | line, segment :: rest => Text.byteLength segment + offsetIn col (line - 1) rest

def offsetOf (text : List Char) (line col : Nat) : Nat :=
  if line = 0 then Text.byteLength text else offsetIn col line (Text.segments text)

/-- The line of the documentation's snippet for an offset into the submitted text. What lies in the
wrapper belongs to the nearest line of the snippet. -/
def snippetLine (submitted : List Char) (offset : Nat) (wrapping : Snippet.Wrapping)
    (lineCount : Nat) : Nat :=
  let newlines := (Text.takeBytes offset submitted).count '\n'
  max 1 (min (newlines + 1 - wrapping.lineOffset) (max lineCount 1))

end DocSnippets.Diagnostic
