/-!
# Lines

A segment is a line together with the newline that ends it; a line is a segment without its line
ending, which is a newline or a carriage return and a newline.
-/

namespace DocSnippets.Text

/-- The segments of a text: each runs up to and including a newline, the last one to the end. -/
def segments : List Char → List (List Char)
  | [] => []
  | c :: text =>
    if c = '\n' then ['\n'] :: segments text
    else
      match segments text with
      | [] => [[c]]
      | segment :: rest => (c :: segment) :: rest

theorem flatten_segments (text : List Char) : (segments text).flatten = text := by
  induction text with
  | nil => rfl
  | cons c text ih =>
    rw [segments]
    split
    · next h => simp [ih, h]
    · split
      · next h =>
        rw [h] at ih
        simp only [List.flatten_nil] at ih
        simp [← ih]
      · next segment rest h =>
        rw [h] at ih
        simp only [List.flatten_cons] at ih
        simp [← ih]

/-- A segment without its line ending; a carriage return without a newline stays. -/
def dropLineEnding (segment : List Char) : List Char :=
  if segment.getLast? = some '\n' then
    let line := segment.dropLast
    if line.getLast? = some '\r' then line.dropLast else line
  else segment

def lines (text : List Char) : List (List Char) := (segments text).map dropLineEnding

@[simp] theorem length_lines (text : List Char) : (lines text).length = (segments text).length := by
  simp [lines]

end DocSnippets.Text
