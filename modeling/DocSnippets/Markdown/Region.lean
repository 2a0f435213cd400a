import DocSnippets.Markdown.Dialect
import DocSnippets.Text.Find

/-!
# Fenced regions

Three backticks directly followed by a dialect tag open a region; the three backticks that come
next after the opening line close it, wherever they stand. Other backticks are stepped over.
-/

namespace DocSnippets.Markdown

def fence : List Char := ['`', '`', '`']

/-- A fenced region: where its opening fence starts, counted in characters, the rest of the opening
line, the dialect, and the text up to the closing fence. -/
structure Region where
  start : Nat
  info : List Char
  dialect : Dialect
  body : List Char
deriving DecidableEq

/-- The regions of a text that starts at position `pos` of its document. -/
def regionsFrom (pos : Nat) (text : List Char) : List Region :=
  match _hopen : Text.cut? fence text with
  | none => []
  | some (before, opened) =>
    let start := pos + before.length
    match _hline : Text.cut? ['\n'] opened with
    | none => []
    | some (info, below) =>
      match Dialect.ofOpener? info with
      | none => regionsFrom (start + fence.length) opened
      | some dialect =>
        match _hclose : Text.cut? fence below with
        | none => []
        | some (body, after) =>
          let region := { start, info, dialect, body }
          region ::
            regionsFrom (start + fence.length + info.length + 1 + body.length + fence.length) after
termination_by text.length
decreasing_by
  · have := Text.length_of_cut? _hopen
    simp only [fence, List.length_cons, List.length_nil] at this
    omega
  · have := Text.length_of_cut? _hopen
    have := Text.length_of_cut? _hline
    have := Text.length_of_cut? _hclose
    simp only [fence, List.length_cons, List.length_nil] at *
    omega

def regions (text : List Char) : List Region := regionsFrom 0 text

end DocSnippets.Markdown
