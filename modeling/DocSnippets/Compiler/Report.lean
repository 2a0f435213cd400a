import DocSnippets.Diagnostic.Basic
import DocSnippets.Diagnostic.Position
import DocSnippets.Path
import DocSnippets.Text.Blank
import DocSnippets.Text.Digit

/-!
# Compiler reports

The compiler reports on lines. `F(l,c): error TSn: text` is about a place in the file `F`,
`error TSn: text` about no file, and an indented line continues the message before it; `warning` may
stand for `error`. All other lines are noise.
-/

namespace DocSnippets.Report

/-- A message without its place: the code as written and the text from the severity on. -/
structure Message where
  code : List Char
  text : List Char
deriving DecidableEq

/-- A message with its place, each number as written. -/
structure Located where
  file : List Char
  line : List Char
  column : List Char
  message : Message
deriving DecidableEq

inductive Line where
  | located (l : Located)
  | global (m : Message)
  | continuation (text : List Char)
  | noise
deriving DecidableEq

/-- The digits at the start of a text, at least one. -/
def digits? (text : List Char) : Option (List Char × List Char) :=
  let digits := text.takeWhile Text.isDigit
  if digits = [] then none else some (digits, text.dropWhile Text.isDigit)

/-- A message is a severity, a code after `TS`, a colon, a space and anything. -/
def message? (text : List Char) : Option Message := do
  let rest ← ("error".toList.isPrefixOf? text).or ("warning".toList.isPrefixOf? text)
  let rest ← " TS".toList.isPrefixOf? rest
  let (code, rest) ← digits? rest
  let _ ← ": ".toList.isPrefixOf? rest
  some { code, text }

/-- A place is two numbers in parentheses; a colon, a space and the message follow. -/
def place? (file text : List Char) : Option Located := do
  let rest ← ['('].isPrefixOf? text
  let (line, rest) ← digits? rest
  let rest ← [','].isPrefixOf? rest
  let (column, rest) ← digits? rest
  let rest ← "): ".toList.isPrefixOf? rest
  let message ← message? rest
  some { file, line, column, message }

/-- The first place in a line with at least one character before it, which is the file. -/
def located? : List Char → Option Located
  | [] => none
  | c :: rest =>
    match place? [c] rest with
    | some l => some l
    | none => (located? rest).map fun l => { l with file := c :: l.file }

def Line.ofText (text : List Char) : Line :=
  match located? text with
  | some l => .located l
  | none =>
    match message? text with
    | some m => .global m
    | none =>
      if text.head?.any Text.isBlank ∧ Text.trim text ≠ [] then
        .continuation (Text.trimEnd text)
      else .noise

/-- The code of a message, if it is a number of 32 bits. -/
def Message.code? (m : Message) : Option Nat := Text.boundedNatural? Text.bound32 m.code

/-- A line or column; what is no number of 64 bits counts as one. -/
def position (digits : List Char) : Nat := (Text.boundedNatural? Text.bound64 digits).getD 1

/-- Whether a reported file has the same last name as the snippet file. -/
def sameFile (reported : List Char) (snippet : Path) : Bool :=
  Path.fileName? ⟨String.ofList (Text.trim reported)⟩ = snippet.fileName?

/-- The diagnostic of a located message: about a place in the snippet, or about another file, which
the text then names. -/
def Located.diagnostic (snippet : Path) (source : List Char) (line : List Char) (l : Located) :
    Diagnostic :=
  if sameFile l.file snippet then
    { offset := some (Diagnostic.offsetOf source (position l.line) (position l.column))
      code := l.message.code?
      text := String.ofList l.message.text }
  else { offset := none, code := l.message.code?, text := String.ofList line }

/-- Puts a continuation line behind the last message, which comes first in the list. -/
def continueLast (text : List Char) : List Diagnostic → List Diagnostic
  | [] => []
  | d :: rest => { d with text := d.text ++ "\n" ++ String.ofList text } :: rest

/-- Reads one line more; `read` holds the diagnostics so far, the last one first. -/
def readLine (snippet : Path) (source : List Char) (read : List Diagnostic) (line : List Char) :
    List Diagnostic :=
  match Line.ofText line with
  | .located l => l.diagnostic snippet source line :: read
  | .global m => { offset := none, code := m.code?, text := String.ofList m.text } :: read
  | .continuation text => continueLast text read
  | .noise => read

def diagnostics (snippet : Path) (source output : List Char) : List Diagnostic :=
  ((Text.lines output).foldl (readLine snippet source) []).reverse

end DocSnippets.Report
