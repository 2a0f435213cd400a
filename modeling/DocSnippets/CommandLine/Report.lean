import DocSnippets.CommandLine.Style
import DocSnippets.Run.Result
import DocSnippets.Text.Lines

/-!
# Reports

A report for readers has a status line for each failure, followed by the message and the snippet
with numbered lines, faulty ones in red. A report for programs is the list of results.
-/

namespace DocSnippets.CommandLine

inductive Badge where
  | info
  | pass
  | fail
deriving DecidableEq

namespace Badge

def label : Badge → List Char
  | info => "INFO".toList
  | pass => "PASS".toList
  | fail => "FAIL".toList

def color : Badge → Color
  | info => .blue
  | pass => .green
  | fail => .red

def messageStyle : Badge → Style
  | info => .plain
  | b => .strong b.color

end Badge

namespace Report

def endLine (text : List Char) : List Char := text ++ ['\n']

def status (colors : Bool) (b : Badge) (message : List Char) : List Char :=
  endLine (Style.apply colors ⟨true, some .white, some b.color⟩ (' ' :: b.label ++ [' ']) ++
    ' ' :: Style.apply colors b.messageStyle message)

def heading (colors : Bool) (text : List Char) : List Char :=
  endLine (Style.apply colors (.strong .blue) text)

/-- A line of a snippet, in red when it is faulty. -/
def codeLine (colors : Bool) (text : List Char) (faulty : Bool) : List Char :=
  endLine ("    ".toList ++ Style.apply colors (if faulty then .strong .red else .plain) text)

def join (separator : List Char) (texts : List (List Char)) : List Char :=
  (texts.intersperse separator).flatten

def indent (message : List Char) : List Char :=
  "  ".toList ++ join "\n      ".toList (Text.lines message)

/-- A number in at least two columns. -/
def column (n : Nat) : List Char :=
  let digits := Nat.toDigits 10 n
  List.replicate (2 - digits.length) ' ' ++ digits

/-- A line of a snippet with its number, and whether it is faulty. -/
structure NumberedLine where
  number : Nat
  text : List Char
  faulty : Bool
deriving DecidableEq

def numberedLines (snippet : List Char) (faulty : List Nat) : List NumberedLine :=
  (Text.lines snippet).mapIdx fun i line => ⟨i + 1, line, faulty.contains (i + 1)⟩

def NumberedLine.render (l : NumberedLine) : List Char :=
  column l.number ++ "| ".toList ++ l.text

def failure (colors : Bool) (r : SnippetResult) (f : Failure) : List Char :=
  status colors .fail ("Error compiling example code block ".toList ++ Nat.toDigits 10 r.index ++
      " in file ".toList ++ r.file.text.toList ++ [':']) ++
    endLine (indent f.message.toList) ++ endLine [] ++
    heading colors " Original code:".toList ++
    (numberedLines r.snippet.toList r.lines).flatMap fun l => codeLine colors l.render l.faulty

/-- What is reported about a result; a success is not mentioned. -/
def result (colors : Bool) (r : SnippetResult) : List Char :=
  match r.failure with
  | some f => failure colors r f
  | none => []

def announcement (colors : Bool) (files : List Path) : List Char :=
  status colors .info ("Compiling documentation TypeScript code snippets from ".toList ++
    join ", ".toList (files.map fun f => f.text.toList))

def pretty (colors : Bool) (results : List SnippetResult) : List Char :=
  status colors .info
      ("Found ".toList ++ Nat.toDigits 10 results.length ++ " TypeScript snippets".toList) ++
    results.flatMap (result colors) ++
    if results.all (·.isOk) then status colors .pass "All snippets compiled OK".toList
    else status colors .fail "Compilation failed, see above errors".toList

def json (results : List SnippetResult) : List Char :=
  endLine (Json.Value.array (results.map SnippetResult.value)).pretty

end Report

end DocSnippets.CommandLine
