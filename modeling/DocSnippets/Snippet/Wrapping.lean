import DocSnippets.Text.Blank
import DocSnippets.Text.Find

/-!
# Wrapping

A script snippet is put inside a function of its own, so that its declarations cannot clash with
those of others. A snippet with module syntax stays as it is, for `import`, `export` and ambient
declarations are not allowed in a function body. The wrapper adds one line above the snippet.
-/

namespace DocSnippets.Snippet

/-- How a snippet is prepared: left as written, or put inside a function. -/
inductive Wrapping where
  | module
  | isolated
deriving DecidableEq, Repr

def Wrapping.lineOffset : Wrapping → Nat
  | .module => 0
  | .isolated => 1

def Wrapping.name : Wrapping → String
  | .module => "Module"
  | .isolated => "Isolated"

/-- Whether a text starts with a keyword followed by a character of a given class. -/
def startsWithKeyword (keyword : List Char) (next : Char → Bool) (text : List Char) : Bool :=
  match keyword.isPrefixOf? text with
  | some (c :: _) => next c
  | _ => false

/-- Whether a line, given with the text after it, opens with module syntax. Blanks after a keyword
may be newlines. -/
def opensModule (text : List Char) : Bool :=
  let text := text.dropWhile fun c => c = ' ' || c = '\t'
  startsWithKeyword "import".toList (fun c => Text.isBlank c || "\x7b*'\"".toList.contains c) text
    || startsWithKeyword "export".toList (fun c => Text.isBlank c || "\x7b*".toList.contains c) text
    || startsWithKeyword "declare".toList Text.isBlank text
    || startsWithKeyword "namespace".toList Text.isBlank text
    || startsWithKeyword "module".toList Text.isBlank text
    || match "///".toList.isPrefixOf? text with
      | some rest => "<reference".toList.isPrefixOf (Text.trimStart rest)
      | none => false

def belowNewlines : List Char → List (List Char)
  | [] => []
  | c :: text => if c = '\n' then text :: belowNewlines text else belowNewlines text

def hasModuleSyntax (text : List Char) : Bool :=
  (text :: belowNewlines text).any opensModule

def wrapperOpen : List Char := "(async () => \x7b\n".toList

def wrapperClose : List Char := "\x7d)();\n".toList

/-- The snippet inside the wrapper, on lines of its own. -/
def isolate (text : List Char) : List Char :=
  let ended := if text.getLast? = some '\n' then text else text ++ ['\n']
  wrapperOpen ++ ended ++ wrapperClose

def wrap (text : List Char) (enabled : Bool) : List Char × Wrapping :=
  if !enabled || hasModuleSyntax text then (text, .module) else (isolate text, .isolated)

end DocSnippets.Snippet
