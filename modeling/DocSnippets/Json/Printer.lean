import DocSnippets.Json.Number

/-!
# Writing JSON

A value is written on one line without spaces, or over several lines with two spaces for each level.
Empty arrays and objects take no line of their own. In a string, quotes, backslashes and control
characters are escaped, and nothing else.
-/

namespace DocSnippets.Json

def hexDigit (n : Nat) : Char := if n < 10 then Char.ofNat (48 + n) else Char.ofNat (87 + n)

def escapeChar (c : Char) : List Char :=
  match c with
  | '"' => ['\\', '"']
  | '\\' => ['\\', '\\']
  | '\n' => ['\\', 'n']
  | '\r' => ['\\', 'r']
  | '\t' => ['\\', 't']
  | '\x08' => ['\\', 'b']
  | '\x0c' => ['\\', 'f']
  | c =>
    if c.toNat < 0x20 then ['\\', 'u', '0', '0', hexDigit (c.toNat / 16), hexDigit (c.toNat % 16)]
    else [c]

def quote (s : String) : List Char := '"' :: s.toList.flatMap escapeChar ++ ['"']

def separate (sep : List Char) (texts : List (List Char)) : List Char :=
  (texts.intersperse sep).flatten

namespace Value

mutual

def compact : Value → List Char
  | .null => "null".toList
  | .bool true => "true".toList
  | .bool false => "false".toList
  | .number n => n.text
  | .string s => quote s
  | .array items => '[' :: separate [','] (compactItems items) ++ [']']
  | .object members => '{' :: separate [','] (compactMembers members) ++ ['}']

def compactItems : List Value → List (List Char)
  | [] => []
  | item :: items => compact item :: compactItems items

def compactMembers : List (String × Value) → List (List Char)
  | [] => []
  | (key, item) :: members => (quote key ++ ':' :: compact item) :: compactMembers members

end

def newline (level : Nat) : List Char := '\n' :: List.replicate (2 * level) ' '

mutual

def prettyAt (level : Nat) : Value → List Char
  | .array [] => ['[', ']']
  | .array (item :: items) =>
    '[' :: newline (level + 1) ++
      separate (',' :: newline (level + 1)) (prettyItems (level + 1) (item :: items)) ++
      newline level ++ [']']
  | .object [] => ['\x7b', '\x7d']
  | .object (member :: members) =>
    '\x7b' :: newline (level + 1) ++
      separate (',' :: newline (level + 1)) (prettyMembers (level + 1) (member :: members)) ++
      newline level ++ ['\x7d']
  | .null => "null".toList
  | .bool true => "true".toList
  | .bool false => "false".toList
  | .number n => n.text
  | .string s => quote s

def prettyItems (level : Nat) : List Value → List (List Char)
  | [] => []
  | item :: items => prettyAt level item :: prettyItems level items

def prettyMembers (level : Nat) : List (String × Value) → List (List Char)
  | [] => []
  | (key, item) :: members =>
    (quote key ++ ':' :: ' ' :: prettyAt level item) :: prettyMembers level members

end

def pretty (v : Value) : List Char := prettyAt 0 v

end Value

end DocSnippets.Json
