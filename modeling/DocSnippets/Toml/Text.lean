import DocSnippets.Toml.Reader

/-!
# Strings in TOML

Basic strings hold escapes, literal strings hold none. A string in three quotes may hold line
breaks, loses one directly after its opening, and may end in up to two quotes of its own.
-/

namespace DocSnippets.Toml

open Reader

def isSpace (c : Char) : Bool := c = ' ' || c = '\t'

/-- A character that may stand in a comment, and in a string unless it has a meaning there. -/
def isPlain (c : Char) : Bool := c = '\t' || (0x20 ≤ c.toNat && c.toNat ≠ 0x7f)

def afterNewline? : List Char → Option (List Char)
  | '\n' :: rest => some rest
  | '\r' :: '\n' :: rest => some rest
  | _ => none

def newline : Reader Unit := fun text => (afterNewline? text).map fun rest => ((), rest)

def hexDigit? (c : Char) : Option Nat :=
  if '0' ≤ c ∧ c ≤ '9' then some (c.toNat - 48)
  else if 'a' ≤ c ∧ c ≤ 'f' then some (c.toNat - 87)
  else if 'A' ≤ c ∧ c ≤ 'F' then some (c.toNat - 55)
  else none

/-- The character of an escape with a given number of hexadecimal digits. -/
def codePoint (digits : Nat) : Reader Char := do
  let text ← times (fun c => (hexDigit? c).isSome) digits
  let n := text.foldl (fun n c => 16 * n + (hexDigit? c).getD 0) 0
  require (n.isValidChar)
  pure (Char.ofNat n)

def escape : Reader Char := do
  let c ← one fun _ => true
  match c with
  | 'b' => pure '\x08'
  | 'f' => pure '\x0c'
  | 'n' => pure '\n'
  | 'r' => pure '\r'
  | 't' => pure '\t'
  | '"' => pure '"'
  | '\\' => pure '\\'
  | 'u' => codePoint 4
  | 'U' => codePoint 8
  | _ => fail

/-- The rest of a basic string. Each step takes a character, so the length of the text is fuel
enough, here and in the strings of several lines. -/
def basicRest : Nat → Reader (List Char)
  | 0 => fail
  | fuel + 1 => do
    let c ← one isPlain
    if c = '"' then pure []
    else if c = '\\' then
      let e ← escape
      pure (e :: (← basicRest fuel))
    else pure (c :: (← basicRest fuel))

def literalRest : Reader (List Char) := do
  let text ← takeWhile fun c => isPlain c && c ≠ '\''
  char '\''
  pure text

def dropSpaceLines : List Char → List Char
  | [] => []
  | '\r' :: '\n' :: rest => dropSpaceLines rest
  | c :: rest => if isSpace c || c = '\n' then dropSpaceLines rest else c :: rest

/-- What follows a backslash that ends a line: the line break and all spaces and line breaks after
it. -/
def afterLineEnd? (text : List Char) : Option (List Char) :=
  (afterNewline? (text.dropWhile isSpace)).map dropSpaceLines

def quotes (quote : Char) (text : List Char) : Nat := (text.takeWhile (· = quote)).length

/-- The rest of a string of several lines. Three to five quotes end it, the first ones of more than
three belonging to it; one or two stand for themselves. -/
def longRest (quote : Char) (escapes : Bool) : Nat → Reader (List Char)
  | 0 => fail
  | fuel + 1 => do
    let text ← rest
    match text with
    | [] => fail
    | c :: after =>
      if c = quote then
        let n := quotes quote text
        if n < 3 then
          set after
          pure (c :: (← longRest quote escapes fuel))
        else if n ≤ 5 then
          set (text.drop n)
          pure (List.replicate (n - 3) quote)
        else fail
      else if escapes ∧ c = '\\' then
        match afterLineEnd? after with
        | some after =>
          set after
          longRest quote escapes fuel
        | none =>
          set after
          let e ← escape
          pure (e :: (← longRest quote escapes fuel))
      else
        match afterNewline? text with
        | some after =>
          set after
          pure ('\n' :: (← longRest quote escapes fuel))
        | none =>
          if isPlain c then
            set after
            pure (c :: (← longRest quote escapes fuel))
          else fail

def long (quote : Char) (escapes : Bool) : Reader (List Char) := do
  let _ ← maybe newline
  let text ← rest
  longRest quote escapes (text.length + 1)

def short (quote : Char) : Reader (List Char) := do
  if quote = '"' then
    let text ← rest
    basicRest (text.length + 1)
  else literalRest

def string : Reader (List Char) := do
  let text ← rest
  let quote ← one fun c => c = '"' || c = '\''
  if quotes quote text ≥ 3 then
    set (text.drop 3)
    long quote (quote = '"')
  else short quote

end DocSnippets.Toml
