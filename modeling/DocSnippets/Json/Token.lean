import DocSnippets.Json.Number
import DocSnippets.Text.Find

/-!
# JSON tokens

The tokens of a JSON text. A string token may hold escapes that denote no character, and a number
token may be too large: such a token has no value, and whoever wants the value has to refuse it.
-/

namespace DocSnippets.Json

inductive Token where
  | openArray
  | closeArray
  | openObject
  | closeObject
  | comma
  | colon
  | null
  | bool (b : Bool)
  | number (n : Option Number)
  | string (s : Option String)

namespace Token

def isSpace (c : Char) : Bool := c = ' ' || c = '\t' || c = '\n' || c = '\r'

/-- A unit of a string: a character, or a UTF-16 unit written as an escape. -/
inductive Piece where
  | char (c : Char)
  | unit (n : Nat)

def hexValue? (c : Char) : Option Nat :=
  if '0' ≤ c ∧ c ≤ '9' then some (c.toNat - 48)
  else if 'a' ≤ c ∧ c ≤ 'f' then some (c.toNat - 87)
  else if 'A' ≤ c ∧ c ≤ 'F' then some (c.toNat - 55)
  else none

def hexUnit? (a b c d : Char) : Option Nat := do
  some (16 * (16 * (16 * (← hexValue? a) + (← hexValue? b)) + (← hexValue? c)) + (← hexValue? d))

def escaped? : Char → Option Char
  | '"' => some '"'
  | '\\' => some '\\'
  | '/' => some '/'
  | 'b' => some '\x08'
  | 'f' => some '\x0c'
  | 'n' => some '\n'
  | 'r' => some '\r'
  | 't' => some '\t'
  | _ => none

/-- The units of a string after its opening quote, and the text after its closing quote. -/
def pieces? : List Char → Option (List Piece × List Char)
  | [] => none
  | '"' :: rest => some ([], rest)
  | '\\' :: 'u' :: a :: b :: c :: d :: rest =>
    (hexUnit? a b c d).bind fun n =>
      (pieces? rest).map fun more => (.unit n :: more.1, more.2)
  | '\\' :: e :: rest =>
    (escaped? e).bind fun c => (pieces? rest).map fun more => (.char c :: more.1, more.2)
  | c :: rest =>
    if c.toNat < 0x20 then none
    else (pieces? rest).map fun more => (.char c :: more.1, more.2)

/-- The characters of units: a high and a low surrogate make one character, and neither stands
alone. -/
def decode? : List Piece → Option (List Char)
  | [] => some []
  | .char c :: rest => (decode? rest).map (c :: ·)
  | .unit n :: .unit m :: rest =>
    if 0xd800 ≤ n ∧ n < 0xdc00 then
      if 0xdc00 ≤ m ∧ m < 0xe000 then
        (decode? rest).map (Char.ofNat (0x10000 + 0x400 * (n - 0xd800) + (m - 0xdc00)) :: ·)
      else none
    else if 0xdc00 ≤ n ∧ n < 0xe000 then none
    else (decode? (.unit m :: rest)).map (Char.ofNat n :: ·)
  | .unit n :: rest =>
    if 0xd800 ≤ n ∧ n < 0xe000 then none else (decode? rest).map (Char.ofNat n :: ·)

/-- Digits at the start of a text, at least one. -/
def digits? (text : List Char) : Option (List Char × List Char) :=
  let digits := text.takeWhile Char.isDigit
  if digits = [] then none else some (digits, text.dropWhile Char.isDigit)

/-- The parts of a number at the start of a text: a sign, whole digits without a leading zero, a
fraction, an exponent. -/
def numberParts? (text : List Char) : Option (Number.Parts × List Char) := do
  let (negative, text) := match text with
    | '-' :: rest => (true, rest)
    | _ => (false, text)
  let (whole, text) ← digits? text
  if whole.length > 1 ∧ whole.head? = some '0' then none
  let (fraction, text) ← match text with
    | '.' :: rest => (digits? rest).map fun d => (some d.1, d.2)
    | _ => some (none, text)
  let (exponent, text) ←
    if text.head? = some 'e' ∨ text.head? = some 'E' then
      match text.tail with
      | '-' :: rest => (digits? rest).map fun d => (some (true, d.1), d.2)
      | '+' :: rest => (digits? rest).map fun d => (some (false, d.1), d.2)
      | rest => (digits? rest).map fun d => (some (false, d.1), d.2)
    else some (none, text)
  some (⟨negative, whole, fraction, exponent⟩, text)

/-- The first token of a text that starts with no space, and what follows it. -/
def first? (text : List Char) : Option (Token × List Char) :=
  match text with
  | '[' :: rest => some (.openArray, rest)
  | ']' :: rest => some (.closeArray, rest)
  | '{' :: rest => some (.openObject, rest)
  | '}' :: rest => some (.closeObject, rest)
  | ',' :: rest => some (.comma, rest)
  | ':' :: rest => some (.colon, rest)
  | 'n' :: 'u' :: 'l' :: 'l' :: rest => some (.null, rest)
  | 't' :: 'r' :: 'u' :: 'e' :: rest => some (.bool true, rest)
  | 'f' :: 'a' :: 'l' :: 's' :: 'e' :: rest => some (.bool false, rest)
  | '"' :: rest =>
    (pieces? rest).map fun s => (.string ((decode? s.1).map String.ofList), s.2)
  | _ => (numberParts? text).map fun n => (.number (Number.ofParts? n.1), n.2)

/-- The tokens of a text. Each takes at least one character, so the length of the text is fuel
enough. -/
def scan? : Nat → List Char → Option (List Token)
  | fuel, text =>
    match text.dropWhile isSpace with
    | [] => some []
    | c :: rest =>
      match fuel with
      | 0 => none
      | fuel + 1 => do
        let (token, rest) ← first? (c :: rest)
        let tokens ← scan? fuel rest
        some (token :: tokens)

def tokens? (text : String) : Option (List Token) :=
  let chars := text.toList
  scan? chars.length chars

end Token

end DocSnippets.Json
