import DocSnippets.Toml.Datetime
import DocSnippets.Toml.Number

/-!
# TOML expressions

A document is a list of sections. Each has the key-value pairs that stand below its header; the
first section has none. What the pairs make together is not looked at here.
-/

namespace DocSnippets.Toml

open Reader

abbrev Key := List String

/-- A value as it is written: an inline table is a list of pairs. -/
inductive Expression where
  | scalar (s : Scalar)
  | array (items : List Expression)
  | table (pairs : List (Key × Expression))

/-- Where the pairs of a section go: into the document, a table, or a new item of an array of
tables. -/
inductive Header where
  | document
  | table (key : Key)
  | item (key : Key)

structure Section where
  header : Header
  pairs : List (Key × Expression)

/-- The depth at which keys and values are refused. -/
def depthLimit : Nat := 80

def spaces : Reader Unit := discard (takeWhile isSpace)

def isBare (c : Char) : Bool := c.isAlphanum || c = '-' || c = '_'

/-- One name of a key: bare, or a string on one line. -/
def name : Reader String := do
  match ← next? with
  | some '"' => char '"'; String.ofList <$> short '"'
  | some '\'' => char '\''; String.ofList <$> short '\''
  | _ => do
    let text ← takeWhile isBare
    require (text ≠ [])
    pure (String.ofList text)

/-- The names of a dotted key; each takes a character at least. -/
def names : Nat → Reader Key
  | 0 => fail
  | fuel + 1 => do
    spaces
    let first ← name
    spaces
    if (← next?) = some '.' then
      char '.'
      pure (first :: (← names fuel))
    else pure [first]

def key : Reader Key := do
  let text ← rest
  let key ← names (text.length + 1)
  require (key.length < depthLimit)
  pure key

def comment : Reader Unit := do
  char '#'
  discard (takeWhile isPlain)

/-- Drops spaces, comments and line breaks. -/
def dropBetween : Nat → List Char → List Char
  | 0, text => text
  | fuel + 1, text =>
    match afterNewline? text with
    | some rest => dropBetween fuel rest
    | none =>
      match text with
      | c :: rest =>
        if isSpace c then dropBetween fuel rest
        else if c = '#' then dropBetween fuel (rest.dropWhile isPlain)
        else text
      | [] => []

def between : Reader Unit := modify fun text => dropBetween text.length text

def numeric : Reader Scalar := do
  match ← maybe Datetime.datetime with
  | some d => pure (.datetime d)
  | none =>
    match ← maybe float with
    | some x => pure x
    | none =>
      match ← maybe nonFinite with
      | some x => pure x
      | none => integer

mutual

/-- A value inside `depth` arrays and inline tables. -/
def value (depth : Nat) : Nat → Reader Expression
  | 0 => fail
  | fuel + 1 => do
    match ← next? with
    | some '"' => (fun t => .scalar (.string t)) <$> string
    | some '\'' => (fun t => .scalar (.string t)) <$> string
    | some 't' => word "true".toList; pure (.scalar (.bool true))
    | some 'f' => word "false".toList; pure (.scalar (.bool false))
    | some '[' =>
      char '['
      require (depth + 1 < depthLimit)
      .array <$> items (depth + 1) fuel
    | some '\x7b' =>
      char '\x7b'
      require (depth + 1 < depthLimit)
      .table <$> inlinePairs (depth + 1) fuel
    | some 'i' => .scalar <$> nonFinite
    | some 'n' => .scalar <$> nonFinite
    | _ => .scalar <$> numeric

/-- The items of an array up to its closing bracket; a comma may follow the last one. -/
def items (depth : Nat) : Nat → Reader (List Expression)
  | 0 => fail
  | fuel + 1 => do
    between
    if (← next?) = some ']' then char ']'; pure []
    else
      let item ← value depth fuel
      between
      if (← next?) = some ',' then
        char ','
        pure (item :: (← items depth fuel))
      else
        char ']'
        pure [item]

def inlinePairs (depth : Nat) : Nat → Reader (List (Key × Expression))
  | 0 => fail
  | fuel + 1 => do
    spaces
    if (← next?) = some '\x7d' then char '\x7d'; pure []
    else morePairs depth fuel

/-- The pairs of an inline table that has one at least. -/
def morePairs (depth : Nat) : Nat → Reader (List (Key × Expression))
  | 0 => fail
  | fuel + 1 => do
    let k ← key
    char '='
    spaces
    let v ← value depth fuel
    spaces
    if (← next?) = some ',' then
      char ','
      pure ((k, v) :: (← morePairs depth fuel))
    else
      char '\x7d'
      pure [(k, v)]

end

/-- The end of a line: spaces, perhaps a comment, and a line break or the end of the text. -/
def lineEnd : Reader Unit := do
  spaces
  if (← next?) = some '#' then comment
  if (← rest) = [] then pure () else newline

def pair : Reader (Key × Expression) := do
  let k ← key
  char '='
  spaces
  let text ← rest
  let v ← value 0 (2 * text.length + 2)
  lineEnd
  pure (k, v)

def header : Reader Header := do
  char '['
  if (← next?) = some '[' then
    char '['
    let k ← key
    word "]]".toList
    lineEnd
    pure (.item k)
  else
    let k ← key
    char ']'
    lineEnd
    pure (.table k)

/-- The sections from a place where a line may start; `current` has its pairs in reverse. Every line
takes a character. -/
def sectionsFrom (current : Section) : Nat → Reader (List Section)
  | 0 => fail
  | fuel + 1 => do
    spaces
    let finished : Section := { current with pairs := current.pairs.reverse }
    match ← next? with
    | none => pure [finished]
    | some '#' =>
      comment
      lineEnd
      sectionsFrom current fuel
    | some '\n' => newline; sectionsFrom current fuel
    | some '\r' => newline; sectionsFrom current fuel
    | some '[' =>
      let h ← header
      pure (finished :: (← sectionsFrom ⟨h, []⟩ fuel))
    | some _ =>
      let p ← pair
      sectionsFrom { current with pairs := p :: current.pairs } fuel

/-- The byte order mark, which may start a document. -/
def mark : Char := Char.ofNat 0xfeff

def sections? (text : String) : Option (List Section) :=
  let chars := text.toList
  let chars := if chars.head? = some mark then chars.tail else chars
  (sectionsFrom ⟨.document, []⟩ (chars.length + 1) chars).map (·.1)

end DocSnippets.Toml
