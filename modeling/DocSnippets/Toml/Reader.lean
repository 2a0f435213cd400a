/-!
# Reading characters

A reader takes something from the start of a text or fails. A failed alternative takes nothing.
-/

namespace DocSnippets.Toml

abbrev Reader (α : Type) := StateT (List Char) Option α

namespace Reader

def fail {α : Type} : Reader α := fun _ => none

def rest : Reader (List Char) := get

def one (p : Char → Bool) : Reader Char
  | [] => none
  | c :: text => if p c then some (c, text) else none

def char (c : Char) : Reader Unit := discard (one (· = c))

def word (wanted : List Char) : Reader Unit := fun text =>
  (wanted.isPrefixOf? text).map fun rest => ((), rest)

def takeWhile (p : Char → Bool) : Reader (List Char) := fun text =>
  some (text.takeWhile p, text.dropWhile p)

/-- Takes exactly `n` characters of a class. -/
def times (p : Char → Bool) : Nat → Reader (List Char)
  | 0 => pure []
  | n + 1 => do
    let c ← one p
    let cs ← times p n
    pure (c :: cs)

/-- What a reader takes, or nothing when it fails. -/
def maybe {α : Type} (r : Reader α) : Reader (Option α) := fun text =>
  match r text with
  | some (a, rest) => some (some a, rest)
  | none => some (none, text)

def require (b : Bool) : Reader Unit := if b then pure () else fail

/-- The next character, which is not taken. -/
def next? : Reader (Option Char) := do
  let text ← rest
  pure text.head?

end Reader

end DocSnippets.Toml
