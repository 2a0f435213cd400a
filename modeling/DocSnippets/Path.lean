import DocSnippets.Text.Find

/-!
# Paths

A path is its text. Its meaning is the list of its components: the root, the current directory where
the path starts with it, the parent directory, or a name. Two spellings with the same components
are the same path. All operations here are lexical.
-/

namespace DocSnippets

structure Path where
  text : String
deriving DecidableEq, Inhabited

namespace Path

inductive Component where
  | root
  | current
  | parent
  | name (text : String)
deriving DecidableEq

def Component.text : Component → String
  | .root => "/"
  | .current => "."
  | .parent => ".."
  | .name text => text

/-- The parts between slashes that count as components, each with the position of its end. Empty
parts never count, and a lone dot counts only at the start of a relative path. -/
def marksFrom (pos : Nat) (first : Bool) : List (List Char) → List (Component × Nat)
  | [] => []
  | part :: parts =>
    let stop := pos + part.length
    let rest := marksFrom (stop + 1) false parts
    if part = [] then rest
    else if part = ['.'] then if first then (.current, stop) :: rest else rest
    else if part = ['.', '.'] then (.parent, stop) :: rest
    else (.name (String.ofList part), stop) :: rest

def isAbsolute (p : Path) : Bool := p.text.toList.head? = some '/'

/-- The components of a path, each with the number of characters up to its end. -/
def marks (p : Path) : List (Component × Nat) :=
  let body := marksFrom 0 true (Text.splitOn '/' p.text.toList)
  if p.isAbsolute then (.root, 1) :: body else body

def components (p : Path) : List Component := p.marks.map (·.1)

def same (p q : Path) : Bool := p.components = q.components

/-- The path as far as the component before its last one, spelled as it was; the root and the empty
path have none. -/
def parent? (p : Path) : Option Path :=
  match p.marks.reverse with
  | [] => none
  | (.root, _) :: _ => none
  | [_] => some ⟨""⟩
  | _ :: (_, stop) :: _ => some ⟨String.ofList (p.text.toList.take stop)⟩

/-- The last component, if it is a name. -/
def fileName? (p : Path) : Option String :=
  match p.components.getLast? with
  | some (.name text) => some text
  | _ => none

/-- The part before the last dot and the part after it; a name whose only dot starts it, or without
a dot, has no second part. -/
def splitName (name : List Char) : List Char × Option (List Char) :=
  let after := (name.reverse.takeWhile (· != '.')).reverse
  let before := (name.reverse.dropWhile (· != '.')).reverse.dropLast
  if before = [] then (name, none) else (before, some after)

def extension? (p : Path) : Option (List Char) :=
  p.fileName?.bind fun name => (splitName name.toList).2

/-- Ends a path after the stem of its file name and appends an extension; a path without a file
name stays. -/
def setExtension (p : Path) (extension : String) : Path :=
  match p.marks.getLast? with
  | some (.name name, stop) =>
    let stem := (splitName name.toList).1
    let keep := stop - name.toList.length + stem.length
    ⟨String.ofList (p.text.toList.take keep ++ '.' :: extension.toList)⟩
  | _ => p

/-- Replaces the extension of the file name: the old one is cut from the end of the text first, and
the new one is put after the stem of what is left. -/
def withExtension (p : Path) (extension : String) : Path :=
  match p.extension? with
  | none => p.setExtension extension
  | some old =>
    let chars := p.text.toList
    setExtension ⟨String.ofList (chars.take (chars.length - old.length))⟩ extension

/-- The second path seen from the first one; an absolute path stands for itself. -/
def join (p q : Path) : Path :=
  if q.isAbsolute then q
  else if p.text.toList = [] ∨ p.text.toList.getLast? = some '/' then ⟨p.text ++ q.text⟩
  else ⟨p.text ++ "/" ++ q.text⟩

/-- The path that joins components one after the other. -/
def ofComponents (components : List Component) : Path :=
  components.foldl (fun p c => p.join ⟨c.text⟩) ⟨""⟩

def Component.rank : Component → Nat
  | .root => 0
  | .current => 1
  | .parent => 2
  | .name _ => 3

/-- The order of components: the root, the current and the parent directory, then names by their
characters. -/
def Component.le (a b : Component) : Bool :=
  match a, b with
  | .name s, .name t => decide (s ≤ t)
  | _, _ => a.rank ≤ b.rank

def componentsLe : List Component → List Component → Bool
  | [], _ => true
  | _ :: _, [] => false
  | a :: as, b :: bs => if a = b then componentsLe as bs else a.le b

def le (p q : Path) : Bool := componentsLe p.components q.components

end Path

end DocSnippets
