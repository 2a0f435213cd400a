import DocSnippets.Disk.Fault
import DocSnippets.Path
import DocSnippets.Text.Offset

/-!
# File trees

A file tree holds files and directories at locations, which are lists of names from the root down.
A path means a location when it is followed from the root or from the current directory: every step
needs a directory to start from, and the last one need not lead to anything. Paths and the names in
them have a greatest length, and no path has a NUL character.
-/

namespace DocSnippets

abbrev Location := List String

namespace Disk

inductive Entry where
  | file (content : ByteArray) (executable : Bool)
  | directory

end Disk

/-- A file tree with a current directory. The root is always there. -/
structure Disk where
  entries : List (Location × Disk.Entry)
  current : Location

namespace Disk

def empty : Disk := ⟨[], []⟩

def entry? (d : Disk) (l : Location) : Option Entry :=
  if l = [] then some .directory else d.entries.lookup l

/-- The greatest length of a path in UTF-8. -/
def pathLimit : Nat := 4095

/-- The greatest length of a name in UTF-8. -/
def nameLimit : Nat := 255

def walk (d : Disk) (start : Location) : List (List Char) → Except Fault Location
  | [] => .ok start
  | part :: parts =>
    match d.entry? start with
    | none => .error .missing
    | some (.file _ _) => .error .notDirectory
    | some .directory =>
      if nameLimit < Text.byteLength part then .error .nameTooLong
      else if part = [] ∨ part = ['.'] then d.walk start parts
      else if part = ['.', '.'] then d.walk start.dropLast parts
      else d.walk (start ++ [String.ofList part]) parts

/-- What is wrong with a path by itself, whatever the tree. -/
def pathFault? (p : Path) : Option Fault :=
  let chars := p.text.toList
  if chars.contains '\x00' then some .nulInPath
  else if chars = [] then some .missing
  else if pathLimit < Text.byteLength chars then some .nameTooLong
  else none

def locate (d : Disk) (p : Path) : Except Fault Location :=
  match pathFault? p with
  | some fault => .error fault
  | none => d.walk (if p.isAbsolute then [] else d.current) (Text.splitOn '/' p.text.toList)

def find (d : Disk) (p : Path) : Except Fault (Location × Entry) := do
  let l ← d.locate p
  match d.entry? l with
  | some e => .ok (l, e)
  | none => .error .missing

def isFile (d : Disk) (p : Path) : Bool :=
  match d.find p with
  | .ok (_, .file _ _) => true
  | _ => false

def isDirectory (d : Disk) (p : Path) : Bool :=
  match d.find p with
  | .ok (_, .directory) => true
  | _ => false

def isThere (d : Disk) (p : Path) : Bool :=
  match d.find p with
  | .ok _ => true
  | .error _ => false

def readText (d : Disk) (p : Path) : Except Fault String :=
  match d.find p with
  | .error fault => .error fault
  | .ok (_, .directory) => .error .isDirectory
  | .ok (_, .file content _) =>
    match String.fromUTF8? content with
    | some text => .ok text
    | none => .error .notText

/-- Puts an entry at a location, in the place of the one that is there. -/
def put (d : Disk) (l : Location) (e : Entry) : Disk :=
  { d with entries := (l, e) :: d.entries.filter fun x => x.1 != l }

/-- Writes a file; a file that is there keeps its permission to be executed. -/
def write (d : Disk) (p : Path) (content : ByteArray) : Except Fault Disk := do
  let l ← d.locate p
  match d.entry? l with
  | some .directory => .error .isDirectory
  | some (.file _ executable) => .ok (d.put l (.file content executable))
  | none => .ok (d.put l (.file content false))

def writeText (d : Disk) (p : Path) (text : String) : Except Fault Disk := d.write p text.toUTF8

/-- The path without slashes at its end; the root stays. -/
def dropSlashes (p : Path) : Path :=
  let kept := (p.text.toList.reverse.dropWhile (· = '/')).reverse
  if kept = [] then p else ⟨String.ofList kept⟩

def makeDirectory (d : Disk) (p : Path) : Except Fault Disk := do
  if let some fault := pathFault? p then .error fault
  let l ← d.locate (dropSlashes p)
  match d.entry? l with
  | some _ => .error .exists
  | none => .ok (d.put l .directory)

/-- Makes one directory, unless the path leads to one already. -/
def ensureDirectory (d : Disk) (p : Path) : Except Fault Disk :=
  match d.makeDirectory p with
  | .ok d' => .ok d'
  | .error fault => if d.isDirectory p then .ok d else .error fault

/-- The fault of an operation, if it had one, and the tree afterwards; a failed one leaves the tree
given. -/
def settle (d : Disk) : Except Fault Disk → Option Fault × Disk
  | .ok d' => (none, d')
  | .error fault => (some fault, d)

/-- Makes a directory and those above it, where the path has `depth` components at most. Directories
that were made stay when a later one cannot be made. -/
def makeWithParents (d : Disk) : Nat → Path → Option Fault × Disk
  | 0, p => d.settle (d.ensureDirectory p)
  | depth + 1, p =>
    match d.makeDirectory p with
    | .ok d' => (none, d')
    | .error .missing =>
      match p.parent? with
      | none => (some .missing, d)
      | some parent =>
        let above := if parent.text = "" then (none, d) else d.makeWithParents depth parent
        match above.1 with
        | some fault => (some fault, above.2)
        | none => above.2.settle (above.2.ensureDirectory p)
    | .error fault => if d.isDirectory p then (none, d) else (some fault, d)

/-- Makes a directory and those above it that are missing. The empty path needs none. -/
def makeDirectories (d : Disk) (p : Path) : Option Fault × Disk :=
  if p.text = "" then (none, d) else d.makeWithParents p.components.length p

/-- Whether a location is another one or lies below it. -/
def isWithin (l top : Location) : Bool := top.isPrefixOf l

def removeTree (d : Disk) (l : Location) : Disk :=
  { d with entries := d.entries.filter fun x => !isWithin x.1 l }

/-- The names in a directory, in order. -/
def children (d : Disk) (l : Location) : List String :=
  (d.entries.filterMap fun x =>
    match x.1.reverse with
    | name :: above => if above.reverse = l then some name else none
    | [] => none).mergeSort fun a b => decide (a ≤ b)

def currentPath (d : Disk) : Path := ⟨"/" ++ "/".intercalate d.current⟩

/-- Where a path leads when it starts at the current directory: relative paths become absolute. -/
def absolute (d : Disk) (p : Path) : Path := d.currentPath.join p

end Disk

end DocSnippets
