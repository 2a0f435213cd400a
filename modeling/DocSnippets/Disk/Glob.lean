import DocSnippets.Disk.Basic
import DocSnippets.Disk.Wildcard

/-!
# Patterns for paths

A pattern is matched part by part. A part without wildcards is looked up, one with wildcards is
compared with the names in a directory, and two stars go through all directories below.
-/

namespace DocSnippets.Disk

inductive GlobPart where
  | plain (text : List Char)
  | wild (tokens : List WildToken)
  | anyDepth
deriving DecidableEq

/-- A pattern: where it starts, its parts, and whether only directories match. -/
structure Glob where
  scope : Path
  parts : List GlobPart
  onlyDirectories : Bool

namespace Glob

def partOf (tokens : List WildToken) : GlobPart :=
  match Wildcard.literal? tokens with
  | some text => .plain text
  | none => if tokens.contains .anyDepth then .anyDepth else .wild tokens

/-- The texts between slashes; a slash at the end ends nothing. -/
def splitParts (text : List Char) : List (List Char) :=
  let parts := Text.splitOn '/' text
  if parts.getLast? = some [] then parts.dropLast else parts

/-- Reads a pattern, which has to be well-formed as a whole and in each of its parts. -/
def ofText? (text : List Char) : Option Glob := do
  let _ ← Wildcard.tokens? text
  let isAbsolute := text.head? = some '/'
  let parts ← (splitParts (if isAbsolute then text.tail else text)).mapM Wildcard.tokens?
  some {
    scope := if isAbsolute then ⟨"/"⟩ else ⟨"."⟩
    parts := parts.map partOf
    onlyDirectories := text.getLast? = some '/' }

/-- The path of a name in a directory; the current directory is left out. -/
def below (directory : Path) (name : String) : Path :=
  if directory.same ⟨"."⟩ then ⟨name⟩ else directory.join ⟨name⟩

def childrenOf (d : Disk) (p : Path) : List Path :=
  match d.find p with
  | .ok (l, .directory) => (d.children l).map (below p)
  | _ => []

/-- The paths of what is in a directory and in the directories below it, down to some depth. -/
def descendants (d : Disk) : Nat → Path → List Path
  | 0, _ => []
  | depth + 1, p => (childrenOf d p).flatMap fun c => c :: descendants d depth c

def depth (d : Disk) : Nat := d.entries.foldl (fun n e => max n e.1.length) 0

def nameMatches (part : GlobPart) (p : Path) : Bool :=
  match p.fileName? with
  | none => false
  | some name =>
    match part with
    | .plain text => name.toList = text
    | .wild tokens => Wildcard.matchesName tokens name.toList
    | .anyDepth => true

/-- The directory entries `..` and `.`, which match only patterns that start with a dot. -/
def dotEntries (tokens : List WildToken) (p : Path) : List Path :=
  if tokens.head? = some (.literal '.') then
    (["..", "."].filter fun name => Wildcard.matchesName tokens name.toList).map fun name =>
      p.join ⟨name⟩
  else []

/-- The paths that match the parts of a pattern from a path onwards. What is found by way of `..`
and `.` comes before what the names of a directory lead to. -/
def search (d : Disk) (p : Path) : List GlobPart → List Path
  | [] => [p]
  | .plain text :: parts =>
    let next := below p (String.ofList text)
    let isThere :=
      if text = ['.'] ∨ text = ['.', '.'] then d.isDirectory p else d.isThere next
    if isThere then search d next parts else []
  | .wild tokens :: parts =>
    if d.isDirectory p then
      let named := (childrenOf d p).filter (nameMatches (.wild tokens))
      (dotEntries tokens p ++ named).flatMap fun c => search d c parts
    else []
  | .anyDepth :: parts =>
    let all := descendants d (depth d) p
    match parts with
    | [] => all.filter d.isDirectory
    | .anyDepth :: parts => search d p (.anyDepth :: parts)
    | part :: parts => (all.filter (nameMatches part)).flatMap fun c => search d c parts

def paths (g : Glob) (d : Disk) : List Path :=
  (search d g.scope g.parts).filter fun p => !g.onlyDirectories || d.isDirectory p

end Glob

end DocSnippets.Disk
