import DocSnippets.Run.Result
import DocSnippets.Run.WorkDirectory

/-!
# Compiling one snippet

A snippet gets a number, is written to the file with that number, and is submitted from there. The
steps are kept apart because workers take them in turn.
-/

namespace DocSnippets

/-- What a compiler was given, and the file tree it found. -/
structure Submission where
  request : Request
  disk : Disk

/-- What all snippets of a run share: the tree, the next number, and what was submitted so far, the
last first. -/
structure Shared where
  disk : Disk
  nextId : Nat
  submitted : List Submission

structure Workshop where
  compiler : Compiler
  options : CompilerOptions
  directory : WorkDirectory

namespace Workshop

def takeFile (w : Workshop) (s : Prepared) (shared : Shared) : Path × Shared :=
  (w.directory.snippetPath shared.nextId s.block.dialect,
    { shared with nextId := shared.nextId + 1 })

def write (s : Prepared) (file : Path) (shared : Shared) : Option Disk.Fault × Shared :=
  match shared.disk.writeText file s.submitted with
  | .ok disk => (none, { shared with disk })
  | .error fault => (some fault, shared)

def request (w : Workshop) (s : Prepared) (file : Path) : Request :=
  { source := s.submitted, file, dialect := s.block.dialect, options := w.options }

/-- Submits a snippet whose file was written; one whose file could not be written is not
submitted. -/
def submit (w : Workshop) (s : Prepared) (file : Path) (fault : Option Disk.Fault)
    (shared : Shared) : Outcome × Shared :=
  match fault with
  | some fault => (.generic ("Failed to write " ++ file.text ++ ": " ++ fault.message), shared)
  | none =>
    let request := w.request s file
    let called := w.compiler request shared.disk
    (called.1.outcome,
      { shared with disk := called.2, submitted := ⟨request, shared.disk⟩ :: shared.submitted })

def result (s : Prepared) (file : Path) (o : Outcome) : SnippetResult :=
  SnippetResult.ofOutcome s (Scrubber.ofSnippet file s.block) o

def compile (w : Workshop) (s : Prepared) (shared : Shared) : SnippetResult × Shared :=
  let (file, shared) := w.takeFile s shared
  let (fault, shared) := write s file shared
  let (outcome, shared) := w.submit s file fault shared
  (result s file outcome, shared)

/-- Compiles snippets one after the other. -/
def compileAll (w : Workshop) : List Prepared → Shared → List SnippetResult × Shared
  | [], shared => ([], shared)
  | s :: rest, shared =>
    let (r, shared) := w.compile s shared
    let (rs, shared) := w.compileAll rest shared
    (r :: rs, shared)

end Workshop

end DocSnippets
