import DocSnippets.Package.Manifest
import DocSnippets.Run.Pool

/-!
# Runs

A run reads all documentation files, prepares their snippets, and only then compiles them in a work
directory. A file that cannot be read or a self-import without a file rejects the run before
anything is compiled; a snippet that does not compile is reported and rejects nothing.
-/

namespace DocSnippets

inductive RunError where
  | extraction (file : Path) (fault : Disk.Fault)
  | resolution (e : ResolutionError)
  | workDirectory (parent : Path) (fault : Disk.Fault)
deriving DecidableEq

def RunError.message : RunError → String
  | .extraction file fault =>
    "Error extracting code blocks from " ++ file.text ++ ": " ++ fault.message
  | .resolution e => e.message
  | .workDirectory parent fault =>
    "Failed to create working directory in " ++ parent.text ++ ": " ++ fault.message

/-- What is compiled how: `jobs` workers, `wrap` for scripts, and the directory that holds the work
directory, which is the package root unless another one is given. -/
structure Run where
  package : Package
  compiler : Compiler
  options : CompilerOptions
  jobs : Nat
  wrap : Bool
  workRoot : Option Path

/-- How a run ended: its results or its error, the tree it left, and what was submitted, in order.
-/
structure RunReport where
  results : Except RunError (List SnippetResult)
  disk : Disk
  submitted : List Submission

namespace Run

def defaultFiles (root : Path) : List Path := [root.join ⟨"README.md"⟩]

/-- The blocks of files, in order; the first file that cannot be read is the error. -/
def blocks (d : Disk) : List Path → Except RunError (List Block)
  | [] => .ok []
  | file :: files =>
    match d.readText file with
    | .error fault => .error (.extraction file fault)
    | .ok text => do
      let rest ← blocks d files
      .ok (Markdown.blocks file text ++ rest)

/-- Blocks prepared one after the other; the first self-import without a file is the error. -/
def prepareAll (package : Package) (wrap : Bool) :
    List Block → Except ResolutionError (List Prepared)
  | [] => .ok []
  | b :: rest => do
    let s ← Prepared.ofBlock package wrap b
    let more ← prepareAll package wrap rest
    .ok (s :: more)

/-- The prepared snippets of files. Entry points are asked for only when there is a snippet. -/
def prepare (r : Run) (d : Disk) (files : List Path) : Except RunError (List Prepared) := do
  let found ← blocks d files
  if found = [] then .ok []
  else
    match r.package.entryPoints.check with
    | .error e => .error (.resolution e)
    | .ok _ =>
      match prepareAll r.package r.wrap found with
      | .error e => .error (.resolution e)
      | .ok snippets => .ok snippets

def workers (r : Run) (snippets : Nat) : Nat := max 1 (min r.jobs snippets)

def parent (r : Run) : Path := r.workRoot.getD r.package.root

/-- Compiles snippets in a work directory: one after the other, or in a pool that follows a
schedule. -/
def compile (r : Run) (schedule : List Event) (snippets : List Prepared)
    (directory : WorkDirectory) (d : Disk) : List SnippetResult × Shared :=
  let workshop : Workshop := ⟨r.compiler, r.options, directory⟩
  let shared : Shared := ⟨d, 1, []⟩
  let workers := r.workers snippets.length
  if workers = 1 then workshop.compileAll snippets shared
  else
    let pool := (Pool.start snippets workers shared).run workshop schedule
    (pool.results, pool.shared)

/-- Runs with a name for the work directory and a schedule for the workers, which may depend on the
number of snippets and of workers. -/
def executeWith (r : Run) (schedule : Nat → Nat → List Event) (suffix : String) (d : Disk)
    (files : List Path) : RunReport :=
  match r.prepare d files with
  | .error e => ⟨.error e, d, []⟩
  | .ok [] => ⟨.ok [], d, []⟩
  | .ok snippets =>
    match WorkDirectory.create d r.parent suffix with
    | (.error fault, d) => ⟨.error (.workDirectory r.parent fault), d, []⟩
    | (.ok directory, d) =>
      let events := schedule snippets.length (r.workers snippets.length)
      let (results, shared) := r.compile events snippets directory d
      ⟨.ok results, directory.close shared.disk, shared.submitted.reverse⟩

def execute (r : Run) (suffix : String) (d : Disk) (files : List Path) : RunReport :=
  r.executeWith Pool.roundRobin suffix d files

end Run

end DocSnippets
