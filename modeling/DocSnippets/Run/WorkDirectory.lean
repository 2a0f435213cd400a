import DocSnippets.Disk.Basic
import DocSnippets.WorkFile

/-!
# Work directories

A run has a directory of its own, under a name that nothing else has. It is removed when the run
ends.
-/

namespace DocSnippets

/-- A work directory: its path and where it is. -/
structure WorkDirectory where
  path : Path
  location : Location

namespace WorkDirectory

/-- What makes a directory of its own below a given one: it gets the tree, the given directory and
the random part of the name, and gives the directory and the tree afterwards. -/
abbrev Maker := Disk → Path → String → Except Disk.Fault (WorkDirectory × Disk)

/-- A directory is known by an absolute path, also when the one above it is given by a relative
path: it has to be found again from any current directory. -/
def Maker.Absolute (make : Maker) : Prop :=
  ∀ d parent suffix w home, make d parent suffix = .ok (w, home) → w.path.isAbsolute = true

def createIn (d : Disk) (parent : Path) (suffix : String) :
    Except Disk.Fault (WorkDirectory × Disk) := do
  let path := (d.absolute parent).join ⟨WorkFile.directoryName suffix⟩
  let d ← d.makeDirectory path
  let location ← d.locate path
  .ok ({ path, location }, d)

/-- Makes a work directory below a directory, which is made first where it is missing, and gives the
tree afterwards. -/
def createWith (make : Maker) (d : Disk) (parent : Path) (suffix : String) :
    Except Disk.Fault WorkDirectory × Disk :=
  match d.makeDirectories parent with
  | (some fault, d) => (.error fault, d)
  | (none, d) =>
    match make d parent suffix with
    | .error fault => (.error fault, d)
    | .ok (w, d) => (.ok w, d)

def create (d : Disk) (parent : Path) (suffix : String) : Except Disk.Fault WorkDirectory × Disk :=
  createWith createIn d parent suffix

def snippetPath (w : WorkDirectory) (id : Nat) (dialect : Dialect) : Path :=
  w.path.join ⟨WorkFile.snippetName id dialect⟩

def close (w : WorkDirectory) (d : Disk) : Disk := d.removeTree w.location

/-- Whether a work directory is still there. -/
def isThere (w : WorkDirectory) (d : Disk) : Bool := (d.entry? w.location).isSome

end WorkDirectory

end DocSnippets
