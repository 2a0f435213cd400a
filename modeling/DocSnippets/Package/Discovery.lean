import DocSnippets.Disk.Basic
import DocSnippets.Package.Manifest

/-!
# Finding the package

A package is found by going up from a directory until a manifest is there. The way up is that of the
spelled path.
-/

namespace DocSnippets.Package

/-- A path and the paths above it, as they are spelled; there are no more than it has components. -/
def pathsUp : Nat → Path → List Path
  | 0, p => [p]
  | fuel + 1, p =>
    p :: match p.parent? with
      | none => []
      | some parent => pathsUp fuel parent

/-- The nearest of a path and the paths above it that holds a manifest. -/
def findRoot? (d : Disk) (start : Path) : Option Path :=
  (pathsUp (start.components.length + 1) start).find? fun p => d.isFile (manifestOf p)

def read (d : Disk) (root : Path) : Except PackageError Package :=
  match d.readText (manifestOf root) with
  | .error fault => .error (.unreadable (manifestOf root) fault)
  | .ok text => ofManifest text root

def discover (d : Disk) (start : Path) : Except PackageError Package :=
  match findRoot? d start with
  | none => .error (.notFound start)
  | some root => read d root

end DocSnippets.Package
