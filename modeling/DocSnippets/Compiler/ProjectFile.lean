import DocSnippets.Compiler.Basic
import DocSnippets.WorkFile

/-!
# Project files

Each snippet is compiled with a project file of its own beside it. The file extends the package's
project, names the snippet as its only file, and sets a root directory that holds both the package
and the snippet.
-/

namespace DocSnippets

def sharedComponents : List Path.Component → List Path.Component → List Path.Component
  | a :: as, b :: bs => if a = b then a :: sharedComponents as bs else []
  | _, _ => []

/-- The deepest directory that holds both paths, as far as their spelling tells. -/
def commonAncestor (a b : Path) : Path :=
  let shared := Path.ofComponents (sharedComponents a.components b.components)
  if shared.text ≠ "" then shared
  else if a.isAbsolute then ⟨"/"⟩
  else ⟨"."⟩

namespace ProjectFile

/-- Options with markup kept as it is, for a markup dialect that nothing else says anything about.
-/
def withJsx (r : Request) (hasBase : Bool) (options : List (String × Json.Value)) :
    List (String × Json.Value) :=
  if !hasBase && r.dialect.isJsx && (options.lookup "jsx").isNone then
    Json.setMember "jsx" (.string "preserve") options
  else options

def options (root : Path) (r : Request) (hasBase : Bool) : List (String × Json.Value) :=
  let directory := r.file.parent?.getD ⟨""⟩
  Json.setMember "rootDir" (.string (commonAncestor root directory).text)
    (withJsx r hasBase r.options.effective)

/-- The project file of a snippet in a package; `hasBase` tells whether there is a project to
extend. -/
def value (root : Path) (r : Request) (hasBase : Bool) : Json.Value :=
  let base : List (String × Json.Value) :=
    if hasBase then [("extends", .string (r.options.projectPath root).text)] else []
  .object (base ++
    [("compilerOptions", .object (options root r hasBase)),
      ("files", .array [.string r.file.text]), ("include", .array [])])

def write (root : Path) (r : Request) (d : Disk) : Except Disk.Fault Disk :=
  let hasBase := d.isFile (r.options.projectPath root)
  d.writeText (WorkFile.projectFor r.file) (String.ofList (value root r hasBase).pretty)

end ProjectFile

end DocSnippets
