import DocSnippets.Disk.Basic
import DocSnippets.Json.Printer
import DocSnippets.Json.Record

/-!
# Options for the compiler

A few options have a meaning here; all others are passed to the compiler as they are. Every snippet
is compiled with some options that nobody can change.
-/

namespace DocSnippets

/-- The options of a compilation. Paths are relative to the package root. -/
structure CompilerOptions where
  project : Option Path
  tsc : Option Path
  jsx : Option String
  strict : Option Bool
  passThrough : List (String × Json.Value)

namespace CompilerOptions

def default : CompilerOptions := ⟨none, none, none, none, []⟩

def defaultProject : Path := ⟨"tsconfig.json"⟩

def projectPath (o : CompilerOptions) (root : Path) : Path :=
  root.join (o.project.getD defaultProject)

def localCompiler (root : Path) : Path :=
  ((root.join ⟨"node_modules"⟩).join ⟨".bin"⟩).join ⟨"tsc"⟩

/-- The command that starts the compiler: the given one, where a path of one component is looked up
among the programs, then the one that the package has installed, then the program `tsc`. -/
def command (o : CompilerOptions) (d : Disk) (root : Path) : Path :=
  match o.tsc with
  | some tsc => if tsc.components.length = 1 then tsc else root.join tsc
  | none => if d.isFile (localCompiler root) then localCompiler root else ⟨"tsc"⟩

def forced : List (String × Json.Value) :=
  [("noEmit", .bool true), ("noUnusedLocals", .bool false), ("incremental", .bool false),
    ("composite", .bool false), ("declaration", .bool false), ("declarationMap", .bool false),
    ("sourceMap", .bool false)]

/-- The options with a meaning here, where they are given. -/
def recognized (o : CompilerOptions) : List (String × Json.Value) :=
  (o.jsx.map fun jsx => ("jsx", Json.Value.string jsx)).toList ++
    (o.strict.map fun strict => ("strict", Json.Value.bool strict)).toList

/-- The options that reach the compiler: those passed through, then the recognized ones, then the
forced ones, each setting a key in its place. -/
def effective (o : CompilerOptions) : List (String × Json.Value) :=
  Json.setMembers (Json.setMembers o.passThrough o.recognized) forced

def fields : List String := ["project", "tsc", "jsx", "strict", "compiler_options"]

def ofText? (text : String) : Option CompilerOptions := do
  let document ← Json.Document.ofText? text
  let known ← Json.Record.fields? fields 4 document
  let project ← Json.Record.optionalText? known "project"
  let tsc ← Json.Record.optionalText? known "tsc"
  let jsx ← Json.Record.optionalText? known "jsx"
  let strict ← Json.Record.optionalBool? known "strict"
  let passThrough ←
    match known.lookup "compiler_options" with
    | none => some []
    | some document =>
      match document.keep? Json.Record.fieldDepth with
      | some (.object members) => some members
      | _ => none
  some { project := project.map Path.mk, tsc := tsc.map Path.mk, jsx, strict, passThrough }

def optionalValue (s : Option String) : Json.Value :=
  match s with
  | some text => .string text
  | none => .null

def value (o : CompilerOptions) : Json.Value :=
  .object [("project", optionalValue (o.project.map (·.text))),
    ("tsc", optionalValue (o.tsc.map (·.text))), ("jsx", optionalValue o.jsx),
    ("strict", match o.strict with | some b => .bool b | none => .null),
    ("compiler_options", .object o.passThrough)]

end CompilerOptions

end DocSnippets
