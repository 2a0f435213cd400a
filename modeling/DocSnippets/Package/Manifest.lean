import DocSnippets.Disk.Fault
import DocSnippets.Json.Printer
import DocSnippets.Json.Record
import DocSnippets.Package.Resolution
import DocSnippets.Path

/-!
# Packages

A package is what its manifest `package.json` declares, together with the directory that holds the
manifest.
-/

namespace DocSnippets

structure Package where
  name : String
  main : Option String
  root : Path
  exports : Option ExportTarget

/-- Why there is no package: no manifest was found, it could not be read, it is not an acceptable
document, or its exports hold a number or a boolean. -/
inductive PackageError where
  | notFound (start : Path)
  | unreadable (file : Path) (fault : Disk.Fault)
  | malformed (file : Path)
  | invalidExports (value : Json.Value)

namespace PackageError

/-- What is said about an error. The details of a malformed document are left out. -/
def message : PackageError → String
  | notFound start =>
    "Failed to find package.json - are you running this inside a NodeJS project? (searched from "
      ++ start.text ++ ")"
  | unreadable file fault => "Failed to read " ++ file.text ++ ": " ++ fault.message
  | malformed file => "Failed to parse " ++ file.text
  | invalidExports value => "Invalid exports entry: " ++ String.ofList value.compact

end PackageError

namespace Package

def manifestName : String := "package.json"

def manifestOf (root : Path) : Path := root.join ⟨manifestName⟩

/-- The fields of a manifest that count. -/
def manifestFields : List String := ["name", "main", "exports"]

/-- Name, main file and exports of a manifest. -/
def fields? (text : String) : Option (String × Option String × Option Json.Value) := do
  let document ← Json.Document.ofText? text
  let fields ← Json.Record.fields? manifestFields 1 document
  let name ← Json.Record.text? fields "name"
  let main ← Json.Record.optionalText? fields "main"
  let exports ← Json.Record.optional? fields "exports"
  some (name, main, exports)

def ofManifest (text : String) (root : Path) : Except PackageError Package :=
  match fields? text with
  | none => .error (.malformed (manifestOf root))
  | some (name, main, none) => .ok { name, main, root, exports := none }
  | some (name, main, some value) =>
    match ExportTarget.ofValue value with
    | .error value => .error (.invalidExports value)
    | .ok target => .ok { name, main, root, exports := some target }

def entryPoints (p : Package) : EntryPoints :=
  { package := p.name, main := p.main, exports := p.exports }

end Package

end DocSnippets
