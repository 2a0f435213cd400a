import DocSnippets.Compiler.Options
import DocSnippets.Text.Blank
import DocSnippets.Toml.Table

/-!
# Settings

A package may hold settings in the file `snipcheck.toml`. A missing file means that nothing is set;
a key that has no meaning is an error.
-/

namespace DocSnippets

structure Settings where
  files : List String
  project : Option Path
  tsc : Option Path
  jobs : Option Nat
  wrap : Option Bool
  jsx : Option String
  strict : Option Bool
  compilerOptions : List (String × Json.Value)

/-- Why settings are refused: the file could not be read, is no acceptable document, or holds a
value that makes no sense. -/
inductive SettingsError where
  | unreadable (file : Path) (fault : Disk.Fault)
  | malformed
  | noJobs
  | emptyFile
deriving DecidableEq

/-- What is said about an error. The details of a malformed document are left out. -/
def SettingsError.message : SettingsError → String
  | .unreadable file fault => "Failed to read " ++ file.text ++ ": " ++ fault.message
  | .malformed => "Failed to parse settings"
  | .noJobs => "Invalid settings: jobs must be at least 1"
  | .emptyFile => "Invalid settings: files cannot contain empty entries"

namespace Settings

def fileName : String := "snipcheck.toml"

/-- The documentation that is checked when nothing else is asked for. -/
def defaultFiles : List String := ["README.md"]

def default : Settings := ⟨[], none, none, none, none, none, none, []⟩

/-- The keys with a meaning. -/
def keys : List String :=
  ["files", "project", "tsc", "jobs", "wrap", "jsx", "strict", "compiler-options"]

/-- A value that may be missing, read in one way. -/
def optional? {α : Type} (read : Toml.Value → Option α) (value : Option Toml.Value) :
    Option (Option α) :=
  match value with
  | none => some none
  | some v => (read v).map some

def text? : Toml.Value → Option String
  | .scalar (.string text) => some (String.ofList text)
  | _ => none

def texts? : Toml.Value → Option (List String)
  | .array items => items.mapM text?
  | _ => none

def bool? : Toml.Value → Option Bool
  | .scalar (.bool b) => some b
  | _ => none

def natural? : Toml.Value → Option Nat
  | .scalar (.integer n) => if 0 ≤ n then some n.toNat else none
  | _ => none

/-- The members of a table of options; a date or time counts as the table that stands for it. -/
def options? : Toml.Value → Option (List (String × Json.Value))
  | .table entries => Toml.entriesJson? entries
  | .scalar (.datetime text) => some [(Toml.datetimeKey, .string (String.ofList text))]
  | _ => none

def ofEntries? (entries : List (String × Toml.Value)) : Option Settings := do
  if entries.any fun e => !keys.contains e.1 then none
  let files ← optional? texts? (entries.lookup "files")
  let project ← optional? text? (entries.lookup "project")
  let tsc ← optional? text? (entries.lookup "tsc")
  let jobs ← optional? natural? (entries.lookup "jobs")
  let wrap ← optional? bool? (entries.lookup "wrap")
  let jsx ← optional? text? (entries.lookup "jsx")
  let strict ← optional? bool? (entries.lookup "strict")
  let compilerOptions ← optional? options? (entries.lookup "compiler-options")
  some {
    files := files.getD []
    project := project.map Path.mk
    tsc := tsc.map Path.mk
    jobs, wrap, jsx, strict
    compilerOptions := compilerOptions.getD [] }

/-- Refuses settings that make no sense. -/
def validate (s : Settings) : Except SettingsError Settings :=
  if s.jobs = some 0 then .error .noJobs
  else if s.files.any fun f => Text.trim f.toList = [] then .error .emptyFile
  else .ok s

def ofText (text : String) : Except SettingsError Settings :=
  match (Toml.document? text).bind ofEntries? with
  | none => .error .malformed
  | some s => s.validate

def load (d : Disk) (root : Path) : Except SettingsError Settings :=
  let file := root.join ⟨fileName⟩
  if d.isFile file then
    match d.readText file with
    | .error fault => .error (.unreadable file fault)
    | .ok text => ofText text
  else .ok default

def compiler (s : Settings) : CompilerOptions :=
  { project := s.project, tsc := s.tsc, jsx := s.jsx, strict := s.strict,
    passThrough := s.compilerOptions }

def filesOrDefault (s : Settings) : List String := if s.files = [] then defaultFiles else s.files

end Settings

end DocSnippets
