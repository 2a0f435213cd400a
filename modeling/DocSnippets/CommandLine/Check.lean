import DocSnippets.CommandLine.InputFiles
import DocSnippets.CommandLine.Report
import DocSnippets.Compiler.Tsc
import DocSnippets.Package.Discovery
import DocSnippets.Run
import DocSnippets.Settings

/-!
# The check command

The command finds the package, reads its settings, collects the documentation, runs, and reports. It
succeeds when every snippet compiles.
-/

namespace DocSnippets.CommandLine

inductive CheckError where
  | package (e : PackageError)
  | settings (e : SettingsError)
  | pattern
  | run (e : RunError)

def CheckError.message : CheckError → String
  | .package e => e.message
  | .settings e => e.message
  | .pattern => "Pattern syntax error"
  | .run e => e.message

/-- What surrounds the command: the machine, the terminal, the number of processors, and a name that
is not in use. -/
structure Surroundings where
  machine : Machine
  terminal : Terminal
  processors : Nat
  suffix : String

/-- How the command ended: its status, what it printed, why it failed, and the tree it left. -/
structure Ended where
  status : Nat
  printed : List Char
  error : Option CheckError
  disk : Disk

namespace Check

/-- The options of the settings, where the command line has no others. -/
def options (a : Arguments) (s : Settings) : CompilerOptions :=
  { s.compiler with
    project := a.project.or s.compiler.project
    tsc := a.tsc.or s.compiler.tsc }

/-- The directory that configured files are seen from: the package root, or nothing where that is
the current directory. -/
def base (current root : Path) : Path := if root.same current then ⟨""⟩ else root

/-- The documentation files. Those of the command line are seen from the current directory. -/
def files? (d : Disk) (a : Arguments) (s : Settings) (root : Path) : Option (List Path) :=
  if a.inputFiles = [] then InputFiles.expand? d s.filesOrDefault (base d.currentPath root)
  else InputFiles.expand? d a.inputFiles ⟨""⟩

def run (w : Surroundings) (a : Arguments) (s : Settings) (p : Package) : Run :=
  { package := p
    compiler := Tsc.compiler w.machine p.root
    options := options a s
    jobs := (a.jobs.or s.jobs).getD w.processors
    wrap := !a.noWrap && s.wrap.getD true
    workRoot := none }

def report (colors : Bool) (reporter : Reporter) (results : List SnippetResult) : List Char :=
  match reporter with
  | .json => Report.json results
  | .pretty => Report.pretty colors results

def opening (colors : Bool) (reporter : Reporter) (files : List Path) : List Char :=
  match reporter with
  | .json => []
  | .pretty => Report.announcement colors files

def execute (w : Surroundings) (a : Arguments) (d : Disk) : Ended :=
  let colors := showsColors w.terminal (a.color.getD .auto)
  let reporter := a.reporter.getD .pretty
  match Package.discover d d.currentPath with
  | .error e => ⟨1, [], some (.package e), d⟩
  | .ok p =>
    match Settings.load d p.root with
    | .error e => ⟨1, [], some (.settings e), d⟩
    | .ok s =>
      match files? d a s p.root with
      | none => ⟨1, [], some .pattern, d⟩
      | some files =>
        let printed := opening colors reporter files
        let ended := (run w a s p).execute w.suffix d files
        match ended.results with
        | .error e => ⟨1, printed, some (.run e), ended.disk⟩
        | .ok results =>
          ⟨if results.all (·.isOk) then 0 else 1, printed ++ report colors reporter results, none,
            ended.disk⟩

end Check

def versionText : List Char := "snipcheck 0.2.0\n".toList

/-- Carries out a command line. Refused arguments end it with status 2. -/
def execute (w : Surroundings) (arguments : List String) (d : Disk) : Ended :=
  match demand arguments with
  | .version => ⟨0, versionText, none, d⟩
  | .help => ⟨0, [], none, d⟩
  | .refused => ⟨2, [], none, d⟩
  | .check a => Check.execute w a d

end DocSnippets.CommandLine
