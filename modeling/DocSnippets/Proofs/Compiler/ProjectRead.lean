import DocSnippets.Proofs.Path.Lexical
import DocSnippets.Proofs.Run.Frame
import DocSnippets.Proofs.Text.Utf8

/-!
# The project file that is read

The compiler program runs in the package root and gets the path of a project file that was written
from another directory. Both find the same file if the path of the work directory is absolute, and
whoever makes the directory promises that, whatever the roots look like. The program takes the
snippet named in it from the directory of the project file, and finds the snippet.
-/

namespace DocSnippets

variable {d home : Disk} {w : WorkDirectory} {parent : Path} {suffix : String}

/-- What a path is displayed as that can have any bytes. -/
def Path.displayed (path : ByteArray) : Path := ⟨String.ofList (Text.ofBytes path)⟩

/-- A path that is a text is displayed as it is. -/
theorem Path.displayed_toUTF8 (p : Path) : displayed p.text.toUTF8 = p := by
  rw [displayed, Text.ofBytes_toUTF8, String.ofList_toList]

theorem ProjectFile.files_value (root : Path) (r : Request) (hasBase : Bool) :
    (value root r hasBase).member? "files" = some (.array [.string r.file.text]) := by
  cases hasBase <;> rfl

namespace Tsc

/-- What a program finds that runs in `inside` with an argument: the project file of a snippet, as
it was just written in `after`, and the snippet that the file names, as it was `before`. -/
structure ReadsProject (r : Request) (before after inside : Disk) (argument : String)
    (place : Location) (project : Json.Value) : Prop where
  written : ∃ executable, after.find (WorkFile.projectFor r.file) =
    .ok (place, .file (String.ofList project.pretty).toUTF8 executable)
  argument : inside.find ⟨argument⟩ = after.find (WorkFile.projectFor r.file)
  /-- The name is what the path is displayed as, and is followed from the directory of the project
  file. -/
  snippet : ∃ name, project.member? "files" = some (.array [.string name]) ∧
    ⟨name⟩ = Path.displayed r.file.text.toUTF8 ∧
    Disk.find { inside with current := place.dropLast } ⟨name⟩ = before.find r.file

section

variable {directory root : Path} {id : Nat} {dialect : Dialect} {r : Request}
  {before after inside : Disk} {l place : Location} {e : Disk.Entry}

/-- A snippet file and its project file are at different places. -/
theorem locate_project_ne (habsolute : directory.isAbsolute = true)
    (hfile : r.file = directory.join ⟨WorkFile.snippetName id dialect⟩)
    (hsnippet : before.locate r.file = .ok l) :
    before.locate (WorkFile.projectFor r.file) ≠ .ok l := by
  intro hproject
  rw [hfile, WorkFile.projectFor_join habsolute] at hproject
  rw [hfile] at hsnippet
  obtain ⟨top, -, hl⟩ :=
    Disk.locate_join_name habsolute (WorkFile.isName_snippetName id dialect) hsnippet
  obtain ⟨top', -, hl'⟩ :=
    Disk.locate_join_name habsolute (WorkFile.isName_projectName id) hproject
  have hnames := List.append_inj_right' (hl.symm.trans hl') rfl
  exact WorkFile.snippetName_ne_projectName id id dialect (List.singleton_inj.mp hnames)

theorem readsProject (habsolute : directory.isAbsolute = true)
    (hfile : r.file = directory.join ⟨WorkFile.snippetName id dialect⟩)
    (hsnippet : before.find r.file = .ok (l, e))
    (hwrite : ProjectFile.write root r before = .ok after)
    (henter : after.enter root = .ok inside) :
    ∃ place, ReadsProject r before after inside (WorkFile.projectFor r.file).text place
      (ProjectFile.value root r (before.isFile (r.options.projectPath root))) := by
  obtain ⟨current, rfl⟩ := Disk.exists_of_enter henter
  have hfileAbsolute : r.file.isAbsolute = true := by
    rw [hfile]
    exact Path.isAbsolute_join habsolute _
  have hprojectAbsolute : (WorkFile.projectFor r.file).isAbsolute = true := by
    rw [hfile, WorkFile.projectFor_join habsolute]
    exact Path.isAbsolute_join habsolute _
  obtain ⟨place, executable, -, hproject⟩ := Disk.find_of_writeText hprojectAbsolute hwrite
  have hne := locate_project_ne habsolute hfile (Disk.find_eq_ok_iff.mp hsnippet).1
  have hkept := Disk.find_of_writeText_ne hfileAbsolute hwrite hsnippet hne
  refine ⟨place, ?_⟩
  constructor
  case written => exact ⟨executable, hproject⟩
  case argument =>
    rw [hproject]
    exact Disk.find_elsewhere hprojectAbsolute hproject current
  case snippet =>
    refine ⟨r.file.text, ProjectFile.files_value root r _, (Path.displayed_toUTF8 r.file).symm, ?_⟩
    rw [hsnippet]
    exact Disk.find_elsewhere hfileAbsolute hkept place.dropLast

end

/-- The compiler program that is started for a snippet in a work directory reads the project file
that was written for it, and the snippet in it, whether the package root and the parent of the work
directory are relative or absolute. The work directory may be made by anything that answers with
absolute paths. -/
theorem launch_readsProject {make : WorkDirectory.Maker} (hmake : make.Absolute) {m : Machine}
    {root : Path} {id : Nat} {dialect : Dialect} {r : Request} {before after left : Disk}
    {l : Location} {e : Disk.Entry} {execution : Execution}
    (hcreate : WorkDirectory.createWith make d parent suffix = (.ok w, home))
    (hfile : r.file = w.snippetPath id dialect) (hsnippet : before.find r.file = .ok (l, e))
    (hwrite : ProjectFile.write root r before = .ok after)
    (hlaunch : m.launch after root (r.options.command after root)
      (arguments (WorkFile.projectFor r.file)) = .ok (execution, left)) :
    compiler m root r before =
        (.finished (outcome r (r.options.command after root) execution), left) ∧
      ∃ inside program argument place,
        after.enter root = .ok inside ∧
        execution = (m.behaviour program ["-p", argument, "--pretty", "false"] inside).1 ∧
        ReadsProject r before after inside argument place
          (ProjectFile.value root r (before.isFile (r.options.projectPath root))) := by
  obtain ⟨inside, program, henter, hexecution, -⟩ := Machine.exists_inside_of_launch hlaunch
  have habsolute := WorkDirectory.isAbsolute_of_createWith hmake hcreate
  obtain ⟨place, hreads⟩ := readsProject habsolute hfile hsnippet hwrite henter
  refine ⟨?_, inside, program, (WorkFile.projectFor r.file).text, place, henter, hexecution, hreads⟩
  unfold compiler
  rw [hwrite]
  dsimp only
  rw [hlaunch]

/-- A package and a compiler program, seen from the directory that holds the package. -/
def packageTree : Disk where
  entries := [(["home"], .directory), (["home", "pkg"], .directory), (["bin"], .directory),
    (["bin", "tsc"], .file .empty true)]
  current := ["home"]

def silentMachine : Machine where
  searchPath := [⟨"/bin"⟩]
  behaviour _ _ d := (⟨0, .empty, .empty⟩, d)

def relativeRequest : Request where
  source := "log()\n"
  file := ⟨"/home/work/compiled-docs-Ab12cD/block-1.ts"⟩
  dialect := .ts
  options := .default

/-- The tree with the work directory in `work`. -/
def workTree : Disk where
  entries := (["home", "work", "compiled-docs-Ab12cD"], .directory) ::
    (["home", "work"], .directory) :: packageTree.entries
  current := ["home"]

def submittedTree : Disk :=
  workTree.put ["home", "work", "compiled-docs-Ab12cD", "block-1.ts"]
    (.file relativeRequest.source.toUTF8 false)

def projectTree : Disk :=
  submittedTree.put ["home", "work", "compiled-docs-Ab12cD", "block-1.tsconfig.json"]
    (.file (String.ofList (ProjectFile.value ⟨"pkg"⟩ relativeRequest false).pretty).toUTF8 false)

def workDirectory : WorkDirectory :=
  ⟨⟨"/home/work/compiled-docs-Ab12cD"⟩, ["home", "work", "compiled-docs-Ab12cD"]⟩

/-- Both roots are relative, and the work directory is outside the package. -/
theorem launch_readsProject_relative :
    WorkDirectory.Maker.Absolute WorkDirectory.createIn ∧
    ∃ execution left inside program argument place,
      WorkDirectory.createWith WorkDirectory.createIn packageTree ⟨"work"⟩ "Ab12cD" =
        (.ok workDirectory, workTree) ∧
      relativeRequest.file = workDirectory.snippetPath 1 .ts ∧
      ProjectFile.write ⟨"pkg"⟩ relativeRequest submittedTree = .ok projectTree ∧
      silentMachine.launch projectTree ⟨"pkg"⟩ ⟨"tsc"⟩
        (arguments (WorkFile.projectFor relativeRequest.file)) = .ok (execution, left) ∧
      compiler silentMachine ⟨"pkg"⟩ relativeRequest submittedTree =
        (.finished (outcome relativeRequest ⟨"tsc"⟩ execution), left) ∧
      projectTree.enter ⟨"pkg"⟩ = .ok inside ∧
      execution =
        (silentMachine.behaviour program ["-p", argument, "--pretty", "false"] inside).1 ∧
      ReadsProject relativeRequest submittedTree projectTree inside argument place
        (ProjectFile.value ⟨"pkg"⟩ relativeRequest false) := by
  have hcreate : WorkDirectory.createWith WorkDirectory.createIn packageTree ⟨"work"⟩ "Ab12cD" =
      (.ok workDirectory, workTree) := rfl
  have hfile : relativeRequest.file = workDirectory.snippetPath 1 .ts := rfl
  have hsnippet : submittedTree.find relativeRequest.file =
      .ok (["home", "work", "compiled-docs-Ab12cD", "block-1.ts"],
        .file relativeRequest.source.toUTF8 false) := rfl
  have hwrite : ProjectFile.write ⟨"pkg"⟩ relativeRequest submittedTree = .ok projectTree := rfl
  have hlaunch : silentMachine.launch projectTree ⟨"pkg"⟩
      (relativeRequest.options.command projectTree ⟨"pkg"⟩)
      (arguments (WorkFile.projectFor relativeRequest.file)) =
        .ok (⟨0, .empty, .empty⟩, projectTree) := rfl
  obtain ⟨hcompiled, inside, program, argument, place, henter, hexecution, hreads⟩ :=
    launch_readsProject WorkDirectory.createIn_absolute hcreate hfile hsnippet hwrite hlaunch
  exact ⟨WorkDirectory.createIn_absolute, _, _, inside, program, argument, place, hcreate, hfile,
    hwrite, hlaunch, hcompiled, henter, hexecution, hreads⟩

/-- A request for a file in no work directory, by a path from the directory above the package. -/
def strayRequest : Request := { relativeRequest with file := ⟨"work/block-1.ts"⟩ }

def strayTree : Disk where
  entries := (["home", "work", "block-1.ts"], .file strayRequest.source.toUTF8 false) ::
    (["home", "work"], .directory) :: packageTree.entries
  current := ["home"]

def strayProject : Disk :=
  strayTree.put ["home", "work", "block-1.tsconfig.json"]
    (.file (String.ofList (ProjectFile.value ⟨"pkg"⟩ strayRequest false).pretty).toUTF8 false)

/-- A program in the package root does not find the project file of a snippet with a relative path.
Paths that are no texts are displayed alike, so the name in a project file cannot tell them apart. -/
theorem relative_snippet_unread :
    (∃ execution left inside,
      ProjectFile.write ⟨"pkg"⟩ strayRequest strayTree = .ok strayProject ∧
      silentMachine.launch strayProject ⟨"pkg"⟩ ⟨"tsc"⟩
        (arguments (WorkFile.projectFor strayRequest.file)) = .ok (execution, left) ∧
      strayProject.enter ⟨"pkg"⟩ = .ok inside ∧
      ∀ place, ¬ ReadsProject strayRequest strayTree strayProject inside
        (WorkFile.projectFor strayRequest.file).text place
        (ProjectFile.value ⟨"pkg"⟩ strayRequest false)) ∧
    Path.displayed ⟨#[0x2f, 0xfe]⟩ = Path.displayed ⟨#[0x2f, 0xff]⟩ := by
  refine ⟨⟨⟨0, .empty, .empty⟩, strayProject, { strayProject with current := ["home", "pkg"] },
    rfl, rfl, rfl, ?_⟩, by decide +kernel⟩
  intro place hreads
  obtain ⟨executable, hwritten⟩ := hreads.written
  have hmissing : Disk.find { strayProject with current := ["home", "pkg"] }
      ⟨(WorkFile.projectFor strayRequest.file).text⟩ = .error .missing := rfl
  rw [hreads.argument, hwritten] at hmissing
  cases hmissing

end Tsc

end DocSnippets
