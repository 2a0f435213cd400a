import DocSnippets.Disk.Basic

/-!
# Starting programs

A program is started in a given directory. A command with a slash is a path seen from that
directory; any other command is looked for in the directories of the search path. Neither of them
nor any argument has a NUL character.
-/

namespace DocSnippets

structure Execution where
  status : Nat
  output : ByteArray
  errors : ByteArray

/-- A place where programs run: the search path, and what running the file at a location does. The
tree has the directory of the program for its current directory. -/
structure Machine where
  searchPath : List Path
  behaviour : Location → List String → Disk → Execution × Disk

namespace Disk

def executable (d : Disk) (p : Path) : Except Fault Location :=
  match d.find p with
  | .error fault => .error fault
  | .ok (l, .file _ true) => .ok l
  | .ok _ => .error .denied

/-- The first executable file in the directories of a search path. A directory without one is passed
over. When none has one, a file that must not be executed is the reason, or else whatever was wrong
with the last directory; `fault` is the reason so far. -/
def search (d : Disk) (fault : Fault) (name : String) : List Path → Except Fault Location
  | [] => .error fault
  | directory :: rest =>
    match d.executable (directory.join ⟨name⟩) with
    | .ok l => .ok l
    | .error next =>
      if next = .missing ∨ next = .notDirectory ∨ next = .denied then
        d.search (if fault = .denied then .denied else next) name rest
      else .error next

/-- The location of the file that a command starts. More characters than a name can have make no
difference to a search. -/
def commandLocation (d : Disk) (searchPath : List Path) (command : Path) :
    Except Fault Location :=
  if command.text.toList.contains '/' then d.executable command
  else if command.text = "" then .error .missing
  else
    let name := String.ofList (command.text.toList.take (nameLimit + 1))
    d.search .missing name searchPath

/-- The tree seen from another directory. -/
def enter (d : Disk) (directory : Path) : Except Fault Disk := do
  match ← d.find directory with
  | (l, .directory) => .ok { d with current := l }
  | (_, .file _ _) => .error .notDirectory

end Disk

namespace Machine

def launch (m : Machine) (d : Disk) (directory command : Path) (arguments : List String) :
    Except Disk.Fault (Execution × Disk) := do
  if (command.text :: directory.text :: arguments).any fun text => text.toList.contains '\x00' then
    .error .nulInCommand
  let inside ← d.enter directory
  let program ← inside.commandLocation m.searchPath command
  let ended := m.behaviour program arguments inside
  .ok (ended.1, { ended.2 with current := d.current })

end Machine

end DocSnippets
