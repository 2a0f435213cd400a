import DocSnippets.CommandLine.Check

/-!
# The command

Reads the files of the package, carries out the command line on them and prints the outcome. No file
counts as executable here: a compiler program is reported as one that cannot be started.
-/

namespace DocSnippets.Main

/-- A directory entry with everything below it, down to some depth. -/
def readBelow : Nat → Location → IO.FS.DirEntry → IO (List (Location × Disk.Entry))
  | 0, _, _ => pure []
  | depth + 1, above, entry => do
    let here := above ++ [entry.fileName]
    if ← entry.path.isDir then
      let inner ← (← entry.path.readDir).toList.mapM (readBelow depth here)
      pure ((here, .directory) :: inner.flatten)
    else
      pure [(here, .file (← IO.FS.readBinFile entry.path) false)]

/-- The file of a directory with a name, if it can be read. -/
def readNamed (directory : Location) (name : String) : IO (List (Location × Disk.Entry)) := do
  try
    let content ← IO.FS.readBinFile ("/" ++ "/".intercalate (directory ++ [name]))
    pure [(directory ++ [name], .file content false)]
  catch _ => pure []

def locationOf (p : Path) : Location :=
  p.components.filterMap fun c => match c with | .name text => some text | _ => none

/-- The tree seen from the current directory: what is below it, and the manifests and settings on
the way up. -/
def readDisk : IO Disk := do
  let directory ← IO.currentDir
  let current := locationOf ⟨directory.toString⟩
  let below ← (← directory.readDir).toList.mapM (readBelow 64 current)
  let mut entries := (current, .directory) :: below.flatten
  for n in List.range current.length do
    let above := current.take n
    entries := entries ++ (above, .directory) :: (← readNamed above Package.manifestName) ++
      (← readNamed above Settings.fileName) ++ (← readNamed above "README.md")
  pure { entries, current }

def machine : Machine :=
  { searchPath := [], behaviour := fun _ _ d => (⟨127, .empty, .empty⟩, d) }

end DocSnippets.Main

open DocSnippets in
def main (arguments : List String) : IO UInt32 := do
  let terminal : CommandLine.Terminal :=
    { noColor := (← IO.getEnv "NO_COLOR").isSome, name := ← IO.getEnv "TERM" }
  let ended := CommandLine.execute
    { machine := Main.machine, terminal, processors := 1, suffix := "000000" } arguments
    (← Main.readDisk)
  IO.print (String.ofList ended.printed)
  if let some e := ended.error then IO.eprintln ("Error: " ++ e.message)
  pure ended.status.toUInt32
