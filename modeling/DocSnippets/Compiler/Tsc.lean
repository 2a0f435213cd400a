import DocSnippets.Compiler.ProjectFile
import DocSnippets.Compiler.Report
import DocSnippets.Disk.Launch
import DocSnippets.Text.Utf8

/-!
# The compiler program

The compiler program runs once for each snippet, in the package root, on the snippet's own project
file. It succeeded if it says so; otherwise its report is read, and if that has no diagnostic,
everything it wrote is the failure.
-/

namespace DocSnippets.Tsc

def arguments (project : Path) : List String := ["-p", project.text, "--pretty", "false"]

def silentFailure (command : Path) (e : Execution) (output : List Char) : String :=
  command.text ++ " exited with exit status: " ++
    String.ofList (Nat.toDigits 10 e.status) ++ "\n" ++
    String.ofList (Text.trimEnd output) ++ String.ofList (Text.trimEnd (Text.ofBytes e.errors))

def outcome (r : Request) (command : Path) (e : Execution) : Outcome :=
  if e.status = 0 then .success
  else
    let output := Text.ofBytes e.output
    match Report.diagnostics r.file r.source.toList output with
    | [] => .generic (silentFailure command e output)
    | list => .diagnostics list

def compiler (m : Machine) (root : Path) : Compiler := fun r d =>
  let project := WorkFile.projectFor r.file
  match ProjectFile.write root r d with
  | .error fault =>
    (.finished (.generic ("Failed to write " ++ project.text ++ ": " ++ fault.message)), d)
  | .ok d =>
    let command := r.options.command d root
    match m.launch d root command (arguments project) with
    | .error fault =>
      (.finished (.generic ("Failed to run " ++ command.text ++ ": " ++ fault.message)), d)
    | .ok (e, d) => (.finished (outcome r command e), d)

end DocSnippets.Tsc
