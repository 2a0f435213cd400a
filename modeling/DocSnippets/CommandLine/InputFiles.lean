import DocSnippets.Disk.Glob

/-!
# Input files

The documentation to check is given by paths and patterns. A path stands for itself, whether or not
there is a file; a pattern stands for the files that match it, in order. A file that was named
before is not named again.
-/

namespace DocSnippets.InputFiles

def isPattern (text : String) : Bool := text.toList.any fun c => ['*', '?', '['].contains c

def pushNew (files : List Path) (p : Path) : List Path :=
  if files.any (Path.same p) then files else files ++ [p]

/-- The files that match a pattern, in order; nothing for a pattern that is not well-formed. -/
def matching? (d : Disk) (pattern : Path) : Option (List Path) :=
  (Disk.Glob.ofText? pattern.text.toList).map fun g =>
    ((g.paths d).filter d.isFile).mergeSort Path.le

def contribution? (d : Disk) (base : Path) (entry : String) : Option (List Path) :=
  let full := base.join ⟨entry⟩
  if isPattern entry then matching? d full else some [full]

/-- The files that entries stand for, seen from a directory. A malformed pattern is an error. -/
def expand? (d : Disk) (entries : List String) (base : Path) : Option (List Path) :=
  entries.foldlM (fun files entry =>
    (contribution? d base entry).map fun added => added.foldl pushNew files) []

end DocSnippets.InputFiles
