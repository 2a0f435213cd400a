import DocSnippets.Json.Value

/-!
# Export targets

What a package serves under one of its entry points: a path, nothing, or a map from conditions or
from subpaths to further targets. The order of a map is that of its declaration.
-/

namespace DocSnippets

inductive ExportTarget where
  | path (text : String)
  | null
  | map (entries : List (String × ExportTarget))

namespace ExportTarget

def isNull : ExportTarget → Bool
  | null => true
  | _ => false

def get? (key : String) : ExportTarget → Option ExportTarget
  | map entries => entries.lookup key
  | _ => none

/-- A map has subpaths for keys when one of them starts with a dot, and conditions otherwise. -/
def hasSubpaths (entries : List (String × ExportTarget)) : Bool :=
  entries.any fun e => e.1.toList.head? = some '.'

def isSubpathMap : ExportTarget → Bool
  | map entries => hasSubpaths entries
  | _ => false

def isAlternative : Json.Value → Bool
  | .string _ => true
  | .object _ => true
  | _ => false

mutual

/-- The target that a value declares; a number or a boolean declares none and is the error. Of an
array the first text or object counts. -/
def ofValue : Json.Value → Except Json.Value ExportTarget
  | .string text => .ok (.path text)
  | .null => .ok .null
  | .object members => (ofMembers members).map .map
  | .array items => ofAlternatives items
  | .bool b => .error (.bool b)
  | .number n => .error (.number n)

def ofMembers : List (String × Json.Value) → Except Json.Value (List (String × ExportTarget))
  | [] => .ok []
  | (key, value) :: members => do
    let target ← ofValue value
    let targets ← ofMembers members
    .ok ((key, target) :: targets)

def ofAlternatives : List Json.Value → Except Json.Value ExportTarget
  | [] => .ok .null
  | item :: items => if isAlternative item then ofValue item else ofAlternatives items

end

end ExportTarget

end DocSnippets
