import DocSnippets.Json.Document

/-!
# Records in JSON

A record is written as an object, where unknown members are passed over and a known one may stand
only once, or as an array with the fields in their order, where fields at the end may be missing.
-/

namespace DocSnippets.Json.Record

def distinct : List String → Bool
  | [] => true
  | key :: keys => !keys.contains key && distinct keys

/-- The fields of a record with their parts of the document. The first `required` fields have to be
there when the record is an array. -/
def fields? (known : List String) (required : Nat) :
    Document → Option (List (String × Document))
  | .object members => do
    let named ← members.mapM fun m => m.1.map fun key => (key, m.2)
    let fields := named.filter fun m => known.contains m.1
    if distinct (fields.map (·.1)) then some fields else none
  | .array items =>
    if required ≤ items.length ∧ items.length ≤ known.length then some (known.zip items) else none
  | _ => none

def fieldDepth : Nat := Document.depthLimit - 1

/-- The value of a field that may be missing or null. -/
def optional? (fields : List (String × Document)) (key : String) : Option (Option Value) :=
  match fields.lookup key with
  | none => some none
  | some .null => some none
  | some document => (document.keep? fieldDepth).map some

/-- The text of a field that may be missing or null. -/
def optionalText? (fields : List (String × Document)) (key : String) : Option (Option String) := do
  match ← optional? fields key with
  | none => some none
  | some (.string s) => some (some s)
  | some _ => none

def text? (fields : List (String × Document)) (key : String) : Option String := do
  match ← optional? fields key with
  | some (.string s) => some s
  | _ => none

/-- The truth value of a field that may be missing or null. -/
def optionalBool? (fields : List (String × Document)) (key : String) : Option (Option Bool) := do
  match ← optional? fields key with
  | none => some none
  | some (.bool b) => some (some b)
  | some _ => none

end DocSnippets.Json.Record
