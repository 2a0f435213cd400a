import DocSnippets.Binary64.Basic

/-!
# JSON values

An object is a list of members in the order of the document, with distinct keys: a repeated key
keeps its first place and takes the last value.
-/

namespace DocSnippets.Json

/-- A number: a natural number or a negative integer of 64 bits, anything else in binary floating
point. `negative n` is `-n`. -/
inductive Number where
  | natural (n : Nat)
  | negative (n : Nat)
  | binary (x : Binary64)
deriving DecidableEq, Repr

inductive Value where
  | null
  | bool (b : Bool)
  | number (n : Number)
  | string (s : String)
  | array (items : List Value)
  | object (members : List (String × Value))

/-- Members with a key set: an existing key keeps its place, a new one comes last. -/
def setMember {α : Type} (key : String) (value : α) : List (String × α) → List (String × α)
  | [] => [(key, value)]
  | (k, v) :: rest => if k = key then (k, value) :: rest else (k, v) :: setMember key value rest

/-- Sets the second members one after the other. -/
def setMembers {α : Type} (base members : List (String × α)) : List (String × α) :=
  members.foldl (fun acc m => setMember m.1 m.2 acc) base

namespace Value

def member? (key : String) : Value → Option Value
  | .object members => members.lookup key
  | _ => none

end Value

end DocSnippets.Json
