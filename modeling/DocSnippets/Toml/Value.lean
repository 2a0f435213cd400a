import DocSnippets.Binary64.Basic
import DocSnippets.Json.Value
import DocSnippets.Toml.Datetime

/-!
# TOML values

The values of a TOML document, and the JSON values they become: tables are sorted by key, a date or
time is an object with one private key, and a number that is not finite is null.
-/

namespace DocSnippets.Toml

/-- A value without parts. `float none` is an infinity or no number, `datetime` holds the normal
form of a date, a time or both. -/
inductive Scalar where
  | string (text : List Char)
  | integer (n : Int)
  | float (x : Option Binary64)
  | bool (b : Bool)
  | datetime (text : List Char)
deriving DecidableEq

inductive Value where
  | scalar (s : Scalar)
  | array (items : List Value)
  | table (entries : List (String × Value))

/-- The key of the object that a date or time becomes. -/
def datetimeKey : String := "$__toml_private_datetime"

def Scalar.json : Scalar → Json.Value
  | .string text => .string (String.ofList text)
  | .integer n => .number (if 0 ≤ n then .natural n.toNat else .negative (-n).toNat)
  | .float none => .null
  | .float (some x) => .number (.binary x)
  | .bool b => .bool b
  | .datetime text => .object [(datetimeKey, .string (String.ofList text))]

def insertSorted {α : Type} (key : String) (value : α) : List (String × α) → List (String × α)
  | [] => [(key, value)]
  | (k, v) :: rest =>
    if key < k then (key, value) :: (k, v) :: rest
    else (k, v) :: insertSorted key value rest

def addSorted? (key : String) (value : Option Json.Value)
    (members : Option (List (String × Json.Value))) : Option (List (String × Json.Value)) := do
  some (insertSorted key (← value) (← members))

mutual

/-- The JSON value of a TOML value. A table whose first key is the private one stands for the date
or time that its text gives; other text there is an error. -/
def Value.json? : Value → Option Json.Value
  | .scalar s => some s.json
  | .array items => (itemsJson? items).map .array
  | .table ((key, value) :: entries) =>
    if key = datetimeKey then
      match value with
      | .scalar (.string text) =>
        (Datetime.ofText? text).map fun d => (Scalar.datetime d).json
      | _ => none
    else (addSorted? key value.json? (entriesJson? entries)).map .object
  | .table [] => some (.object [])

def itemsJson? : List Value → Option (List Json.Value)
  | [] => some []
  | item :: items => do some ((← item.json?) :: (← itemsJson? items))

def entriesJson? : List (String × Value) → Option (List (String × Json.Value))
  | [] => some []
  | (key, value) :: entries => addSorted? key value.json? (entriesJson? entries)

end

end DocSnippets.Toml
