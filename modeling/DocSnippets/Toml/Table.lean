import DocSnippets.Toml.Expression

/-!
# TOML tables

The pairs and sections of a document make one table. A table that a dotted key makes is closed to
headers, a table that a header makes is closed to dotted keys, nothing is defined twice, and a table
that was only passed through on the way to another one may still be given a header.
-/

namespace DocSnippets.Toml

/-- A table under construction. `implicit` means that it was only passed through, `dotted` that a
dotted key made it. -/
inductive Node where
  | value (v : Value)
  | table (implicit dotted : Bool) (entries : List (String × Node))
  | tables (items : List (List (String × Node)))

namespace Node

abbrev Entries := List (String × Node)

mutual

def finish? : Node → Option Value
  | .value v => some v
  | .table _ _ entries => (finishEntries? entries).map .table
  | .tables items => (finishItems? items).map .array

def finishEntries? : List (String × Node) → Option (List (String × Value))
  | [] => some []
  | (key, node) :: entries => do
    some ((key, ← finish? node) :: (← finishEntries? entries))

def finishItems? : List (List (String × Node)) → Option (List Value)
  | [] => some []
  | entries :: items => do
    some (.table (← finishEntries? entries) :: (← finishItems? items))

end

/-- Replaces the entry of a key that is there, or appends it. -/
def put (key : String) (node : Node) (entries : Entries) : Entries :=
  Json.setMember key node entries

/-- Changes the table at the end of a path of keys; the change is told whether a dotted key made
that table. Missing tables are made on the way. A value cannot be passed through, and a dotted key
cannot pass through a table that has a header; of an array of tables the last one counts. -/
def changeAt (dotted : Bool) (change : Bool → Entries → Option Entries)
    (ownDotted : Bool) (entries : Entries) : Key → Option Entries
  | [] => change ownDotted entries
  | key :: path =>
    match entries.lookup key with
    | none => do
      let child ← changeAt dotted change dotted [] path
      some (entries ++ [(key, .table true dotted child)])
    | some (.value _) => none
    | some (.tables items) =>
      match items.reverse with
      | [] => none
      | last :: before => do
        let child ← changeAt dotted change false last path
        some (put key (.tables (before.reverse ++ [child])) entries)
    | some (.table implicit childDotted childEntries) =>
      if dotted && !implicit then none
      else do
        let child ← changeAt dotted change childDotted childEntries path
        some (put key (.table implicit childDotted child) entries)

/-- Adds a pair to a table; a key of several names goes through dotted tables only. -/
def addPair (entries : Entries) (key : Key) (v : Value) : Option Entries :=
  match key.reverse with
  | [] => none
  | last :: path =>
    let path := path.reverse
    changeAt true (fun ownDotted table =>
      if ownDotted = path.isEmpty then none
      else if (table.lookup last).isSome then none
      else some (table ++ [(last, .value v)])) false entries path

mutual

def ofExpression? : Expression → Option Value
  | .scalar s => some (.scalar s)
  | .array items => (ofItems? items).map .array
  | .table pairs => do
    let entries ← ofPairs? [] pairs
    some (.table (← finishEntries? entries))

def ofItems? : List Expression → Option (List Value)
  | [] => some []
  | item :: items => do
    let v ← ofExpression? item
    let vs ← ofItems? items
    some (v :: vs)

def ofPairs? (entries : Entries) : List (Key × Expression) → Option Entries
  | [] => some entries
  | (key, e) :: pairs => do
    let v ← ofExpression? e
    let entries ← addPair entries key v
    ofPairs? entries pairs

end

/-- Adds a section. A table header may name a table that was only passed through, which then comes
last; any other name must be new. -/
def addSection (root : Entries) (s : Section) : Option Entries :=
  match s.header with
  | .document => ofPairs? root s.pairs
  | .table key =>
    match key.reverse with
    | [] => none
    | last :: path =>
      changeAt false (fun _ parent =>
        match parent.lookup last with
        | none => do
          let own ← ofPairs? [] s.pairs
          some (parent ++ [(last, .table false false own)])
        | some (.table true false entries) => do
          let own ← ofPairs? entries s.pairs
          some (parent.filter (fun e => e.1 != last) ++ [(last, .table false false own)])
        | some _ => none) false root path.reverse
  | .item key =>
    match key.reverse with
    | [] => none
    | last :: path =>
      changeAt false (fun _ parent => do
        let own ← ofPairs? [] s.pairs
        match parent.lookup last with
        | none => some (parent ++ [(last, .tables [own])])
        | some (.tables items) => some (put last (.tables (items ++ [own])) parent)
        | some _ => none) false root path.reverse

end Node

def document? (text : String) : Option (List (String × Value)) := do
  let sections ← sections? text
  let root ← sections.foldlM Node.addSection []
  Node.finishEntries? root

end DocSnippets.Toml
