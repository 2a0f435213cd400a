import DocSnippets.Json.Token

/-!
# JSON documents

A document is the tree of a JSON text, where strings and numbers may have no value. A part of a
document that is kept must have values throughout and nest at most to a given depth; a part that is
passed over need not.
-/

namespace DocSnippets.Json

inductive Document where
  | null
  | bool (b : Bool)
  | number (n : Option Number)
  | string (s : Option String)
  | array (items : List Document)
  | object (members : List (Option String × Document))

namespace Document

/-- What is left of a list of tokens once something was read from its start. -/
abbrev Rest (tokens : List Token) := { rest : List Token // rest.length < tokens.length }

def Rest.tail (token : Token) (tokens : List Token) : Rest (token :: tokens) :=
  ⟨tokens, Nat.lt_succ_self _⟩

def Rest.behind {tokens : List Token} (token : Token) (r : Rest tokens) : Rest (token :: tokens) :=
  ⟨r.1, Nat.lt_succ_of_lt r.2⟩

mutual

def value? (tokens : List Token) : Option (Document × Rest tokens) :=
  match tokens with
  | .null :: rest => some (.null, .tail _ rest)
  | .bool b :: rest => some (.bool b, .tail _ rest)
  | .number n :: rest => some (.number n, .tail _ rest)
  | .string s :: rest => some (.string s, .tail _ rest)
  | .openArray :: .closeArray :: rest => some (.array [], .behind _ (.tail _ rest))
  | .openArray :: rest => (items? rest).map fun (items, r) => (.array items, .behind _ r)
  | .openObject :: .closeObject :: rest => some (.object [], .behind _ (.tail _ rest))
  | .openObject :: rest => (members? rest).map fun (members, r) => (.object members, .behind _ r)
  | _ => none
termination_by (tokens.length, 0)

def items? (tokens : List Token) : Option (List Document × Rest tokens) :=
  match value? tokens with
  | some (item, ⟨.closeArray :: rest, h⟩) => some ([item], ⟨rest, Nat.lt_of_succ_lt h⟩)
  | some (item, ⟨.comma :: rest, h⟩) =>
    have shorter : rest.length < tokens.length := Nat.lt_of_succ_lt h
    (items? rest).map fun (items, r) => (item :: items, ⟨r.1, Nat.lt_trans r.2 shorter⟩)
  | _ => none
termination_by (tokens.length, 1)

def members? (tokens : List Token) : Option (List (Option String × Document) × Rest tokens) :=
  match tokens with
  | .string key :: .colon :: rest =>
    match value? rest with
    | some (item, ⟨.closeObject :: after, h⟩) =>
      some ([(key, item)], .behind _ (.behind _ ⟨after, Nat.lt_of_succ_lt h⟩))
    | some (item, ⟨.comma :: after, h⟩) =>
      have shorter : after.length < rest.length := Nat.lt_of_succ_lt h
      (members? after).map fun (members, r) =>
        ((key, item) :: members, .behind _ (.behind _ ⟨r.1, Nat.lt_trans r.2 shorter⟩))
    | _ => none
  | _ => none
termination_by (tokens.length, 0)

end

/-- The document of a text, which holds one value and spaces. -/
def ofText? (text : String) : Option Document := do
  let tokens ← Token.tokens? text
  let (document, rest) ← value? tokens
  if rest.1.isEmpty then some document else none

mutual

/-- The value of a document that may nest `depth` levels deep. -/
def keep? (depth : Nat) : Document → Option Value
  | .null => some .null
  | .bool b => some (.bool b)
  | .number n => n.map .number
  | .string s => s.map .string
  | .array items => if depth = 0 then none else (keepItems? (depth - 1) items).map .array
  | .object members =>
    if depth = 0 then none
    else (keepMembers? (depth - 1) members).map fun kept => .object (setMembers [] kept)

def keepItems? (depth : Nat) : List Document → Option (List Value)
  | [] => some []
  | item :: items => do some ((← keep? depth item) :: (← keepItems? depth items))

def keepMembers? (depth : Nat) : List (Option String × Document) → Option (List (String × Value))
  | [] => some []
  | (key, item) :: members => do
    some ((← key, ← keep? depth item) :: (← keepMembers? depth members))

end

def depthLimit : Nat := 127

end Document

def Value.ofText? (text : String) : Option Value :=
  (Document.ofText? text).bind (Document.keep? Document.depthLimit)

end DocSnippets.Json
