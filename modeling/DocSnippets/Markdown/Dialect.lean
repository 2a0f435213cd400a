import DocSnippets.Text.Blank

/-!
# Dialects

The dialect of a code block is named by the first word of its opening line, in any letter case.
-/

namespace DocSnippets

inductive Dialect where
  | typescript
  | ts
  | tsx
deriving DecidableEq, Repr

namespace Dialect

/-- The dialect named by a tag, read without regard to the case of ASCII letters. -/
def ofTag? (tag : List Char) : Option Dialect :=
  let tag := tag.map Char.toLower
  if tag = "typescript".toList then some .typescript
  else if tag = "ts".toList then some .ts
  else if tag = "tsx".toList then some .tsx
  else none

/-- The dialect of an info text: only its first word counts. -/
def ofInfo? (info : List Char) : Option Dialect := ofTag? (Text.firstWord info)

/-- The dialect of an opening line, whose tag follows the fence directly. -/
def ofOpener? (info : List Char) : Option Dialect :=
  if info.head?.any Text.isBlank then none else ofInfo? info

def isJsx : Dialect → Bool
  | .tsx => true
  | _ => false

/-- The extension of the file that a block of this dialect is compiled from. -/
def extension (d : Dialect) : String := if d.isJsx then "tsx" else "ts"

def name : Dialect → String
  | .typescript => "TypeScript"
  | .ts => "Ts"
  | .tsx => "Tsx"

end Dialect

end DocSnippets
