/-!
# Diagnostics

What the compiler says about one snippet: a text, a place in the submitted text, a code.
-/

namespace DocSnippets

/-- One message of the compiler. `offset` counts bytes of the submitted text; a message without one
is about no place in the snippet. -/
structure Diagnostic where
  offset : Option Nat
  code : Option Nat
  text : String
deriving DecidableEq, Repr

end DocSnippets
