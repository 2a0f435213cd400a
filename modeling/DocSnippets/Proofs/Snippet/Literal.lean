import DocSnippets.Json.Token
import DocSnippets.Proofs.Text.Units

/-!
# String literals

What stands between the quotes of a string literal of a module: characters that stand for
themselves, and escapes. A literal ends at the first quote of its kind that is not escaped, and
before the end of its line unless a backslash stands there. Its value is a list of UTF-16 units.
-/

namespace DocSnippets.Literal

open Text

/-- A character that ends a literal unless it is escaped: its quote, or the end of a line. -/
def isEnd (quote c : Char) : Bool := c = quote || c = '\n' || c = '\r'

/-- A character that goes with the backslash before it. -/
def isLineEnd (c : Char) : Bool := c = '\n' || c = '\r' || c = '\u2028' || c = '\u2029'

/-- The units of a character after a backslash, if it alone is escaped. -/
def escaped : Char → List Nat
  | 'b' => [0x08]
  | 't' => [0x09]
  | 'n' => [0x0a]
  | 'v' => [0x0b]
  | 'f' => [0x0c]
  | 'r' => [0x0d]
  | c => if isLineEnd c then [] else unitsOf c.toNat

mutual

/-- The value of a text between two quotes; none if the text does not fill a literal. -/
def value? (quote : Char) : List Char → Option (List Nat)
  | [] => some []
  | c :: text =>
    if c = '\\' then escape? quote text
    else if isEnd quote c then none
    else (value? quote text).map (unitsOf c.toNat ++ ·)

/-- The value of a text that stands behind a backslash. The digits but for a lone zero are no
escapes in a module. -/
def escape? (quote : Char) : List Char → Option (List Nat)
  | [] => none
  | '\r' :: '\n' :: text => value? quote text
  | '0' :: text =>
    if text.head?.any Char.isDigit then none else (value? quote text).map (0 :: ·)
  | 'x' :: a :: b :: text =>
    (Json.Token.hexUnit? '0' '0' a b).bind fun n => (value? quote text).map (n :: ·)
  | 'u' :: '{' :: a :: text => (Json.Token.hexValue? a).bind fun n => codePoint? quote n text
  | 'u' :: a :: b :: c :: d :: text =>
    (Json.Token.hexUnit? a b c d).bind fun n => (value? quote text).map (n :: ·)
  | c :: text =>
    if c = 'x' ∨ c = 'u' ∨ c.isDigit = true then none
    else (value? quote text).map (escaped c ++ ·)

/-- The value of a text in which a code point goes on up to a brace; its digits so far make a
number. -/
def codePoint? (quote : Char) (n : Nat) : List Char → Option (List Nat)
  | [] => none
  | c :: text =>
    if 0x10ffff < n then none
    else if c = '}' then (value? quote text).map (unitsOf n ++ ·)
    else (Json.Token.hexValue? c).bind fun d => codePoint? quote (16 * n + d) text

end

theorem value?_cons_plain {quote c : Char} (hc : c ≠ '\\') (text : List Char) :
    value? quote (c :: text) =
      if isEnd quote c then none else (value? quote text).map (unitsOf c.toNat ++ ·) := by
  rw [value?, if_neg hc]

theorem value?_cons_backslashes (quote : Char) (text : List Char) :
    value? quote ('\\' :: '\\' :: text) = (value? quote text).map (unitsOf 0x5c ++ ·) := by
  rw [value?, if_pos rfl]
  rfl

/-- A text with its backslashes doubled fills a literal whose value it is, unless it holds the quote
or the end of a line. -/
theorem value?_doubled {quote : Char} (hquote : quote ≠ '\\') (text : List Char) :
    value? quote (text.flatMap fun c => if c = '\\' then ['\\', '\\'] else [c]) =
      if text.any (isEnd quote) then none else some (units text) := by
  induction text with
  | nil => rfl
  | cons c text ih =>
    rw [List.flatMap_cons, List.any_cons]
    by_cases hc : c = '\\'
    · obtain rfl := hc
      have hinside : isEnd quote '\\' = false := by simp [isEnd, hquote.symm]
      rw [if_pos rfl, List.cons_append, List.singleton_append, value?_cons_backslashes, ih,
        hinside, Bool.false_or]
      split <;> rfl
    · rw [if_neg hc, List.singleton_append, value?_cons_plain hc, ih]
      cases isEnd quote c with
      | true => rfl
      | false =>
        rw [Bool.false_or, if_neg Bool.false_ne_true]
        split <;> rfl

end DocSnippets.Literal
