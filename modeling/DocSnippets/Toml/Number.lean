import DocSnippets.Toml.Text
import DocSnippets.Toml.Value

/-!
# Numbers in TOML

Integers have 64 bits and may be written with base sixteen, eight or two. An underscore may stand
between two digits. A number with a fraction or an exponent is rounded to the nearest floating point
number; a positive one must not be too large.
-/

namespace DocSnippets.Toml

open Reader

/-- Digits that follow a digit, with an underscore before any of them. -/
def moreDigits (p : Char → Bool) : List Char → List Char × List Char
  | [] => ([], [])
  | '_' :: c :: rest =>
    if p c then
      let more := moreDigits p rest
      (c :: more.1, more.2)
    else ([], '_' :: c :: rest)
  | c :: rest =>
    if p c then
      let more := moreDigits p rest
      (c :: more.1, more.2)
    else ([], c :: rest)

def digitGroup (p : Char → Bool) : Reader (List Char) := do
  let c ← one p
  let more ← fun text => some (moreDigits p text)
  pure (c :: more)

def inBase (base : Nat) (digits : List Char) : Nat :=
  digits.foldl (fun n c => base * n + (hexDigit? c).getD 0) 0

/-- Takes a sign where there is one, and tells whether it is a minus. -/
def sign : Reader Bool := do
  match ← next? with
  | some '-' => char '-'; pure true
  | some '+' => char '+'; pure false
  | _ => pure false

def wholeDigits : Reader (List Char) := do
  if (← next?) = some '0' then char '0'; pure ['0']
  else digitGroup Char.isDigit

/-- An exponent, if one follows. -/
def exponent : Reader (Option Int) := do
  let c ← next?
  if c = some 'e' ∨ c = some 'E' then
    let _ ← one fun _ => true
    let negative ← sign
    let digits ← digitGroup Char.isDigit
    let n : Int := inBase 10 digits
    pure (some (if negative then -n else n))
  else pure none

/-- The floating point number of decimal digits and a power of ten, nothing when it is too large.
Far outside the range of finite numbers the power is not computed. -/
def floatValue? (digits : List Char) (power : Int) : Option Binary64 :=
  let n := inBase 10 digits
  if n = 0 then some ⟨false, 0, 0⟩
  else
    let size : Int := (Nat.toDigits 10 n).length + power
    if size > 400 then none
    else if size < -400 then some ⟨false, 0, 0⟩
    else Binary64.ofDecimal? n power

def float : Reader Scalar := do
  let negative ← sign
  let whole ← wholeDigits
  let fraction ←
    if (← next?) = some '.' then
      char '.'
      pure (some (← digitGroup Char.isDigit))
    else pure none
  let power ← exponent
  require (fraction.isSome || power.isSome)
  let decimals := fraction.getD []
  match floatValue? (whole ++ decimals) (power.getD 0 - decimals.length) with
  | some x => pure (.float (some { x with negative := negative }))
  | none =>
    require negative
    pure (.float none)

def nonFinite : Reader Scalar := do
  let _ ← sign
  if (← next?) = some 'i' then word "inf".toList else word "nan".toList
  pure (.float none)

/-- The magnitude that the negative integers of 64 bits reach and the positive ones do not. -/
def integerBound : Nat := 9223372036854775808

def based (base : Nat) (p : Char → Bool) : Reader Scalar := do
  let digits ← digitGroup p
  let n := inBase base digits
  require (n < integerBound)
  pure (.integer n)

def decimal : Reader Scalar := do
  let negative ← sign
  let digits ← wholeDigits
  let n := inBase 10 digits
  require (if negative then n ≤ integerBound else n < integerBound)
  pure (.integer (if negative then -n else n))

def integer : Reader Scalar := do
  match ← rest with
  | '0' :: 'x' :: text =>
    set text
    based 16 fun c => (hexDigit? c).isSome
  | '0' :: 'o' :: text =>
    set text
    based 8 fun c => '0' ≤ c && c ≤ '7'
  | '0' :: 'b' :: text =>
    set text
    based 2 fun c => c = '0' || c = '1'
  | _ => decimal

end DocSnippets.Toml
