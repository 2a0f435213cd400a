import DocSnippets.Binary64.Shortest
import DocSnippets.Json.Value

/-!
# Numbers in JSON text

Integers of 64 bits are exact. Every other number is computed from the leading digits that fit into
64 bits and a power of ten, rounding once for the digits and once for the power; a number that is
too large for a finite value is none at all. A floating point number is written with its shortest
digits, positional from `1e-5` to below `1e16` and with a signed exponent elsewhere.
-/

namespace DocSnippets.Json.Number

/-- Significands are below this bound. -/
def significandBound : Nat := 18446744073709551616

/-- The magnitude that the negative integers of 64 bits reach. -/
def integerBound : Nat := 9223372036854775808

/-- Written exponents from here on are not computed with. -/
def exponentBound : Nat := 2147483648

/-- The text of a number: whole digits, digits after the point, and the exponent with its sign. -/
structure Parts where
  negative : Bool
  whole : List Char
  fraction : Option (List Char)
  exponent : Option (Bool × List Char)

def digitValue (c : Char) : Nat := c.toNat - 48

/-- Reads digits while they fit into a word: the value reached and the digits left. -/
def leadingDigits (significand : Nat) : List Char → Nat × List Char
  | [] => (significand, [])
  | c :: rest =>
    let next := 10 * significand + digitValue c
    if next < significandBound then leadingDigits next rest else (significand, c :: rest)

/-- Divides by `10 ^ 308` until the exponent is in range or nothing is left, then scales by the
power of ten that remains. `fuel` bounds the number of divisions that a number other than zero
survives. -/
def scale? : Nat → Binary64 → Int → Option Binary64
  | fuel, x, exponent =>
    if exponent.natAbs ≤ 308 then
      (Binary64.ofDecimal? 1 exponent.natAbs).bind fun power =>
        if 0 ≤ exponent then x.mul? power else x.div? power
    else if x.isZero then some x
    else if 0 ≤ exponent then none
    else
      match fuel with
      | 0 => some ⟨false, 0, 0⟩
      | fuel + 1 =>
        ((Binary64.ofDecimal? 1 308).bind x.div?).bind fun y => scale? fuel y (exponent + 308)

/-- The floating point number of a significand, a power of ten and a written exponent. -/
def ofScaled? (negative : Bool) (significand : Nat) (shift : Int)
    (exponent : Option (Bool × List Char)) : Option Number :=
  let signed (x : Binary64) : Number := .binary { x with negative := negative }
  let finish (power : Int) : Option Number :=
    (Binary64.ofRatio? significand 1).bind fun x => (scale? 4 x power).map signed
  match exponent with
  | none => finish shift
  | some (down, digits) =>
    let written := digits.foldl (fun n c => 10 * n + digitValue c) 0
    if exponentBound ≤ written then
      if significand ≠ 0 ∧ !down then none else some (signed ⟨false, 0, 0⟩)
    else finish (if down then shift - written else shift + written)

def ofParts? (p : Parts) : Option Number :=
  let (significand, skipped) := leadingDigits 0 p.whole
  let before : Int := skipped.length
  match p.fraction with
  | some digits =>
    let (all, left) := leadingDigits significand digits
    ofScaled? p.negative all (before - (digits.length - left.length : Nat)) p.exponent
  | none =>
    if p.exponent.isSome || skipped ≠ [] then ofScaled? p.negative significand before p.exponent
    else if !p.negative then some (.natural significand)
    else if significand = 0 || integerBound < significand then ofScaled? true significand 0 none
    else some (.negative significand)

/-- The digits of a floating point number with a point, or with an exponent when it is very large or
very small. -/
def decimalText (digits : List Char) (exponent : Int) : List Char :=
  let point : Int := digits.length + exponent
  if 0 ≤ exponent ∧ point ≤ 16 then
    digits ++ List.replicate exponent.toNat '0' ++ ['.', '0']
  else if 0 < point ∧ point ≤ 16 then
    digits.take point.toNat ++ '.' :: digits.drop point.toNat
  else if -5 < point ∧ point ≤ 0 then
    '0' :: '.' :: List.replicate (-point).toNat '0' ++ digits
  else
    let sign := if 0 < point then '+' else '-'
    let scientific := 'e' :: sign :: Nat.toDigits 10 (point - 1).natAbs
    match digits with
    | [d] => d :: scientific
    | d :: ds => d :: '.' :: ds ++ scientific
    | [] => []

def binaryText (x : Binary64) : List Char :=
  let magnitude :=
    if x.isZero then "0.0".toList
    else
      let decimal := x.shortest
      decimalText (Nat.toDigits 10 decimal.digits) decimal.exponent
  if x.negative then '-' :: magnitude else magnitude

def text : Number → List Char
  | .natural n => Nat.toDigits 10 n
  | .negative n => '-' :: Nat.toDigits 10 n
  | .binary x => binaryText x

end DocSnippets.Json.Number
