/-!
# Binary floating point numbers

Finite numbers of the 64-bit binary format, and rounding of an exact quotient to the nearest of
them, a tie going to the even neighbour. All arithmetic here is on natural numbers.
-/

namespace DocSnippets

/-- The finite number `± significand · 2 ^ (exponent - 1074)`. In a value that rounding made, the
significand is below `2 ^ 53`, and at least `2 ^ 52` unless the exponent is zero. -/
structure Binary64 where
  negative : Bool
  significand : Nat
  exponent : Nat
deriving DecidableEq, Repr

namespace Binary64

/-- The quotient rounded to the nearest natural number, a tie to the even one. -/
def roundQuotient (num den : Nat) : Nat :=
  let quotient := num / den
  let twice := 2 * (num % den)
  if twice < den then quotient
  else if den < twice then quotient + 1
  else quotient + quotient % 2

/-- The number nearest to `num / den`, or nothing when it is too large for a finite one. -/
def ofRatio? (num den : Nat) : Option Binary64 :=
  if num = 0 then some ⟨false, 0, 0⟩
  else
    -- `num * 2 ^ 1074 / den` has its leading bit at `lead` or one below it.
    let scaled := num * Nat.pow 2 1074
    let lead := scaled.log2 - den.log2
    let guess := lead - 52
    let exponent :=
      if guess ≠ 0 ∧ scaled / (den * Nat.pow 2 guess) < Nat.pow 2 52 then guess - 1 else guess
    let significand := roundQuotient scaled (den * Nat.pow 2 exponent)
    let rounded : Binary64 :=
      if significand = Nat.pow 2 53 then ⟨false, Nat.pow 2 52, exponent + 1⟩
      else ⟨false, significand, exponent⟩
    if rounded.exponent ≤ 2045 then some rounded else none

def ratio (x : Binary64) : Nat × Nat := (x.significand * Nat.pow 2 x.exponent, Nat.pow 2 1074)

def isZero (x : Binary64) : Bool := x.significand = 0

def mul? (x n : Binary64) : Option Binary64 :=
  ofRatio? (x.ratio.1 * n.ratio.1) (x.ratio.2 * n.ratio.2)

def div? (x n : Binary64) : Option Binary64 :=
  ofRatio? (x.ratio.1 * n.ratio.2) (x.ratio.2 * n.ratio.1)

/-- The number nearest to `digits · 10 ^ exponent`. -/
def ofDecimal? (digits : Nat) (exponent : Int) : Option Binary64 :=
  if 0 ≤ exponent then ofRatio? (digits * Nat.pow 10 exponent.toNat) 1
  else ofRatio? digits (Nat.pow 10 (-exponent).toNat)

end Binary64

end DocSnippets
