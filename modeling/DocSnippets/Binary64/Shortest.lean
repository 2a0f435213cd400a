import DocSnippets.Binary64.Basic

/-!
# Shortest decimals

The shortest decimal of a number is the one with the fewest digits among those that round to it, and
the nearest of these; an exact tie goes to the even digit. It is found on the decimal grids from
coarse to fine: if a grid has a point in the interval that rounds to the number, then one of the two
grid points next to the number is such a point.
-/

namespace DocSnippets.Binary64

/-- A positive decimal `digits · 10 ^ exponent`. -/
structure Decimal where
  digits : Nat
  exponent : Int
deriving DecidableEq, Repr

/-- The interval of reals that round to a number, with the number itself, over one denominator; the
ends belong to it when `closed` holds. -/
structure Interval where
  low : Nat
  value : Nat
  high : Nat
  denominator : Nat
  closed : Bool

/-- The interval of a positive number. Below a power of two the neighbours are closer. -/
def interval (x : Binary64) : Interval :=
  let unit := Nat.pow 2 x.exponent
  let value := 4 * x.significand * unit
  let below := if x.significand = Nat.pow 2 52 ∧ x.exponent ≠ 0 then unit else 2 * unit
  { low := value - below
    value
    high := value + 2 * unit
    denominator := Nat.pow 2 1076
    closed := x.significand % 2 = 0 }

/-- The point of the grid of multiples of `10 ^ exponent` that is nearest to the number, if it lies
in the interval; of the two points next to the number only those in the interval count. -/
def Interval.onGrid? (i : Interval) (exponent : Int) : Option Nat :=
  -- Everything is compared after multiplication with `scale`; a grid step becomes `step`.
  let scale := Nat.pow 10 (-exponent).toNat
  let step := i.denominator * Nat.pow 10 exponent.toNat
  let value := i.value * scale
  let inside (k : Nat) : Bool :=
    let point := k * step
    if i.closed then i.low * scale ≤ point && point ≤ i.high * scale
    else i.low * scale < point && point < i.high * scale
  let lower := value / step
  let down := inside lower && lower ≠ 0
  let up := inside (lower + 1)
  let twice := 2 * (value % step)
  if down && up then
    if twice < step then some lower
    else if step < twice then some (lower + 1)
    else some (lower + lower % 2)
  else if down then some lower
  else if up then some (lower + 1)
  else none

/-- The first grid with a point in the interval, from the given exponent downwards. -/
def Interval.search (i : Interval) : Nat → Int → Decimal
  | 0, exponent => ⟨0, exponent⟩
  | fuel + 1, exponent =>
    match i.onGrid? exponent with
    | some digits => ⟨digits, exponent⟩
    | none => i.search fuel (exponent - 1)

/-- The shortest decimal of the magnitude of a number other than zero. Seventeen digits always
suffice, and the search starts at most two grids above the first digit. -/
def shortest (x : Binary64) : Decimal :=
  let i := x.interval
  let whole := i.value / i.denominator
  let start : Int :=
    if whole = 0 then 1 - ((Nat.toDigits 10 (i.denominator / i.value)).length : Int)
    else (Nat.toDigits 10 whole).length
  i.search 21 start

end DocSnippets.Binary64
