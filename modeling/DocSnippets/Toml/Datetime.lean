import DocSnippets.Toml.Reader

/-!
# Dates and times

A date, a time, or both with an optional offset. The normal form separates date and time by `T`,
writes at most nine digits of a second without trailing zeros, and an offset as `Z` or with a sign.
-/

namespace DocSnippets.Toml.Datetime

open Reader

def value (digits : List Char) : Nat := digits.foldl (fun n c => 10 * n + (c.toNat - 48)) 0

/-- Takes a number of exactly `n` digits between two bounds, as written. -/
def number (n low high : Nat) : Reader (List Char) := do
  let digits ← times Char.isDigit n
  require (low ≤ value digits && value digits ≤ high)
  pure digits

def isLeapYear (year : Nat) : Bool := year % 4 = 0 && (year % 100 ≠ 0 || year % 400 = 0)

def daysIn (year month : Nat) : Nat :=
  if month = 2 then if isLeapYear year then 29 else 28
  else if month = 4 ∨ month = 6 ∨ month = 9 ∨ month = 11 then 30
  else 31

def date : Reader (List Char) := do
  let year ← number 4 0 9999
  char '-'
  let month ← number 2 1 12
  char '-'
  let day ← number 2 1 31
  require (value day ≤ daysIn (value year) (value month))
  pure (year ++ '-' :: month ++ '-' :: day)

/-- The digits of a second that count, with their point; none when all are zero. -/
def fractionText (digits : List Char) : List Char :=
  let kept := ((digits.take 9).reverse.dropWhile (· = '0')).reverse
  if kept = [] then [] else '.' :: kept

def fraction : Reader (List Char) := do
  char '.'
  let digits ← takeWhile Char.isDigit
  require (digits ≠ [])
  pure (fractionText digits)

def time : Reader (List Char) := do
  let hour ← number 2 0 23
  char ':'
  let minute ← number 2 0 59
  char ':'
  let second ← number 2 0 60
  let text := hour ++ ':' :: minute ++ ':' :: second
  -- A point has to be followed by digits.
  if (← next?) = some '.' then
    pure (text ++ (← fraction))
  else
    pure text

/-- An offset; a negative zero is written as a positive one. -/
def offset : Reader (List Char) := do
  let c ← one fun c => c = 'Z' || c = 'z' || c = '+' || c = '-'
  if c = 'Z' ∨ c = 'z' then pure ['Z']
  else
    let hour ← number 2 0 23
    char ':'
    let minute ← number 2 0 59
    let sign := if value hour = 0 ∧ value minute = 0 then '+' else c
    pure (sign :: hour ++ ':' :: minute)

/-- A date with an optional time, which may have an offset, or a time alone. -/
def datetime : Reader (List Char) := do
  match ← maybe date with
  | some d =>
    let timed : Reader (List Char) := do
      let _ ← one fun c => c = 'T' || c = 't' || c = ' '
      let t ← time
      let c ← next?
      if c.any fun c => c = 'Z' || c = 'z' || c = '+' || c = '-' then
        pure (t ++ (← offset))
      else
        pure t
    match ← maybe timed with
    | some t => pure (d ++ 'T' :: t)
    | none => pure d
  | none => time

def ofText? (text : List Char) : Option (List Char) :=
  match datetime text with
  | some (d, []) => some d
  | _ => none

end DocSnippets.Toml.Datetime
