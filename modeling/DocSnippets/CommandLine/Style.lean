import DocSnippets.CommandLine.Arguments

/-!
# Styles

Text may be bold and have colours. A styled text starts and ends with a reset; without colours it is
the text alone.
-/

namespace DocSnippets.CommandLine

inductive Color where
  | red
  | green
  | blue
  | white
deriving DecidableEq

def Color.digit : Color → Char
  | .red => '1'
  | .green => '2'
  | .blue => '4'
  | .white => '7'

structure Style where
  bold : Bool
  foreground : Option Color
  background : Option Color

namespace Style

def plain : Style := ⟨false, none, none⟩

def strong (c : Color) : Style := ⟨true, some c, none⟩

def sequence (setting : List Char) : List Char := '\x1b' :: '[' :: setting ++ ['m']

def reset : List Char := sequence ['0']

def opening (s : Style) : List Char :=
  reset ++ (if s.bold then sequence ['1'] else []) ++
    (match s.foreground with | some c => sequence ['3', c.digit] | none => []) ++
    (match s.background with | some c => sequence ['4', c.digit] | none => [])

/-- A text in a style, where `colors` tells whether styles are shown at all. -/
def apply (colors : Bool) (s : Style) (text : List Char) : List Char :=
  if colors then s.opening ++ text ++ reset else text

end Style

structure Terminal where
  noColor : Bool
  name : Option String

/-- Whether styles are shown. A set `NO_COLOR` forbids it; otherwise it depends on the wish, and
without one on a terminal that has a name and is not `dumb`. -/
def showsColors (t : Terminal) (wish : ColorWish) : Bool :=
  if t.noColor then false
  else
    match wish with
    | .always => true
    | .never => false
    | .auto => t.name.any (· ≠ "dumb")

end DocSnippets.CommandLine
