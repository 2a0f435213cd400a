/-!
# Wildcards

A pattern for names: `?` stands for one character, `*` for any number of them, `[…]` for one of a
set and `[!…]` for one outside it. Two stars make up a whole part of a path and stand for any number
of directories; three are refused, and so is a bracket that is not closed.
-/

namespace DocSnippets.Disk

/-- A closed range of characters; a single one is a range by itself. -/
structure CharRange where
  low : Char
  high : Char
deriving DecidableEq

def CharRange.contains (r : CharRange) (c : Char) : Bool := r.low ≤ c && c ≤ r.high

inductive WildToken where
  | literal (c : Char)
  | anyOne
  | anyRun
  | anyDepth
  | among (ranges : List CharRange)
  | outside (ranges : List CharRange)
deriving DecidableEq

namespace Wildcard

def ranges : List Char → List CharRange
  | [] => []
  | low :: '-' :: high :: rest => ⟨low, high⟩ :: ranges rest
  | c :: rest => ⟨c, c⟩ :: ranges rest

/-- The set after an opening bracket, with the text after the closing one. The first character of
the set does not close it. -/
def bracket? (text : List Char) : Option (WildToken × List Char) :=
  let close (first : Char) (rest : List Char) : Option (List Char × List Char) :=
    match rest.dropWhile (· != ']') with
    | [] => none
    | _ :: after => some (first :: rest.takeWhile (· != ']'), after)
  match text with
  | '!' :: first :: rest => (close first rest).map fun s => (.outside (ranges s.1), s.2)
  | first :: rest =>
    if first = '!' then none else (close first rest).map fun s => (.among (ranges s.1), s.2)
  | [] => none

/-- The tokens of a pattern; `atStart` tells whether a part of a path begins. Each token takes a
character, so the length of the pattern is fuel enough. -/
def scan? : Nat → Bool → List Char → Option (List WildToken)
  | _, _, [] => some []
  | 0, _, _ => none
  | fuel + 1, atStart, c :: rest =>
    match c with
    | '?' => (scan? fuel false rest).map (.anyOne :: ·)
    | '[' =>
      match bracket? rest with
      | none => none
      | some (token, after) => (scan? fuel false after).map (token :: ·)
    | '*' =>
      match rest with
      | '*' :: '*' :: _ => none
      | '*' :: after =>
        if atStart then
          match after with
          | [] => some [.anyDepth]
          | '/' :: after => (scan? fuel true after).map (.anyDepth :: ·)
          | _ => none
        else none
      | _ => (scan? fuel false rest).map (.anyRun :: ·)
    | c => (scan? fuel (c = '/') rest).map (.literal c :: ·)

def tokens? (pattern : List Char) : Option (List WildToken) :=
  scan? pattern.length true pattern

def accepts (c : Char) : WildToken → Bool
  | .literal d => c = d
  | .anyOne => true
  | .among rs => rs.any (·.contains c)
  | .outside rs => !rs.any (·.contains c)
  | .anyRun | .anyDepth => false

/-- For each place, whether a condition holds there or at a later place. -/
def anyFrom : List Bool → List Bool
  | [] => []
  | b :: bs =>
    let later := anyFrom bs
    (b || later.headD false) :: later

/-- For each end of a name, from the whole name to the empty end, whether tokens match it. Every
token is compared with every character once, whatever the number of stars. -/
def matchedEnds (name : List Char) : List WildToken → List Bool
  | [] => name.map (fun _ => false) ++ [true]
  | .anyRun :: tokens => anyFrom (matchedEnds name tokens)
  | .anyDepth :: tokens => anyFrom (matchedEnds name tokens)
  | t :: tokens =>
    List.zipWith (fun c b => accepts c t && b) name (matchedEnds name tokens).tail ++ [false]

def matchesName (tokens : List WildToken) (name : List Char) : Bool :=
  (matchedEnds name tokens).headD false

/-- The text of a pattern that holds literal characters only. -/
def literal? (tokens : List WildToken) : Option (List Char) :=
  tokens.mapM fun t => match t with | .literal c => some c | _ => none

end Wildcard

end DocSnippets.Disk
