import DocSnippets.Package.Manifest
import DocSnippets.Text.Blank
import DocSnippets.Text.Word

/-!
# Self-imports

A self-import is a quoted specifier that names the package, after `from`, `import`, `import(` or
`require(`. Localizing replaces what stands between the quotes by the path of the file that serves
the import and keeps everything else.
-/

namespace DocSnippets.Snippet

/-- A part of a snippet: text that stays, or a specifier that names the package, with the subpath
that follows the name. -/
inductive Segment where
  | verbatim (text : List Char)
  | specifier (name : List Char) (subpath : Option (List Char))
deriving DecidableEq

def Segment.text : Segment → List Char
  | verbatim text => text
  | specifier name subpath => name ++ subpath.getD []

def isQuote (c : Char) : Bool := c = '\'' || c = '"'

def isSubpathChar (c : Char) : Bool := !isQuote c && !Text.isBlank c

/-- Text that was read, and the text after it. -/
abbrev Split := List Char × List Char

def Split.after (before : List Char) (s : Split) : Split := (before ++ s.1, s.2)

theorem Split.after_eq {before : List Char} {s : Split} :
    (s.after before).1 ++ (s.after before).2 = before ++ (s.1 ++ s.2) := by
  simp [Split.after]

def readBlanks (text : List Char) : Split :=
  (text.takeWhile Text.isBlank, text.dropWhile Text.isBlank)

def readText? (wanted text : List Char) : Option Split :=
  (wanted.isPrefixOf? text).map fun rest => (wanted, rest)

theorem readBlanks_eq (text : List Char) : (readBlanks text).1 ++ (readBlanks text).2 = text :=
  List.takeWhile_append_dropWhile

theorem readText?_eq {wanted text : List Char} {s : Split} (h : readText? wanted text = some s) :
    s.1 = wanted ∧ text = s.1 ++ s.2 := by
  obtain ⟨rest, hrest, rfl⟩ := Option.map_eq_some_iff.mp h
  exact ⟨rfl, Text.eq_append_of_isPrefixOf? hrest⟩

/-- The words before a specifier, with blanks and a parenthesis where they are allowed. -/
def lead? (text : List Char) : Option Split :=
  match readText? "from".toList text with
  | some (word, rest) => some ((readBlanks rest).after word)
  | none =>
    match readText? "import".toList text with
    | some (word, rest) =>
      let (blanks, rest) := readBlanks rest
      match readText? ['('] rest with
      | some (paren, rest) => some ((readBlanks rest).after (word ++ blanks ++ paren))
      | none => some (word ++ blanks, rest)
    | none =>
      match readText? "require".toList text with
      | some (word, rest) =>
        let (blanks, rest) := readBlanks rest
        (readText? ['('] rest).map fun s => (readBlanks s.2).after (word ++ blanks ++ s.1)
      | none => none

theorem lead?_eq {text : List Char} {s : Split} (h : lead? text = some s) :
    text = s.1 ++ s.2 := by
  unfold lead? at h
  split at h
  · next word rest hword =>
    obtain ⟨-, rfl⟩ := readText?_eq hword
    cases h
    rw [Split.after_eq, readBlanks_eq]
  · split at h
    · next word rest hword =>
      obtain ⟨-, rfl⟩ := readText?_eq hword
      dsimp only at h
      split at h
      · next paren rest' hparen =>
        have hrest := (readText?_eq hparen).2
        cases h
        rw [Split.after_eq, readBlanks_eq, List.append_assoc, ← hrest, List.append_assoc,
          readBlanks_eq]
      · cases h
        simp [readBlanks_eq]
    · split at h
      · next word rest hword =>
        obtain ⟨-, rfl⟩ := readText?_eq hword
        dsimp only at h
        obtain ⟨p, hparen, rfl⟩ := Option.map_eq_some_iff.mp h
        have hrest := (readText?_eq hparen).2
        rw [Split.after_eq, readBlanks_eq, List.append_assoc, ← hrest, List.append_assoc,
          readBlanks_eq]
      · cases h

/-- A candidate: what leads to it, its quotes, the subpath after the name, and the text after the
closing quote. -/
structure Candidate where
  lead : List Char
  opening : Char
  subpath : Option (List Char)
  closing : Char
  rest : List Char

/-- The quote that closes a candidate whose name was read, after a subpath or directly. -/
def close? (lead : List Char) (opening : Char) (text : List Char) : Option Candidate :=
  match text with
  | [] => none
  | c :: rest =>
    if isQuote c then some { lead, opening, subpath := none, closing := c, rest }
    else if c = '/' then
      let more := rest.takeWhile isSubpathChar
      match rest.dropWhile isSubpathChar with
      | q :: after =>
        if more ≠ [] ∧ isQuote q = true then
          some { lead, opening, subpath := some ('/' :: more), closing := q, rest := after }
        else none
      | [] => none
    else none

theorem close?_eq {lead : List Char} {opening : Char} {text : List Char} {k : Candidate}
    (h : close? lead opening text = some k) :
    k.lead = lead ∧ k.opening = opening ∧ text = k.subpath.getD [] ++ k.closing :: k.rest := by
  cases text with
  | nil => cases h
  | cons c rest =>
    rw [close?] at h
    split at h
    · cases h
      exact ⟨rfl, rfl, rfl⟩
    · split at h
      · next hslash =>
        dsimp only at h
        split at h
        · next q after hdrop =>
          split at h
          · cases h
            refine ⟨rfl, rfl, ?_⟩
            simp only [Option.getD_some, List.cons_append, hslash]
            rw [← hdrop, List.takeWhile_append_dropWhile]
          · cases h
        · cases h
      · cases h

/-- The candidate at the start of a text. Its quotes need not be the same. -/
def candidate? (name text : List Char) : Option Candidate :=
  match lead? text with
  | none => none
  | some (_, []) => none
  | some (lead, opening :: rest) =>
    if isQuote opening then (name.isPrefixOf? rest).bind (close? lead opening) else none

theorem candidate?_eq {name text : List Char} {k : Candidate} (h : candidate? name text = some k) :
    text = k.lead ++ k.opening :: (name ++ (k.subpath.getD [] ++ k.closing :: k.rest)) := by
  unfold candidate? at h
  split at h
  · cases h
  · cases h
  · next lead opening rest hlead =>
    split at h
    · obtain ⟨text', hname, hclose⟩ := Option.bind_eq_some_iff.mp h
      obtain ⟨rfl, rfl, rfl⟩ := close?_eq hclose
      rw [lead?_eq hlead, Text.eq_append_of_isPrefixOf? hname]
    · cases h

/-- A candidate takes up at least its two quotes. -/
theorem length_rest_lt {name text : List Char} {k : Candidate} (h : candidate? name text = some k) :
    k.rest.length < text.length := by
  rw [candidate?_eq h]
  simp
  omega

/-- The segments of a candidate. Only one with equal quotes is a self-import. -/
def Candidate.segments (name : List Char) (c : Candidate) : List Segment :=
  if c.opening = c.closing then
    [.verbatim (c.lead ++ [c.opening]), .specifier name c.subpath, .verbatim [c.closing]]
  else [.verbatim (c.lead ++ c.opening :: name ++ c.subpath.getD [] ++ [c.closing])]

/-- The segments of a text that stands after a given character. A candidate starts at a word
boundary; after it the search goes on behind its closing quote. -/
def segmentsFrom (name : List Char) (before : Option Char) (text : List Char) : List Segment :=
  match text with
  | [] => []
  | c :: rest =>
    match _h : candidate? name (c :: rest) with
    | some k =>
      if Text.isWordBoundary before (some c) then
        k.segments name ++ segmentsFrom name (some k.closing) k.rest
      else .verbatim [c] :: segmentsFrom name (some c) rest
    | none => .verbatim [c] :: segmentsFrom name (some c) rest
termination_by text.length
decreasing_by
  · exact length_rest_lt _h
  all_goals
    simp only [List.length_cons]
    omega

def segments (name text : List Char) : List Segment := segmentsFrom name none text

/-- The path that a self-import becomes, as it is written between quotes: the package root joined
with the file that serves the subpath, backslashes doubled. -/
def localPath (package : Package) (subpath : Option (List Char)) :
    Except ResolutionError (List Char) :=
  (package.entryPoints.resolve subpath).map fun path =>
    Text.replaceAll ['\\'] ['\\', '\\'] (package.root.join ⟨String.ofList path⟩).text.toList

def Segment.localize (package : Package) : Segment → Except ResolutionError (List Char)
  | .verbatim text => .ok text
  | .specifier _ subpath => localPath package subpath

/-- Segments localized one after the other; the first self-import that has no file is the error. -/
def localizeSegments (package : Package) : List Segment → Except ResolutionError (List Char)
  | [] => .ok []
  | s :: rest => do
    let text ← s.localize package
    let texts ← localizeSegments package rest
    .ok (text ++ texts)

def localize (package : Package) (text : List Char) : Except ResolutionError (List Char) :=
  localizeSegments package (segments package.name.toList text)

end DocSnippets.Snippet
