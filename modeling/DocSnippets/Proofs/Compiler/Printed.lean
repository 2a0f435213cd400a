import DocSnippets.Proofs.Compiler.Located
import DocSnippets.Proofs.Diagnostic.Columns

/-!
# Printed reports

A report is printed from entries: a place in the snippet file or in another file or none, a message,
and lines that continue it. Reading a printed report gives the entries back, whatever lines of noise
stand among theirs.
-/

namespace DocSnippets

namespace Text

/-- Lines that are printed are read without the carriage returns that end them. -/
theorem lines_unlines {out : List (List Char)} (h : ∀ line ∈ out, '\n' ∉ line) :
    lines (unlines out) = out.map fun line => dropLineEnding (line ++ ['\n']) := by
  induction out with
  | nil => rfl
  | cons line out ih =>
    rw [lines, unlines_cons, segments_line (h line List.mem_cons_self), List.map_cons,
      List.map_cons]
    exact congrArg _ (ih fun other hother => h other (List.mem_cons_of_mem line hother))

theorem dropLineEnding_newline (line : List Char) :
    dropLineEnding (line ++ ['\n']) =
      if line.getLast? = some '\r' then line.dropLast else line := by
  rw [dropLineEnding, List.getLast?_concat, if_pos rfl, List.dropLast_concat]

end Text

namespace Report

/-- A place in a file. -/
structure Place where
  path : List Char
  line : Nat
  column : Nat

/-- What an entry is about. -/
inductive Subject where
  | snippet (place : Place)
  | other (place : Place)
  | none

def Subject.place? : Subject → Option Place
  | snippet place => some place
  | other place => some place
  | none => Option.none

structure Entry where
  subject : Subject
  severity : Severity
  code : Nat
  text : List Char
  continuations : List (List Char)

namespace Entry

def message (e : Entry) : List Char := messageText e.severity (Nat.toDigits 10 e.code) e.text

def firstLine (e : Entry) : List Char :=
  match e.subject.place? with
  | some p => p.path ++ placeText (Nat.toDigits 10 p.line) (Nat.toDigits 10 p.column) e.message
  | none => e.message

def lines (e : Entry) : List (List Char) := e.firstLine :: e.continuations

def offset (source : List Char) (e : Entry) : Option Nat :=
  match e.subject with
  | .snippet p => some (Diagnostic.offsetOf source p.line p.column)
  | .other _ => none
  | .none => none

/-- The first line of the text: a place in another file stays in it. -/
def shown (e : Entry) : List Char :=
  match e.subject with
  | .snippet _ => e.message
  | .other _ => e.firstLine
  | .none => e.message

/-- The diagnostic that an entry stands for. -/
def diagnostic (source : List Char) (e : Entry) : Diagnostic where
  offset := e.offset source
  code := some e.code
  text := String.ofList (e.shown ++ e.continuations.flatMap ('\n' :: ·))

end Entry

/-- A line that continues a message. -/
structure IsContinuation (line : List Char) : Prop where
  indented : ∃ c rest, line = c :: rest ∧ Text.isBlank c = true
  ended : ∃ front last, line = front ++ [last] ∧ Text.isBlank last = false
  plain : ¬ HasPlace line
  oneLine : '\n' ∉ line

structure Place.WellFormed (p : Place) : Prop where
  path_ne : p.path ≠ []
  plain : ¬ HasPlace p.path
  oneLine : '\n' ∉ p.path
  line_lt : p.line < Text.bound64
  column_lt : p.column < Text.bound64

/-- The path of a place has the name of the snippet file exactly if the entry is about it. -/
def Subject.NamedFor (snippet : Path) : Subject → Prop
  | .snippet p => NamesSnippet snippet p.path
  | .other p => ¬ NamesSnippet snippet p.path
  | .none => True

structure Entry.WellFormed (e : Entry) : Prop where
  code_lt : e.code < Text.bound32
  place : ∀ p ∈ e.subject.place?, p.WellFormed
  plain : e.subject.place? = none → ¬ HasPlace e.text
  oneLine : '\n' ∉ e.text
  noReturn : e.firstLine.getLast? ≠ some '\r'
  continuations : ∀ line ∈ e.continuations, IsContinuation line

/-- A line that is not read: it is not indented and has none of the forms. -/
structure IsNoise (line : List Char) : Prop where
  unindented : ∀ c ∈ line.head?, Text.isBlank c = false
  notLocated : ¬ IsLocated line
  notMessage : ¬ IsMessage line
  oneLine : '\n' ∉ line

/-- Lines with any number of lines of noise among them. -/
inductive Amid : List (List Char) → List (List Char) → Prop where
  | nil : Amid [] []
  | line {lines out : List (List Char)} (line : List Char) (h : Amid lines out) :
      Amid (line :: lines) (line :: out)
  | noise {lines out : List (List Char)} {line : List Char} (hline : IsNoise line)
      (h : Amid lines out) : Amid lines (line :: out)

/-! What one line is read as. -/

theorem IsNoise.of_append {line tail : List Char} (h : IsNoise (line ++ tail)) : IsNoise line where
  unindented := by
    intro c hc
    refine h.unindented c ?_
    rw [List.head?_append, Option.mem_def.mp hc, Option.some_or]
    rfl
  notLocated := by
    rintro ⟨file, back, hne, rfl, hback⟩
    exact h.notLocated ⟨file, back ++ tail, hne, by rw [List.append_assoc], hback.append tail⟩
  notMessage := fun hmessage => h.notMessage (hmessage.append tail)
  oneLine := fun hmem => h.oneLine (List.mem_append_left tail hmem)

section Read

variable {line : List Char} {e : Entry} {snippet : Path} {source : List Char}
  {read : List Diagnostic}

theorem readLine_noise (h : IsNoise line) : readLine snippet source read line = read := by
  have hindent : ¬ (line.head?.any Text.isBlank = true ∧ Text.trim line ≠ []) := by
    rintro ⟨hblank, -⟩
    cases line with
    | nil => cases hblank
    | cons c rest =>
      rw [List.head?_cons, Option.any_some, h.unindented c rfl] at hblank
      cases hblank
  rw [readLine, Line.ofText, located?_eq_none h.notLocated, message?_eq_none_iff.mpr h.notMessage]
  dsimp only
  rw [if_neg hindent]

theorem IsContinuation.trim (h : IsContinuation line) :
    Text.trim line ≠ [] ∧ Text.trimEnd line = line := by
  obtain ⟨front, last, rfl, hlast⟩ := h.ended
  have hstart : Text.trimStart (front ++ [last]) = front.dropWhile Text.isBlank ++ [last] := by
    rw [Text.trimStart, Text.dropWhile_append_cons hlast]
  constructor
  · rw [Text.trim, hstart, Text.trimEnd_append_of_not_blank hlast]
    exact List.append_ne_nil_of_right_ne_nil _ (List.cons_ne_nil last [])
  · exact Text.trimEnd_append_of_not_blank hlast front

theorem readLine_continuation (h : IsContinuation line) :
    readLine snippet source read line = continueLast line read := by
  obtain ⟨hne, hend⟩ := h.trim
  have hmessage : ¬ IsMessage line := by
    intro hmessage
    obtain ⟨c, rest, rfl, hblank⟩ := h.indented
    rw [hmessage.not_blank c rfl] at hblank
    cases hblank
  have hindent : line.head?.any Text.isBlank = true := by
    obtain ⟨c, rest, rfl, hblank⟩ := h.indented
    exact hblank
  rw [readLine, Line.ofText, located?_eq_none fun hlocated => h.plain hlocated.hasPlace,
    message?_eq_none_iff.mpr hmessage]
  dsimp only
  rw [if_pos ⟨hindent, hne⟩]
  dsimp only
  rw [hend]

/-- What the first line of an entry is read as. -/
def Entry.start (source : List Char) (e : Entry) : Diagnostic where
  offset := e.offset source
  code := some e.code
  text := String.ofList e.shown

theorem lineOfText_firstLine (h : e.WellFormed) {p : Place} (hp : e.subject.place? = some p) :
    Line.ofText e.firstLine = .located
      { file := p.path, line := Nat.toDigits 10 p.line, column := Nat.toDigits 10 p.column
        message := { code := Nat.toDigits 10 e.code, text := e.message } } := by
  have hplace := h.place p hp
  rw [Entry.firstLine, hp]
  exact lineOfText_placeText hplace.path_ne
    (located?_eq_none fun hlocated => hplace.plain hlocated.hasPlace) (isNumber_toDigits p.line)
    (isNumber_toDigits p.column) e.severity (isNumber_toDigits e.code) e.text

theorem lineOfText_message (h : e.WellFormed) (hp : e.subject.place? = none) :
    Line.ofText e.firstLine =
      .global { code := Nat.toDigits 10 e.code, text := e.message } := by
  have hlocated : ¬ IsLocated e.message :=
    not_isLocated_messageText (isNumber_toDigits e.code) (h.plain hp)
  have hmessage : message? e.message = _ :=
    message?_messageText e.severity (isNumber_toDigits e.code) e.text
  rw [Entry.firstLine, hp]
  dsimp only
  rw [Line.ofText, located?_eq_none hlocated, hmessage]
  rfl

theorem readLine_firstLine (h : e.WellFormed) (hnamed : e.subject.NamedFor snippet) :
    readLine snippet source read e.firstLine = e.start source :: read := by
  have hcode := Text.boundedNatural?_toDigits h.code_lt
  rw [readLine, Entry.start, Entry.offset, Entry.shown]
  cases hsubject : e.subject with
  | snippet p =>
    have hp : e.subject.place? = some p := by rw [hsubject, Subject.place?]
    have hplace := h.place p hp
    rw [hsubject] at hnamed
    rw [lineOfText_firstLine h hp]
    dsimp only
    rw [Located.diagnostic, if_pos (sameFile_iff.mpr hnamed), position, position,
      Text.boundedNatural?_toDigits hplace.line_lt, Text.boundedNatural?_toDigits hplace.column_lt,
      Message.code?, hcode]
    rfl
  | other p =>
    have hp : e.subject.place? = some p := by rw [hsubject, Subject.place?]
    rw [hsubject] at hnamed
    rw [lineOfText_firstLine h hp]
    dsimp only
    rw [Located.diagnostic, if_neg fun hsame => hnamed (sameFile_iff.mp hsame), Message.code?,
      hcode]
  | none =>
    have hp : e.subject.place? = none := by rw [hsubject, Subject.place?]
    rw [lineOfText_message h hp]
    dsimp only
    rw [Message.code?, hcode]

/-- The lines that continue an entry are put behind its text one by one. -/
theorem foldl_continuations {lines : List (List Char)} (h : ∀ line ∈ lines, IsContinuation line)
    (d : Diagnostic) :
    lines.foldl (readLine snippet source) (d :: read) =
      { d with text := d.text ++ String.ofList (lines.flatMap ('\n' :: ·)) } :: read := by
  induction lines generalizing d with
  | nil => simp
  | cons line lines ih =>
    obtain ⟨hline, hlines⟩ := List.forall_mem_cons.mp h
    rw [List.foldl_cons, readLine_continuation hline, continueLast, ih hlines]
    simp [String.append_assoc]

theorem foldl_entry (h : e.WellFormed) (hnamed : e.subject.NamedFor snippet) :
    e.lines.foldl (readLine snippet source) read = e.diagnostic source :: read := by
  rw [Entry.lines, List.foldl_cons, readLine_firstLine h hnamed,
    foldl_continuations h.continuations, Entry.start, Entry.diagnostic]
  simp

/-- Noise changes nothing of what is read. -/
theorem foldl_amid {lines out : List (List Char)} (h : Amid lines out) :
    out.foldl (readLine snippet source) read = lines.foldl (readLine snippet source) read := by
  induction h generalizing read with
  | nil => rfl
  | line line h ih => rw [List.foldl_cons, List.foldl_cons, ih]
  | noise hline h ih => rw [List.foldl_cons, readLine_noise hline, ih]

theorem foldl_entries {entries : List Entry} (h : ∀ e ∈ entries, e.WellFormed)
    (hnamed : ∀ e ∈ entries, e.subject.NamedFor snippet) :
    (entries.flatMap Entry.lines).foldl (readLine snippet source) read =
      (entries.map (Entry.diagnostic source)).reverse ++ read := by
  induction entries generalizing read with
  | nil => rfl
  | cons e entries ih =>
    obtain ⟨he, hrest⟩ := List.forall_mem_cons.mp h
    obtain ⟨hnamedFirst, hnamedRest⟩ := List.forall_mem_cons.mp hnamed
    rw [List.flatMap_cons, List.foldl_append, foldl_entry he hnamedFirst, ih hrest hnamedRest,
      List.map_cons, List.reverse_cons, List.append_assoc, List.singleton_append]

end Read

/-! No line of an entry holds the end of a line, and the reader takes none apart. -/

theorem IsNumber.newline_notMem {digits : List Char} (h : IsNumber digits) : '\n' ∉ digits := by
  intro hmem
  exact absurd (h.isDigit _ hmem) (by decide)

namespace Entry.WellFormed

variable {e : Entry}

theorem message_oneLine (h : e.WellFormed) : '\n' ∉ e.message := by
  have hcode := (isNumber_toDigits e.code).newline_notMem
  have hword : '\n' ∉ e.severity.word.toList := by cases e.severity <;> decide
  simp [Entry.message, messageText, hcode, hword, h.oneLine]

theorem firstLine_oneLine (h : e.WellFormed) : '\n' ∉ e.firstLine := by
  have hmessage := h.message_oneLine
  rw [Entry.firstLine]
  cases hp : e.subject.place? with
  | none => exact hmessage
  | some p =>
    have hpath := (h.place p hp).oneLine
    have hline := (isNumber_toDigits p.line).newline_notMem
    have hcolumn := (isNumber_toDigits p.column).newline_notMem
    simp [placeText, hmessage, hpath, hline, hcolumn]

/-- Every line of an entry is read as it was printed. -/
theorem line_kept (h : e.WellFormed) :
    ∀ line ∈ e.lines, '\n' ∉ line ∧ line.getLast? ≠ some '\r' := by
  refine List.forall_mem_cons.mpr ⟨⟨h.firstLine_oneLine, h.noReturn⟩, ?_⟩
  intro line hline
  have hcontinuation := h.continuations line hline
  refine ⟨hcontinuation.oneLine, ?_⟩
  obtain ⟨front, last, rfl, hlast⟩ := hcontinuation.ended
  rw [List.getLast?_concat]
  rintro ⟨⟩
  exact absurd hlast (by decide)

end Entry.WellFormed

theorem Amid.oneLine {lines out : List (List Char)} (h : Amid lines out)
    (hlines : ∀ line ∈ lines, '\n' ∉ line) : ∀ line ∈ out, '\n' ∉ line := by
  induction h with
  | nil => exact hlines
  | line line h ih =>
    obtain ⟨hline, hrest⟩ := List.forall_mem_cons.mp hlines
    exact List.forall_mem_cons.mpr ⟨hline, ih hrest⟩
  | noise hline h ih => exact List.forall_mem_cons.mpr ⟨hline.oneLine, ih hlines⟩

/-- Carriage returns are taken from the ends of noise alone. -/
theorem Amid.dropLineEndings {lines out : List (List Char)} (h : Amid lines out)
    (hlines : ∀ line ∈ lines, line.getLast? ≠ some '\r') :
    Amid lines (out.map fun line => Text.dropLineEnding (line ++ ['\n'])) := by
  induction h with
  | nil => exact .nil
  | line line h ih =>
    obtain ⟨hline, hrest⟩ := List.forall_mem_cons.mp hlines
    rw [List.map_cons, Text.dropLineEnding_newline, if_neg hline]
    exact .line line (ih hrest)
  | @noise lines out line hline h ih =>
    rw [List.map_cons, Text.dropLineEnding_newline]
    split
    · next hreturn =>
      obtain ⟨front, rfl⟩ := List.getLast?_eq_some_iff.mp hreturn
      rw [List.dropLast_concat]
      exact .noise hline.of_append (ih hlines)
    · exact .noise hline (ih hlines)

/-- Reading a printed report gives back what was printed. -/
theorem diagnostics_printed {snippet : Path} {source : List Char} {entries : List Entry}
    {out : List (List Char)} (hentries : ∀ e ∈ entries, e.WellFormed)
    (hnamed : ∀ e ∈ entries, e.subject.NamedFor snippet)
    (hout : Amid (entries.flatMap Entry.lines) out) :
    diagnostics snippet source (Text.unlines out) = entries.map (Entry.diagnostic source) := by
  have hkept : ∀ line ∈ entries.flatMap Entry.lines, '\n' ∉ line ∧ line.getLast? ≠ some '\r' := by
    intro line hline
    obtain ⟨e, he, hline⟩ := List.mem_flatMap.mp hline
    exact (hentries e he).line_kept line hline
  have hlines := Text.lines_unlines (hout.oneLine fun line hline => (hkept line hline).1)
  have hread := hout.dropLineEndings fun line hline => (hkept line hline).2
  rw [diagnostics, hlines, foldl_amid hread, foldl_entries hentries hnamed, List.append_nil,
    List.reverse_reverse]

/-- A snippet file, and a report about it and another file. -/
def sampleFile : Path := ⟨"/pkg/compiled-docs-x1/block-4.ts"⟩

def sampleEntries : List Entry :=
  [{ subject := .snippet ⟨"compiled-docs-x1/block-4.ts".toList, 2, 7⟩
     severity := .error
     code := 2322
     text := "Type 'A' is not assignable to type 'B'.".toList
     continuations := ["  Property 'a' is missing in type 'A'.".toList] },
   { subject := .other ⟨"src/index.ts".toList, 10, 3⟩
     severity := .warning
     code := 6133
     text := "'foo' is declared but never used.".toList
     continuations := [] }]

def sampleReport : List (List Char) :=
  ["compiled-docs-x1/block-4.ts(2,7): error TS2322: Type 'A' is not assignable to type 'B'.".toList,
   "  Property 'a' is missing in type 'A'.".toList,
   "Found 2 errors.\r".toList,
   "src/index.ts(10,3): warning TS6133: 'foo' is declared but never used.".toList]

theorem diagnostics_printed_sample :
    (∀ e ∈ sampleEntries, e.WellFormed) ∧
      (∀ e ∈ sampleEntries, e.subject.NamedFor sampleFile) ∧
      Amid (sampleEntries.flatMap Entry.lines) sampleReport ∧
      diagnostics sampleFile [] (Text.unlines sampleReport) =
        sampleEntries.map (Entry.diagnostic []) := by
  have hplain {text : List Char} (h : '(' ∉ text) : ¬ HasPlace text := mt HasPlace.paren_mem h
  have hplace (p : Place) (hne : p.path ≠ []) (hparen : '(' ∉ p.path) (hline : '\n' ∉ p.path)
      (hlt : p.line < Text.bound64 ∧ p.column < Text.bound64) : p.WellFormed :=
    ⟨hne, hplain hparen, hline, hlt.1, hlt.2⟩
  have hentries : ∀ e ∈ sampleEntries, e.WellFormed := by
    refine List.forall_mem_cons.mpr ⟨?_, List.forall_mem_singleton.mpr ?_⟩
    · refine ⟨by decide, ?_, nofun, by decide, by decide +kernel,
        List.forall_mem_singleton.mpr ?_⟩
      · rintro p ⟨⟩
        exact hplace _ (by decide) (by decide) (by decide) (by decide)
      · exact ⟨⟨' ', _, rfl, by decide⟩,
          ⟨"  Property 'a' is missing in type 'A'".toList, '.', rfl, by decide⟩,
          hplain (by decide), by decide⟩
    · refine ⟨by decide, ?_, nofun, by decide, by decide +kernel, nofun⟩
      rintro p ⟨⟩
      exact hplace _ (by decide) (by decide) (by decide) (by decide)
  have hnamed : ∀ e ∈ sampleEntries, e.subject.NamedFor sampleFile := by
    refine List.forall_mem_cons.mpr ⟨?_, List.forall_mem_singleton.mpr ?_⟩
    · show _ = _
      decide +kernel
    · show ¬ _ = _
      decide +kernel
  have hnoise : IsNoise "Found 2 errors.\r".toList := by
    refine ⟨?_, fun h => hplain (by decide) h.hasPlace,
      message?_eq_none_iff.mp (by decide), by decide⟩
    rintro c ⟨⟩
    decide
  have hlines : sampleEntries.flatMap Entry.lines =
      sampleReport.take 2 ++ sampleReport.drop 3 := by decide +kernel
  have hout : Amid (sampleEntries.flatMap Entry.lines) sampleReport := by
    rw [hlines]
    exact .line _ (.line _ (.noise hnoise (.line _ .nil)))
  exact ⟨hentries, hnamed, hout, diagnostics_printed hentries hnamed hout⟩

/-- A snippet file, and an entry about a file whose name is that of the snippet file behind a
blank. -/
def namedFile : Path := ⟨"/pkg/compiled-docs-Ab12cD/block-1.ts"⟩

def blankNamed : Entry where
  subject := .other ⟨" block-1.ts".toList, 1, 2⟩
  severity := .error
  code := 2304
  text := "Cannot find name 'foo'.".toList
  continuations := []

/-- Blanks in front of a path do not count: the other file is taken for the snippet file. -/
theorem blank_named_taken_for_snippet :
    blankNamed.WellFormed ∧ (⟨" block-1.ts"⟩ : Path).fileName? ≠ namedFile.fileName? ∧
      diagnostics namedFile "const a = 1;\n".toList (Text.unlines blankNamed.lines) ≠
        [blankNamed.diagnostic "const a = 1;\n".toList] ∧
      diagnostics namedFile "const a = 1;\n".toList (Text.unlines blankNamed.lines) =
        [{ offset := some 1, code := some 2304
           text := "error TS2304: Cannot find name 'foo'." }] := by
  refine ⟨⟨by decide, ?_, nofun, by decide, by decide +kernel, nofun⟩, ?_, ?_, ?_⟩
  · rintro p ⟨⟩
    exact ⟨by decide, mt HasPlace.paren_mem (by decide), by decide, by decide, by decide⟩
  · decide +kernel
  · decide +kernel
  · decide +kernel

end Report

end DocSnippets
