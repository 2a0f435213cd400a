import DocSnippets.Proofs.Compiler.Forms
import DocSnippets.Proofs.WorkFile

/-!
# Located messages

A line that names a place in the snippet file is read as a message about that place, if the path of
the file does not hold such a place itself. The lines after it add to the text of the message at
most.
-/

namespace DocSnippets

namespace Text

variable {p : Char → Bool} {c : Char}

theorem dropWhile_append_cons (hc : p c = false) (text rest : List Char) :
    (text ++ c :: rest).dropWhile p = text.dropWhile p ++ c :: rest := by
  induction text with
  | nil =>
    rw [List.nil_append, List.dropWhile_cons, hc, List.dropWhile_nil, if_neg Bool.false_ne_true,
      List.nil_append]
  | cons d text ih =>
    rw [List.cons_append, List.dropWhile_cons, List.dropWhile_cons, ih]
    split <;> rfl

end Text

theorem Path.fileName?_name {name : List Char} (h : IsName name) :
    (⟨String.ofList name⟩ : Path).fileName? = some (String.ofList name) := by
  have habsolute : (⟨String.ofList name⟩ : Path).isAbsolute = false := by
    rw [isAbsolute, decide_eq_false_iff_not, String.toList_ofList]
    exact fun hhead => h.noSlash (List.mem_of_mem_head? hhead)
  have hmarks := marksFrom_append h [] 0 true
  rw [List.nil_append] at hmarks
  rw [fileName?, components, marks, habsolute, String.toList_ofList,
    Text.splitOn_of_notMem h.noSlash, hmarks]
  rfl

namespace Report

/-- An error message as it is written, without its place. -/
def errorText (n : Nat) (message : List Char) : List Char :=
  "error".toList ++ (" TS".toList ++ (Nat.toDigits 10 n ++ (": ".toList ++ message)))

/-- A place as it is written, with the message about it. -/
def placed (l c n : Nat) (message : List Char) : List Char :=
  ['('] ++ (Nat.toDigits 10 l ++ ([','] ++ (Nat.toDigits 10 c ++
    ("): ".toList ++ errorText n message))))

/-- A place behind a path is read as such unless the path holds a place itself. -/
theorem located?_append {file rest : List Char} {line column : List Char} {message : Message}
    (hne : file ≠ []) (hplain : located? file = none)
    (hplace : ∀ f, place? f ('(' :: rest) = some { file := f, line, column, message }) :
    located? (file ++ '(' :: rest) = some { file, line, column, message } := by
  induction file with
  | nil => exact absurd rfl hne
  | cons c file ih =>
    rw [List.cons_append, located?]
    by_cases hlast : file = []
    · rw [hlast, List.nil_append, hplace]
    · rw [located?] at hplain
      cases hinner : place? [c] file with
      | some l =>
        rw [hinner] at hplain
        cases hplain
      | none =>
        rw [hinner] at hplain
        have hnone : place? [c] (file ++ '(' :: rest) = none := by
          rw [place?_eq_none_iff] at hinner ⊢
          exact fun h => hinner (h.of_append_paren hlast)
        rw [hnone, ih hlast (Option.map_eq_none_iff.mp hplain)]
        rfl

/-- A line with a place is read as located if the path before the place is not. -/
theorem lineOfText_placeText {file line column code : List Char} (hne : file ≠ [])
    (hplain : located? file = none) (hline : IsNumber line) (hcolumn : IsNumber column)
    (s : Severity) (hcode : IsNumber code) (text : List Char) :
    Line.ofText (file ++ placeText line column (messageText s code text)) = .located
      { file, line, column, message := { code, text := messageText s code text } } := by
  rw [Line.ofText, placeText, List.singleton_append, located?_append hne hplain]
  exact fun f => place?_placeText f hline hcolumn (message?_messageText s hcode text)

/-- A reported path has the file name of the snippet once the blanks around it are gone. -/
def NamesSnippet (snippet : Path) (path : List Char) : Prop :=
  (⟨String.ofList (Text.trim path)⟩ : Path).fileName? = snippet.fileName?

theorem sameFile_iff {snippet : Path} {path : List Char} :
    sameFile path snippet = true ↔ NamesSnippet snippet path := decide_eq_true_iff

/-- A path is reported by a name alone or with directories before it. -/
def Names (reported name : List Char) : Prop :=
  reported = name ∨ ∃ dir, reported = dir ++ '/' :: name

theorem Names.ne_nil {reported name : List Char} (h : Names reported name) (hname : name ≠ []) :
    reported ≠ [] := by
  rcases h with rfl | ⟨dir, rfl⟩
  · exact hname
  · simp

theorem trim_names {reported front : List Char} {first last : Char} {middle : List Char}
    (hname : first :: middle = front ++ [last]) (hfirst : Text.isBlank first = false)
    (hlast : Text.isBlank last = false) (h : Names reported (first :: middle)) :
    Names (Text.trim reported) (first :: middle) := by
  rcases h with rfl | ⟨dir, rfl⟩
  · left
    rw [Text.trim, Text.trimStart, List.dropWhile_cons_of_neg (by simp [hfirst]), hname,
      Text.trimEnd_append_of_not_blank hlast]
  · right
    refine ⟨dir.dropWhile Text.isBlank, ?_⟩
    have hslash : Text.isBlank '/' = false := by decide
    have hend : dir.dropWhile Text.isBlank ++ '/' :: (first :: middle) =
        (dir.dropWhile Text.isBlank ++ '/' :: front) ++ [last] := by
      rw [hname, List.append_assoc, List.cons_append]
    rw [Text.trim, Text.trimStart, Text.dropWhile_append_cons hslash, hend,
      Text.trimEnd_append_of_not_blank hlast]

open WorkFile in
theorem exists_snippetName_eq_append (id : Nat) (dialect : Dialect) :
    ∃ front last, (snippetName id dialect).toList = front ++ [last] ∧
      Text.isBlank last = false := by
  obtain ⟨front, last, hextension, hlast⟩ : ∃ front last,
      dialect.extension.toList = front ++ [last] ∧ Text.isBlank last = false := by
    cases dialect with
    | typescript => exact ⟨['t'], 's', by decide, by decide⟩
    | ts => exact ⟨['t'], 's', by decide, by decide⟩
    | tsx => exact ⟨['t', 's'], 'x', by decide, by decide⟩
  refine ⟨stem id ++ '.' :: front, last, ?_, hlast⟩
  rw [toList_snippetName, hextension, List.append_assoc, List.cons_append]

/-- A snippet file as the compiler names it: by its name, which directories may precede. None of
them is spelled like a place with its message. -/
structure Refers (file : List Char) (snippet : Path) : Prop where
  named : ∃ id dialect, snippet.fileName? = some (WorkFile.snippetName id dialect) ∧
    Names file (WorkFile.snippetName id dialect).toList
  plain : located? file = none

namespace Refers

variable {file : List Char} {snippet : Path}

theorem ne_nil (h : Refers file snippet) : file ≠ [] := by
  obtain ⟨id, dialect, -, hnames⟩ := h.named
  exact hnames.ne_nil (WorkFile.isName_snippetName id dialect).ne_nil

open WorkFile in
theorem sameFile (h : Refers file snippet) : Report.sameFile file snippet = true := by
  obtain ⟨id, dialect, hsnippet, hnames⟩ := h.named
  obtain ⟨middle, hmiddle⟩ : ∃ middle, (snippetName id dialect).toList = 'b' :: middle := by
    rw [toList_snippetName]
    exact ⟨_, rfl⟩
  obtain ⟨front, last, hfront, hlast⟩ := exists_snippetName_eq_append id dialect
  have hname := isName_snippetName id dialect
  rw [Report.sameFile, decide_eq_true_eq, hsnippet,
    ← String.ofList_toList (s := snippetName id dialect)]
  rw [hmiddle] at hnames hfront hname ⊢
  rcases trim_names hfront (by decide) hlast hnames with htrim | ⟨dir, htrim⟩
  · rw [htrim, Path.fileName?_name hname]
  · rw [htrim, Path.fileName?_append hname]

end Refers

/-- A line about a place in the snippet file is read as a diagnostic with the offset of the
place. -/
theorem readLine_placed {snippet : Path} {file : List Char} (hfile : Refers file snippet)
    {l c : Nat} (hl : l < Text.bound64) (hc : c < Text.bound64) (n : Nat)
    (message source : List Char) (read : List Diagnostic) :
    readLine snippet source read (file ++ placed l c n message) =
      { offset := some (Diagnostic.offsetOf source l c)
        code := Text.boundedNatural? Text.bound32 (Nat.toDigits 10 n)
        text := String.ofList (errorText n message) } :: read := by
  have hread : Line.ofText (file ++ placed l c n message) = _ :=
    lineOfText_placeText hfile.ne_nil hfile.plain (isNumber_toDigits l) (isNumber_toDigits c) .error
      (isNumber_toDigits n) message
  rw [readLine, hread]
  dsimp only
  rw [Located.diagnostic, if_pos hfile.sameFile, position, position,
    Text.boundedNatural?_toDigits hl, Text.boundedNatural?_toDigits hc]
  rfl

/-- A diagnostic that was read before others: the same place, and the same text at least. -/
structure Continues (d d' : Diagnostic) : Prop where
  offset : d'.offset = d.offset
  text : d.text.toList <+: d'.text.toList

theorem readLine_behind (snippet : Path) (source line : List Char) (later read : List Diagnostic)
    (d : Diagnostic) :
    ∃ later' d', readLine snippet source (later ++ d :: read) line = later' ++ d' :: read ∧
      Continues d d' := by
  have hsame : Continues d d := ⟨rfl, List.prefix_refl _⟩
  rw [readLine]
  cases Line.ofText line with
  | located l => exact ⟨_ :: later, d, rfl, hsame⟩
  | global m => exact ⟨_ :: later, d, rfl, hsame⟩
  | noise => exact ⟨later, d, rfl, hsame⟩
  | continuation text =>
    cases later with
    | nil =>
      refine ⟨[], _, rfl, rfl, ?_⟩
      simp only [String.toList_append, List.append_assoc]
      exact List.prefix_append _ _
    | cons e later => exact ⟨_ :: later, d, rfl, hsame⟩

theorem foldl_readLine_behind (snippet : Path) (source : List Char) (lines : List (List Char))
    (later read : List Diagnostic) (d : Diagnostic) :
    ∃ later' d', lines.foldl (readLine snippet source) (later ++ d :: read) =
      later' ++ d' :: read ∧ Continues d d' := by
  induction lines generalizing later d with
  | nil => exact ⟨later, d, rfl, rfl, List.prefix_refl _⟩
  | cons line lines ih =>
    obtain ⟨later₁, d₁, hread, hfirst⟩ := readLine_behind snippet source line later read d
    obtain ⟨later₂, d₂, hreads, hrest⟩ := ih later₁ d₁
    refine ⟨later₂, d₂, ?_, hrest.offset.trans hfirst.offset, hfirst.text.trans hrest.text⟩
    rw [List.foldl_cons, hread, hreads]

/-- What is read from a line that starts a diagnostic, among the diagnostics of a whole output. -/
theorem diagnostics_of_line {snippet : Path} {source output line : List Char}
    {before after : List (List Char)} (houtput : Text.lines output = before ++ line :: after)
    {d : Diagnostic} (hread : ∀ read, readLine snippet source read line = d :: read) :
    ∃ d' later, diagnostics snippet source output =
      (before.foldl (readLine snippet source) []).reverse ++ d' :: later ∧ Continues d d' := by
  obtain ⟨later, d', hreads, hcontinues⟩ := foldl_readLine_behind snippet source after []
    (before.foldl (readLine snippet source) []) d
  refine ⟨d', later.reverse, ?_, hcontinues⟩
  rw [diagnostics, houtput, List.foldl_append, List.foldl_cons, hread]
  rw [List.nil_append] at hreads
  rw [hreads, List.reverse_append, List.reverse_cons, List.append_assoc, List.singleton_append]

/-- What is read from a line about a place in the snippet file, among the diagnostics of a whole
output. -/
theorem diagnostics_placed {snippet : Path} {file : List Char} (hfile : Refers file snippet)
    {l c : Nat} (hl : l < Text.bound64) (hc : c < Text.bound64) {n : Nat}
    {message output : List Char} {before after : List (List Char)} (source : List Char)
    (houtput : Text.lines output = before ++ (file ++ placed l c n message) :: after) :
    ∃ d later, diagnostics snippet source output =
        (before.foldl (readLine snippet source) []).reverse ++ d :: later ∧
      d.offset = some (Diagnostic.offsetOf source l c) ∧ errorText n message <+: d.text.toList := by
  obtain ⟨d, later, hdiagnostics, hcontinues⟩ := diagnostics_of_line houtput
    (readLine_placed hfile hl hc n message source)
  have htext := hcontinues.text
  rw [String.toList_ofList] at htext
  exact ⟨d, later, hdiagnostics, hcontinues.offset, htext⟩

end Report

end DocSnippets
