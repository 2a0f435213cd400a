import DocSnippets.Proofs.Compiler.Located
import DocSnippets.Proofs.Run.Placing

/-!
# Whom an error is blamed on

The file of a line is what stands before the first place in it. A diagnostic is taken for one of the
snippet exactly if this file has the name of the snippet file, in whatever directory it is. Any
other one has no offset and keeps its line.
-/

namespace DocSnippets

namespace Report

/-- What stands before the first place in a line. -/
structure FileOf (line file : List Char) : Prop where
  ne_nil : file ≠ []
  plain : ¬ IsLocated file
  place : ∃ back, line = file ++ back ∧ IsPlace back

/-- A line with a place has a file; it is the path before this place unless an earlier place is in
the path. -/
theorem exists_fileOf {path back : List Char} (hne : path ≠ []) (hback : IsPlace back) :
    ∃ file, FileOf (path ++ back) file ∧ (¬ IsLocated path → file = path) := by
  by_cases hlocated : IsLocated path
  · obtain ⟨earlier, rest, hearlier, rfl, hrest⟩ := hlocated
    have hshorter : earlier.length < (earlier ++ rest).length := by
      obtain ⟨tail, rfl⟩ := hrest.eq_cons
      simp
    obtain ⟨file, hfile, -⟩ := exists_fileOf hearlier (hrest.append back)
    refine ⟨file, ?_, fun hplain => absurd ⟨earlier, rest, hearlier, rfl, hrest⟩ hplain⟩
    rwa [List.append_assoc]
  · exact ⟨path, ⟨hne, hlocated, back, rfl, hback⟩, fun _ => rfl⟩
termination_by path.length

section Read

variable {line file : List Char} {snippet : Path} {source : List Char}

theorem FileOf.lineOfText (h : FileOf line file) :
    ∃ l : Located, Line.ofText line = .located l ∧ l.file = file := by
  obtain ⟨back, rfl, lineNumber, column, message, hline, hcolumn, ⟨s, code, text, hcode, rfl⟩,
    rfl⟩ := h.place
  exact ⟨_, lineOfText_placeText h.ne_nil (located?_eq_none h.plain) hline hcolumn s hcode text,
    rfl⟩

variable (source) in
theorem FileOf.readLine_snippet (h : FileOf line file) (hname : NamesSnippet snippet file) :
    ∃ offset code text, ∀ read,
      readLine snippet source read line = { offset := some offset, code, text } :: read := by
  obtain ⟨l, hl, rfl⟩ := h.lineOfText
  refine ⟨Diagnostic.offsetOf source (position l.line) (position l.column), l.message.code?,
    String.ofList l.message.text, fun read => ?_⟩
  rw [readLine, hl]
  dsimp only
  rw [Located.diagnostic, if_pos (sameFile_iff.mpr hname)]

variable (source) in
theorem FileOf.readLine_other (h : FileOf line file) (hname : ¬ NamesSnippet snippet file) :
    ∃ code, ∀ read, readLine snippet source read line =
      { offset := none, code, text := String.ofList line } :: read := by
  obtain ⟨l, hl, rfl⟩ := h.lineOfText
  refine ⟨l.message.code?, fun read => ?_⟩
  rw [readLine, hl]
  dsimp only
  rw [Located.diagnostic, if_neg fun hsame => hname (sameFile_iff.mp hsame)]

/-- A diagnostic that is about the snippet exactly if the file of its line has a given name, and
keeps its line if it is not. -/
structure BlamedByName (name : String) (line file : List Char) (d : Diagnostic) : Prop where
  offset : d.offset = none ↔ (⟨String.ofList (Text.trim file)⟩ : Path).fileName? ≠ some name
  text : d.offset = none → line <+: d.text.toList

variable (source) in
theorem FileOf.blamedByName (h : FileOf line file) {name : String}
    (hsnippet : snippet.fileName? = some name) {output : List Char}
    {before after : List (List Char)} (houtput : Text.lines output = before ++ line :: after) :
    ∃ d later, diagnostics snippet source output =
      (before.foldl (readLine snippet source) []).reverse ++ d :: later ∧
        BlamedByName name line file d := by
  have hnames : NamesSnippet snippet file ↔
      (⟨String.ofList (Text.trim file)⟩ : Path).fileName? = some name := by
    rw [NamesSnippet, hsnippet]
  by_cases hname : NamesSnippet snippet file
  · obtain ⟨offset, code, text, hread⟩ := h.readLine_snippet source hname
    obtain ⟨d, later, hdiagnostics, hcontinues⟩ := diagnostics_of_line houtput hread
    have hoffset : d.offset ≠ none := by
      rw [hcontinues.offset]
      exact Option.some_ne_none offset
    exact ⟨d, later, hdiagnostics, iff_of_false hoffset (not_not_intro (hnames.mp hname)),
      fun hnone => absurd hnone hoffset⟩
  · obtain ⟨code, hread⟩ := h.readLine_other source hname
    obtain ⟨d, later, hdiagnostics, hcontinues⟩ := diagnostics_of_line houtput hread
    have htext := hcontinues.text
    rw [String.toList_ofList] at htext
    exact ⟨d, later, hdiagnostics, iff_of_true hcontinues.offset (mt hnames.mpr hname),
      fun _ => htext⟩

end Read

end Report

namespace WorkDirectory

open Report

theorem fileName?_snippetPath (w : WorkDirectory) (id : Nat) (dialect : Dialect) :
    (w.snippetPath id dialect).fileName? = some (WorkFile.snippetName id dialect) := by
  have hname := WorkFile.isName_snippetName id dialect
  by_cases hpath : w.path.text.toList = []
  · have hjoin : w.path.join ⟨WorkFile.snippetName id dialect⟩ =
        ⟨WorkFile.snippetName id dialect⟩ := by
      apply Path.ext_toList
      simp [Path.join, Path.isAbsolute_of_notMem hname.noSlash, hpath]
    rw [snippetPath, hjoin, ← String.ofList_toList (s := WorkFile.snippetName id dialect)]
    exact Path.fileName?_name hname
  · rw [snippetPath, Path.join_name hpath hname.noSlash, Disk.childPath,
      Path.fileName?_append hname, String.ofList_toList]

/-- An error is blamed on a snippet by the name of the file it is reported for. -/
theorem error_blamed_by_name (w : WorkDirectory) (id : Nat) (dialect : Dialect)
    (source : List Char) {path back output : List Char} {before after : List (List Char)}
    (hne : path ≠ []) (hback : IsPlace back)
    (houtput : Text.lines output = before ++ (path ++ back) :: after) :
    ∃ file d later, FileOf (path ++ back) file ∧ (¬ IsLocated path → file = path) ∧
      diagnostics (w.snippetPath id dialect) source output =
        (before.foldl (readLine (w.snippetPath id dialect) source) []).reverse ++ d :: later ∧
      BlamedByName (WorkFile.snippetName id dialect) (path ++ back) file d := by
  obtain ⟨file, hfile, hpath⟩ := exists_fileOf hne hback
  obtain ⟨d, later, hdiagnostics, hblamed⟩ :=
    hfile.blamedByName source (w.fileName?_snippetPath id dialect) houtput
  exact ⟨file, d, later, hfile, hpath, hdiagnostics, hblamed⟩

/-- A work directory in a package, and what is reported there for a file of the package. -/
def sample : WorkDirectory := { path := ⟨"/pkg/compiled-docs-Ab12cD"⟩, location := [] }

def samplePlace : List Char := "(10,3): error TS2304: Cannot find name 'foo'.".toList

def sampleOutput : List Char :=
  "src/index.ts(10,3): error TS2304: Cannot find name 'foo'.\n".toList

theorem error_blamed_by_name_index :
    "src/index.ts".toList ≠ [] ∧ IsPlace samplePlace ∧
      Text.lines sampleOutput = [] ++ ("src/index.ts".toList ++ samplePlace) :: [] ∧
      ∃ file d later, FileOf ("src/index.ts".toList ++ samplePlace) file ∧
        (¬ IsLocated "src/index.ts".toList → file = "src/index.ts".toList) ∧
        diagnostics (sample.snippetPath 1 .ts) [] sampleOutput =
          (([] : List (List Char)).foldl (readLine (sample.snippetPath 1 .ts) []) []).reverse ++
            d :: later ∧
        BlamedByName (WorkFile.snippetName 1 .ts) ("src/index.ts".toList ++ samplePlace) file
          d := by
  have hne : "src/index.ts".toList ≠ [] := by decide
  have hcode : IsNumber "2304".toList := ⟨by decide, List.all_eq_true.mp (by decide)⟩
  have hplace : IsPlace samplePlace :=
    ⟨"10".toList, "3".toList, "error TS2304: Cannot find name 'foo'.".toList,
      ⟨by decide, List.all_eq_true.mp (by decide)⟩, ⟨by decide, List.all_eq_true.mp (by decide)⟩,
      ⟨.error, "2304".toList, "Cannot find name 'foo'.".toList, hcode, rfl⟩, rfl⟩
  have houtput : Text.lines sampleOutput = [] ++ ("src/index.ts".toList ++ samplePlace) :: [] := by
    decide
  exact ⟨hne, hplace, houtput, sample.error_blamed_by_name 1 .ts [] hne hplace houtput⟩

/-- A file of the package that has the name of a snippet file is taken for it. -/
theorem error_blamed_on_namesake :
    ((⟨"/pkg"⟩ : Path).join ⟨"src/block-1.ts"⟩).components ≠
        (sample.snippetPath 1 .ts).components ∧
      diagnostics (sample.snippetPath 1 .ts) "const a = 1;\n".toList
          "src/block-1.ts(10,3): error TS2304: Cannot find name 'foo'.\n".toList =
        [{ offset := some 13, code := some 2304
           text := "error TS2304: Cannot find name 'foo'." }] := by
  decide +kernel

end WorkDirectory

end DocSnippets
