import DocSnippets.Proofs.Snippet.Literal
import DocSnippets.Proofs.Snippet.Segments

/-!
# What a self-import denotes

Between its quotes a localized self-import has the path that serves it, with backslashes doubled.
Read as a string literal it denotes this path, unless the path holds the quote or the end of a line:
those are not escaped, and the literal is broken.
-/

namespace DocSnippets.Snippet

open Text

/-- The path of the file that serves a self-import. -/
def servedPath? (package : Package) (subpath : Option (List Char)) :
    Except ResolutionError Path :=
  (package.entryPoints.resolve subpath).map fun path => package.root.join ⟨String.ofList path⟩

theorem localPath_eq (package : Package) (subpath : Option (List Char)) :
    localPath package subpath = (servedPath? package subpath).map fun path =>
      path.text.toList.flatMap fun c => if c = '\\' then ['\\', '\\'] else [c] := by
  unfold localPath servedPath?
  cases package.entryPoints.resolve subpath with
  | error e => rfl
  | ok path => simp only [Except.map, replaceAll_singleton]

/-- How a self-import stands in the output: between two equal quotes, with a piece of text that is a
literal for the path that serves it, or no literal at all where the path holds the quote or the end
of a line. -/
structure Denotes (package : Package) (before : List Segment) (subpath : Option (List Char))
    (after : List Segment) (head : List Char) (quote : Char) (piece tail : List Char) : Prop where
  quoted : isQuote quote = true
  before : localizeSegments package before = .ok (head ++ [quote])
  after : localizeSegments package after = .ok (quote :: tail)
  value : ∃ path, servedPath? package subpath = .ok path ∧
    Literal.value? quote piece =
      if path.text.toList.any (Literal.isEnd quote) then none else some (units path.text.toList)

theorem candidate?_quote_ne {name text : List Char} {k : Candidate}
    (h : candidate? name text = some k) : k.opening ≠ '\\' := by
  intro hslash
  have hquote := candidate?_opening h
  rw [hslash] at hquote
  exact absurd hquote (by decide)

theorem value?_localPath {package : Package} {subpath : Option (List Char)} {piece : List Char}
    (h : localPath package subpath = .ok piece) {quote : Char} (hquote : quote ≠ '\\') :
    ∃ path, servedPath? package subpath = .ok path ∧
      Literal.value? quote piece =
        if path.text.toList.any (Literal.isEnd quote) then none
        else some (units path.text.toList) := by
  rw [localPath_eq] at h
  cases hserved : servedPath? package subpath with
  | error e =>
    rw [hserved] at h
    cases h
  | ok path =>
    rw [hserved] at h
    obtain rfl := Except.ok.inj h
    exact ⟨path, rfl, Literal.value?_doubled hquote path.text.toList⟩

/-- Every self-import of a localized snippet denotes the path that serves it, as far as the path can
stand in a literal. -/
theorem localize_denotes {package : Package} {source output : List Char}
    {before after : List Segment} {n : List Char} {subpath : Option (List Char)}
    (hsegments : segments package.name.toList source = before ++ .specifier n subpath :: after)
    (h : localize package source = .ok output) :
    ∃ head quote piece tail, output = head ++ quote :: (piece ++ quote :: tail) ∧
      Denotes package before subpath after head quote piece tail := by
  obtain ⟨text, k, front, rest, hk, hquotes, -, -, rfl, rfl⟩ :=
    ofCandidate_of_segmentsFrom hsegments
  rw [localize, hsegments] at h
  obtain ⟨opened, closed, hopened, hclosed, rfl⟩ := localizeSegments_append h
  obtain ⟨piece, ending, hpiece, hending, rfl⟩ := localizeSegments_cons hclosed
  obtain ⟨head, lead, hhead, hlead, rfl⟩ := localizeSegments_append hopened
  -- Both quotes are ends of verbatim segments.
  obtain ⟨lead, nothing, hverbatim, hnothing, rfl⟩ := localizeSegments_cons hlead
  obtain rfl := Except.ok.inj hverbatim
  obtain rfl := Except.ok.inj hnothing
  obtain ⟨quote, tail, hquote, htail, rfl⟩ := localizeSegments_cons hending
  obtain rfl := Except.ok.inj hquote
  have hopening : head ++ (k.lead ++ [k.opening] ++ []) = (head ++ k.lead) ++ [k.opening] := by simp
  rw [hopening] at hopened
  rw [← hquotes, List.singleton_append] at hending
  refine ⟨head ++ k.lead, k.opening, piece, tail, ?_, candidate?_opening hk, hopened, ?_,
    value?_localPath hpiece (candidate?_quote_ne hk)⟩
  · rw [← hquotes]
    simp
  · rwa [← hquotes]

/-- A package in a given directory, served by one file. -/
def packageIn (root : String) : Package :=
  { name := "awesome", main := some "index.ts", root := ⟨root⟩, exports := none }

theorem localize_denotes_backslash :
    segments "awesome".toList "import 'awesome'".toList =
        [.verbatim "import '".toList] ++ .specifier "awesome".toList none :: [.verbatim ['\'']] ∧
      localize (packageIn "/home/o\\neil") "import 'awesome'".toList =
        .ok "import '/home/o\\\\neil/index'".toList ∧
      ∃ head quote piece tail,
        "import '/home/o\\\\neil/index'".toList = head ++ quote :: (piece ++ quote :: tail) ∧
        Denotes (packageIn "/home/o\\neil") [.verbatim "import '".toList] none [.verbatim ['\'']]
          head quote piece tail := by
  have hsegments : segments "awesome".toList "import 'awesome'".toList =
      [.verbatim "import '".toList] ++ .specifier "awesome".toList none :: [.verbatim ['\'']] := by
    decide +kernel
  have hlocalize : localize (packageIn "/home/o\\neil") "import 'awesome'".toList =
      .ok "import '/home/o\\\\neil/index'".toList := by
    decide +kernel
  exact ⟨hsegments, hlocalize, localize_denotes hsegments hlocalize⟩

/-- In a directory with an apostrophe the path ends its literal early. -/
theorem localize_broken_by_apostrophe :
    localize (packageIn "/home/o'neil") "import 'awesome'".toList =
        .ok "import '/home/o'neil/index'".toList ∧
      servedPath? (packageIn "/home/o'neil") none = .ok ⟨"/home/o'neil/index"⟩ ∧
      Literal.value? '\'' "/home/o'neil/index".toList = none := by
  decide +kernel

end DocSnippets.Snippet
