import DocSnippets.Proofs.Package.Stripping
import DocSnippets.Proofs.Path.Lexical

/-!
# What leads a resolved path out of its package

A path that serves a request is a declared one with a segment of the request in place of its stars.
Where every declared path goes downward, so does the resolved one, unless the segment brings in a
dot or a slash, the second slash of `.//` comes to stand first, or two dots are left of a name that
ended in a source extension.
-/

namespace DocSnippets

open Text

namespace Resolution

theorem Leads.declares {target : ExportTarget} {text : String} (h : Leads target text) :
    target.Declares text := by
  induction h with
  | path text => exact .path text
  | condition hkeys hchosen hnext ih =>
    obtain ⟨-, hdeclared, -, -⟩ := hchosen
    exact .entry (mem_of_lookup hdeclared) ih

/-- What stands for the stars of a path, if anything does, is a nonempty piece of the request. -/
def FromRequest (request : List Char) (segment : Option (List Char)) : Prop :=
  ∀ piece, segment = some piece → piece ≠ [] ∧ piece <:+: request

theorem Fits.infix {pattern request lead segment : List Char}
    (h : Fits pattern request lead segment) : segment ≠ [] ∧ segment <:+: request := by
  cases h with
  | @intro lead segment tail hlead htail hsegment =>
    exact ⟨hsegment, lead, tail, List.append_assoc _ _ _⟩

theorem Taken.fromRequest {request : List Char} {entries : List (String × ExportTarget)}
    {segment : Option (List Char)} {target : ExportTarget}
    (h : Taken request entries segment target) :
    FromRequest request segment ∧ ∃ key, (key, target) ∈ entries := by
  cases h with
  | equal hkey => exact ⟨nofun, _, mem_of_lookup hkey⟩
  | pattern hunequal hentries hfits hearlier hlater =>
    refine ⟨?_, _, hentries ▸ List.mem_append_right _ List.mem_cons_self⟩
    rintro piece ⟨⟩
    exact hfits.infix

/-- A served path is a declared one, filled with a piece of the request. -/
theorem Serves.filled {request : List Char} {target : ExportTarget} {path : List Char}
    (h : Serves request target path) : ∃ text segment, target.Declares text ∧
      FromRequest request segment ∧ path = filled segment text.toList := by
  induction h with
  | @root text hroot => exact ⟨text, none, .path text, nofun, rfl⟩
  | condition hkeys hchosen hnext ih =>
    obtain ⟨-, hdeclared, -, -⟩ := hchosen
    obtain ⟨text, segment, hdeclares, hsegment, hpath⟩ := ih
    exact ⟨text, segment, .entry (mem_of_lookup hdeclared) hdeclares, hsegment, hpath⟩
  | entry hkeys htaken hleads =>
    obtain ⟨hsegment, key, hmem⟩ := htaken.fromRequest
    exact ⟨_, _, .entry hmem hleads.declares, hsegment, rfl⟩

/-- A segment that is a part of a name, without a dot and without a slash. -/
structure Plain (segment : List Char) : Prop where
  ne_nil : segment ≠ []
  noDot : '.' ∉ segment
  noSlash : '/' ∉ segment

/-- One character of a path, filled. -/
def fill (segment : List Char) (c : Char) : List Char := if c = '*' then segment else [c]

theorem filled_some (segment path : List Char) :
    filled (some segment) path = path.flatMap (fill segment) := rfl

theorem filled_of_notMem {path : List Char} (h : '*' ∉ path) (segment : Option (List Char)) :
    filled segment path = path := by
  cases segment with
  | none => rfl
  | some segment =>
    have hkept : ∀ c ∈ path, fill segment c = [c] := by
      intro c hc
      have hstar : c ≠ '*' := fun heq => h (heq ▸ hc)
      rw [fill, if_neg hstar]
    rw [filled_some, List.flatMap_congr hkept, List.flatMap_singleton']

variable {segment : List Char}

/-- What a filled path starts with and the segment cannot give, the declared path starts with. -/
theorem prefix_of_filled (hsegment : segment ≠ []) {lead path : List Char}
    (hlead : ∀ c ∈ lead, c ∉ segment) (h : lead <+: filled (some segment) path) :
    lead <+: path := by
  induction lead generalizing path with
  | nil => exact List.nil_prefix
  | cons c lead ih =>
    cases path with
    | nil => exact absurd (List.prefix_nil.mp h) (List.cons_ne_nil c lead)
    | cons d path =>
      rw [filled_some, List.flatMap_cons, fill] at h
      by_cases hstar : d = '*'
      · rw [if_pos hstar] at h
        cases segment with
        | nil => exact absurd rfl hsegment
        | cons s segment =>
          obtain rfl := (List.cons_prefix_cons.mp h).1
          exact absurd List.mem_cons_self (hlead c List.mem_cons_self)
      · rw [if_neg hstar, List.singleton_append] at h
        obtain ⟨rfl, htail⟩ := List.cons_prefix_cons.mp h
        exact List.cons_prefix_cons.mpr
          ⟨rfl, ih (fun c hc => hlead c (List.mem_cons_of_mem _ hc)) htail⟩

/-- A segment without a slash is filled in part by part. -/
theorem splitOn_filled (hslash : '/' ∉ segment) (path : List Char) :
    splitOn '/' (filled (some segment) path) =
      (splitOn '/' path).map fun part => filled (some segment) part := by
  simp only [filled_some]
  induction path with
  | nil => rfl
  | cons c path ih =>
    rw [List.flatMap_cons, splitOn]
    by_cases hc : c = '/'
    · subst hc
      rw [if_pos rfl, fill, if_neg (by decide), List.singleton_append, splitOn, if_pos rfl, ih]
      rfl
    · have hfill : '/' ∉ fill segment c := by
        rw [fill]
        split
        · exact hslash
        · simpa using Ne.symm hc
      rw [if_neg hc, splitOn_append_of_notMem hfill, ih]
      cases hparts : splitOn '/' path with
      | nil => exact absurd hparts (splitOn_ne_nil '/' path)
      | cons part parts => simp [List.flatMap_cons]

theorem eq_dots_of_filled (h : Plain segment) {part : List Char}
    (hpart : filled (some segment) part = ['.', '.']) : part = ['.', '.'] := by
  have hstar : '*' ∉ part := by
    intro hmem
    obtain ⟨c, hc⟩ := List.exists_mem_of_ne_nil segment h.ne_nil
    have hdots : c ∈ filled (some segment) part :=
      List.mem_flatMap.mpr ⟨'*', hmem, by simpa using hc⟩
    rw [hpart] at hdots
    obtain rfl : c = '.' := by simpa using hdots
    exact h.noDot hc
  rwa [filled_of_notMem hstar] at hpart

/-- The ways in which a resolved path can lead out of a package, though no declared path does. -/
inductive WayOut (declared : List Char) (segment : Option (List Char)) : Prop where
  | segment {piece} (hsegment : segment = some piece) (hstar : '*' ∈ declared)
      (hmarks : '.' ∈ piece ∨ '/' ∈ piece) : WayOut declared segment
  | slash (hlead : ['.', '/', '/'] <+: declared) : WayOut declared segment
  | dots {ending} (hsource : ending ∈ sourceExtensions)
      (hlast : (splitOn '/' (filled segment declared)).getLast? = some (['.', '.'] ++ ending)) :
      WayOut declared segment

/-- Filling a path that goes downward with a plain segment leaves it so. -/
theorem downward_filled {path : List Char} (h : (⟨String.ofList path⟩ : Path).Downward)
    (hplain : Plain segment) :
    (⟨String.ofList (filled (some segment) path)⟩ : Path).Downward := by
  obtain ⟨hrelative, hparts⟩ := Path.downward_ofList_iff.mp h
  rw [Path.downward_ofList_iff, splitOn_filled hplain.noSlash]
  constructor
  · intro hlead
    exact hrelative (prefix_of_filled hplain.ne_nil (by simpa using hplain.noSlash) hlead)
  · intro hmem
    obtain ⟨part, hpart, hdots⟩ := List.mem_map.mp hmem
    rw [eq_dots_of_filled hplain hdots] at hpart
    exact hparts hpart

variable {leaf rest path : List Char}

theorem splitOn_lead (rest : List Char) :
    splitOn '/' (['.', '/'] ++ rest) = ['.'] :: splitOn '/' rest :=
  splitOn_append_cons '/' ['.'] rest

theorem LosesLead.downward (h : LosesLead leaf rest)
    (hleaf : (⟨String.ofList leaf⟩ : Path).Downward) (hslash : ¬ ['.', '/', '/'] <+: leaf) :
    (⟨String.ofList rest⟩ : Path).Downward := by
  cases h with
  | lead =>
    obtain ⟨-, hparts⟩ := Path.downward_ofList_iff.mp hleaf
    rw [splitOn_lead] at hparts
    refine Path.downward_ofList_iff.mpr ⟨fun hrest => ?_, fun hmem => ?_⟩
    · exact hslash ((List.prefix_append_right_inj ['.', '/']).mpr hrest)
    · exact hparts (List.mem_cons_of_mem _ hmem)
  | bare => exact hleaf

theorem LosesLead.getLast? (h : LosesLead leaf rest) :
    (splitOn '/' leaf).getLast? = (splitOn '/' rest).getLast? := by
  cases h with
  | lead =>
    rw [splitOn_lead]
    cases hrest : splitOn '/' rest with
    | nil => exact absurd hrest (splitOn_ne_nil '/' rest)
    | cons part parts => rfl
  | bare => rfl

theorem LosesEnding.downward (h : LosesEnding rest path)
    (hrest : (⟨String.ofList rest⟩ : Path).Downward)
    (hdots : ∀ ending ∈ sourceExtensions,
      (splitOn '/' rest).getLast? ≠ some (['.', '.'] ++ ending)) :
    (⟨String.ofList path⟩ : Path).Downward := by
  cases h with
  | @source path ending hsource hlongest =>
    obtain ⟨parts, last, hparts, hlonger⟩ :=
      splitOn_append_ending (noSlash_of_sourceExtension ending hsource) path
    obtain ⟨hrelative, hnone⟩ := Path.downward_ofList_iff.mp hrest
    have hlast := hdots ending hsource
    rw [hlonger] at hnone hlast
    rw [Path.downward_ofList_iff, hparts]
    refine ⟨fun hslash => hrelative (hslash.trans (List.prefix_append path ending)), ?_⟩
    intro hmem
    rcases List.mem_append.mp hmem with hmem | hmem
    · exact hnone (List.mem_append_left _ hmem)
    · obtain rfl := List.mem_singleton.mp hmem
      exact hlast List.getLast?_concat
  | bare => exact hrest

/-- Filled with a plain segment, or with nothing, a path goes downward if it did, and starts with
`.//` only if it did. -/
theorem filled_of_plain {declared : List Char} {segment : Option (List Char)}
    (hplain : ∀ piece, segment = some piece → '*' ∈ declared → Plain piece)
    (hdeclared : (⟨String.ofList declared⟩ : Path).Downward) :
    (⟨String.ofList (filled segment declared)⟩ : Path).Downward ∧
      (['.', '/', '/'] <+: filled segment declared → ['.', '/', '/'] <+: declared) := by
  by_cases hstar : '*' ∈ declared
  · cases segment with
    | none => exact ⟨hdeclared, id⟩
    | some piece =>
      have hpiece := hplain piece rfl hstar
      refine ⟨downward_filled hdeclared hpiece, prefix_of_filled hpiece.ne_nil ?_⟩
      simp [hpiece.noDot, hpiece.noSlash]
  · rw [filled_of_notMem hstar]
    exact ⟨hdeclared, id⟩

/-- Where the declared path goes downward, the resolved one does too, or has a way out. -/
theorem downward_or_wayOut {declared : List Char} {segment : Option (List Char)}
    (hdeclared : (⟨String.ofList declared⟩ : Path).Downward)
    (hsegment : ∀ piece, segment = some piece → piece ≠ []) :
    (⟨String.ofList (normalize (filled segment declared))⟩ : Path).Downward ∨
      WayOut declared segment := by
  by_cases hout : WayOut declared segment
  · exact .inr hout
  · have hplain : ∀ piece, segment = some piece → '*' ∈ declared → Plain piece :=
      fun piece hpiece hstar => ⟨hsegment piece hpiece,
        fun hdot => hout (.segment hpiece hstar (.inl hdot)),
        fun hslash => hout (.segment hpiece hstar (.inr hslash))⟩
    obtain ⟨hfilled, hslash⟩ := filled_of_plain hplain hdeclared
    obtain ⟨rest, hlead, hending⟩ := normalize_loses (filled segment declared)
    have hrest := hlead.downward hfilled fun h => hout (.slash (hslash h))
    refine .inl (hending.downward hrest fun ending hsource hlast => ?_)
    rw [← hlead.getLast?] at hlast
    exact hout (.dots hsource hlast)

end Resolution

namespace EntryPoints

theorem Serves.filled {e : EntryPoints} {request path : List Char} (h : e.Serves request path) :
    ∃ text segment, e.Declares text ∧ Resolution.FromRequest request segment ∧
      path = Resolution.filled segment text.toList := by
  cases h with
  | @main text hexports hroot hmain => exact ⟨text, none, .inl hmain, nofun, rfl⟩
  | @exports target path hexports hserves =>
    obtain ⟨text, segment, hdeclares, hsegment, hpath⟩ := hserves.filled
    exact ⟨text, segment, .inr ⟨target, hexports, hdeclares⟩, hsegment, hpath⟩

end EntryPoints

end DocSnippets
