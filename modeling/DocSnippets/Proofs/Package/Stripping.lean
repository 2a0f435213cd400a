import DocSnippets.Proofs.Package.Selection

/-!
# What a resolved path has lost

Of the declared path that serves a request, resolution takes off one leading `./` and one source
extension, the longest that ends it. Nothing is taken off twice: a path that is declared with two of
them, or gets the second one from the request, keeps one.
-/

namespace DocSnippets

namespace Resolution

/-- A path and what is left of it without one leading `./`. -/
inductive LosesLead : List Char → List Char → Prop where
  | lead (rest : List Char) : LosesLead (['.', '/'] ++ rest) rest
  | bare {path} (hbare : ¬ ['.', '/'] <+: path) : LosesLead path path

/-- A path and what is left of it without one source extension. -/
inductive LosesEnding : List Char → List Char → Prop where
  | source {rest ending} (hsource : ending ∈ sourceExtensions)
      (hlongest : ∀ other ∈ sourceExtensions, other <:+ rest ++ ending →
        other.length ≤ ending.length) : LosesEnding (rest ++ ending) rest
  | bare {path} (hbare : ∀ ending ∈ sourceExtensions, ¬ ending <:+ path) : LosesEnding path path

theorem noSlash_of_sourceExtension : ∀ ending ∈ sourceExtensions, '/' ∉ ending := by decide

/-- Of two extensions that end one path the earlier one in the list is the longer one. -/
theorem sourceExtensions_pairwise : sourceExtensions.Pairwise fun a b => ¬ a <:+ b := by decide

/-- Behind another extension only the whole of an extension is one: `.d` never precedes `.ts`. -/
theorem eq_of_suffix_append : ∀ inner ∈ sourceExtensions, ∀ outer ∈ sourceExtensions,
    ∀ ending ∈ sourceExtensions, outer <:+ ending →
      ending <:+ inner ++ outer ∨ inner ++ outer <:+ ending → outer = ending := by
  decide

theorem dropEnding?_eq_some_iff {ending text rest : List Char} :
    dropEnding? ending text = some rest ↔ text = rest ++ ending := by
  rw [dropEnding?]
  constructor
  · intro h
    split at h
    · next hsuffix =>
      obtain ⟨front, rfl⟩ := List.isSuffixOf_iff_suffix.mp hsuffix
      rw [List.length_append, Nat.add_sub_cancel, List.take_left] at h
      rw [Option.some.inj h]
    · cases h
  · rintro rfl
    rw [if_pos (List.isSuffixOf_iff_suffix.mpr (List.suffix_append rest ending)),
      List.length_append, Nat.add_sub_cancel, List.take_left]

theorem dropEnding?_eq_none_iff {ending text : List Char} :
    dropEnding? ending text = none ↔ ¬ ending <:+ text := by
  rw [Option.eq_none_iff_forall_ne_some]
  constructor
  · rintro h ⟨rest, rfl⟩
    exact h rest (dropEnding?_eq_some_iff.mpr rfl)
  · intro h rest hrest
    exact h ⟨rest, (dropEnding?_eq_some_iff.mp hrest).symm⟩

theorem losesLead_isPrefixOf? (path : List Char) :
    LosesLead path ((['.', '/'].isPrefixOf? path).getD path) := by
  cases hrest : ['.', '/'].isPrefixOf? path with
  | some rest =>
    obtain rfl := Text.eq_append_of_isPrefixOf? hrest
    exact .lead rest
  | none =>
    refine .bare ?_
    rw [← List.isPrefixOf_iff_prefix, ← List.isSome_isPrefixOf?_eq_isPrefixOf, hrest]
    exact Bool.false_ne_true

theorem losesEnding_findSome? (path : List Char) :
    LosesEnding path
      ((sourceExtensions.findSome? fun ending => dropEnding? ending path).getD path) := by
  cases hrest : sourceExtensions.findSome? fun ending => dropEnding? ending path with
  | some rest =>
    obtain ⟨higher, ending, lower, hlist, hending, hhigher⟩ := List.findSome?_eq_some_iff.mp hrest
    obtain rfl := dropEnding?_eq_some_iff.mp hending
    refine .source (hlist ▸ List.mem_append_right _ List.mem_cons_self) fun other hother hends => ?_
    have hordered := sourceExtensions_pairwise
    rw [hlist] at hother hordered
    rcases List.mem_append.mp hother with hother | hother
    · exact absurd hends (dropEnding?_eq_none_iff.mp (hhigher other hother))
    · rcases List.mem_cons.mp hother with rfl | hother
      · exact Nat.le_refl _
      · -- A later extension that ends the path too is an end of this one.
        have hlater := (List.pairwise_cons.mp (List.pairwise_append.mp hordered).2.1).1 other hother
        rcases List.suffix_or_suffix_of_suffix hends (List.suffix_append rest ending) with h | h
        · exact h.length_le
        · exact absurd h hlater
  | none =>
    refine .bare fun ending hsource => ?_
    exact dropEnding?_eq_none_iff.mp (List.findSome?_eq_none_iff.mp hrest ending hsource)

theorem normalize_loses (path : List Char) :
    ∃ rest, LosesLead path rest ∧ LosesEnding rest (normalize path) :=
  ⟨_, losesLead_isPrefixOf? path, losesEnding_findSome? _⟩

variable {path rest : List Char}

theorem LosesLead.prefix_iff (h : LosesLead path rest) :
    ['.', '/'] <+: rest ↔ ['.', '/', '.', '/'] <+: path := by
  cases h with
  | lead => exact (List.prefix_append_right_inj ['.', '/']).symm
  | bare hbare => exact iff_of_false hbare fun h => hbare ((List.prefix_append _ _).trans h)

theorem LosesLead.suffix_iff (h : LosesLead path rest) {ending : List Char}
    (hplain : '/' ∉ ending) :
    ending <:+ rest ↔ ending <:+ path := by
  cases h with
  | lead =>
    refine ⟨fun h => h.trans (List.suffix_append _ _), fun h => ?_⟩
    rcases List.suffix_cons_iff.mp h with rfl | h
    · exact absurd (by simp) hplain
    · rcases List.suffix_cons_iff.mp h with rfl | h
      · exact absurd (by simp) hplain
      · exact h
  | bare hbare => rfl

theorem LosesEnding.prefix_iff (h : LosesEnding path rest) :
    ['.', '/'] <+: rest ↔ ['.', '/'] <+: path := by
  cases h with
  | @source rest ending hsource hlongest =>
    refine ⟨fun h => h.trans (List.prefix_append _ _), fun ⟨tail, htail⟩ => ?_⟩
    rcases List.append_eq_append_iff.mp htail with ⟨middle, rfl, -⟩ | ⟨middle, hlead, rfl⟩
    · exact List.prefix_append _ _
    · -- An extension has no slash, so it begins behind the lead.
      have hmiddle : middle = [] := by
        rcases List.eq_nil_or_concat middle with hnil | ⟨front, c, rfl⟩
        · exact hnil
        · have hpair : ['.'] ++ ['/'] = (rest ++ front) ++ [c] := by
            rwa [List.concat_eq_append, ← List.append_assoc] at hlead
          obtain rfl := List.singleton_inj.mp (List.append_inj_right' hpair rfl)
          exact absurd (by simp) (noSlash_of_sourceExtension _ hsource)
      rw [hlead, hmiddle, List.append_nil]
  | bare hbare => rfl

theorem LosesEnding.suffix_iff (h : LosesEnding path rest) :
    (∃ ending ∈ sourceExtensions, ending <:+ rest) ↔
      ∃ inner ∈ sourceExtensions, ∃ outer ∈ sourceExtensions, inner ++ outer <:+ path := by
  cases h with
  | @source rest ending hsource hlongest =>
    constructor
    · rintro ⟨inner, hinner, front, rfl⟩
      exact ⟨inner, hinner, ending, hsource, front, (List.append_assoc _ _ _).symm⟩
    · rintro ⟨inner, hinner, outer, houter, hends⟩
      have houterEnds : outer <:+ rest ++ ending := (List.suffix_append inner outer).trans hends
      have hshort : outer <:+ ending :=
        List.suffix_of_suffix_length_le houterEnds (List.suffix_append rest ending)
          (hlongest outer houter houterEnds)
      obtain rfl : outer = ending := eq_of_suffix_append inner hinner outer houter ending hsource
        hshort (List.suffix_or_suffix_of_suffix (List.suffix_append rest ending) hends)
      obtain ⟨front, hfront⟩ := hends
      rw [← List.append_assoc] at hfront
      exact ⟨inner, hinner, front, List.append_cancel_right hfront⟩
  | bare hbare =>
    refine iff_of_false (fun ⟨ending, hsource, hends⟩ => hbare ending hsource hends) ?_
    rintro ⟨inner, -, outer, houter, hends⟩
    exact hbare outer houter ((List.suffix_append inner outer).trans hends)

end Resolution

namespace EntryPoints

theorem resolve_eq_ok_iff {e : EntryPoints} {subpath : Option (List Char)} {path : List Char} :
    e.resolve subpath = .ok path ↔ ∃ leaf,
      e.Serves (Resolution.requestKey (Resolution.requested subpath)) leaf ∧
        path = Resolution.normalize leaf := by
  simp only [← path?_eq_some_iff]
  rw [resolve]
  cases e.path? (Resolution.requestKey (Resolution.requested subpath)) with
  | none => simp
  | some leaf => simp [eq_comm]

/-- A resolved path is a path that serves the request without one leading `./` and without one
source extension. It still starts with `./` exactly if that path starts with it twice, and still
ends in a source extension exactly if that path ends in two of them. -/
theorem resolve_stripped_once {e : EntryPoints} {subpath : Option (List Char)} {path : List Char}
    (h : e.resolve subpath = .ok path) :
    ∃ leaf rest, e.Serves (Resolution.requestKey (Resolution.requested subpath)) leaf ∧
      Resolution.LosesLead leaf rest ∧ Resolution.LosesEnding rest path ∧
      (['.', '/'] <+: path ↔ ['.', '/', '.', '/'] <+: leaf) ∧
      ((∃ ending ∈ Resolution.sourceExtensions, ending <:+ path) ↔
        ∃ inner ∈ Resolution.sourceExtensions, ∃ outer ∈ Resolution.sourceExtensions,
          inner ++ outer <:+ leaf) := by
  obtain ⟨leaf, hserves, rfl⟩ := resolve_eq_ok_iff.mp h
  obtain ⟨rest, hlead, hending⟩ := Resolution.normalize_loses leaf
  refine ⟨leaf, rest, hserves, hlead, hending, hending.prefix_iff.trans hlead.prefix_iff,
    hending.suffix_iff.trans ?_⟩
  refine exists_congr fun inner => and_congr_right fun hinner => exists_congr fun outer =>
    and_congr_right fun houter => hlead.suffix_iff fun hslash => ?_
  rcases List.mem_append.mp hslash with hslash | hslash
  · exact Resolution.noSlash_of_sourceExtension inner hinner hslash
  · exact Resolution.noSlash_of_sourceExtension outer houter hslash

/-- A package that serves every file of a directory. -/
def wildcardEntry : EntryPoints where
  package := "my-lib"
  main := none
  exports := some (.map [("./*", .path "./src/*.ts")])

theorem resolve_stripped_once_wildcard :
    wildcardEntry.resolve (some "/util".toList) = .ok "src/util".toList ∧
      ∃ leaf rest, wildcardEntry.Serves "./util".toList leaf ∧ Resolution.LosesLead leaf rest ∧
        Resolution.LosesEnding rest "src/util".toList ∧
        (['.', '/'] <+: "src/util".toList ↔ ['.', '/', '.', '/'] <+: leaf) ∧
        ((∃ ending ∈ Resolution.sourceExtensions, ending <:+ "src/util".toList) ↔
          ∃ inner ∈ Resolution.sourceExtensions, ∃ outer ∈ Resolution.sourceExtensions,
            inner ++ outer <:+ leaf) := by
  have hresolved : wildcardEntry.resolve (some "/util".toList) = .ok "src/util".toList := by
    decide +kernel
  exact ⟨hresolved, resolve_stripped_once hresolved⟩

/-- A request with an extension keeps it: only the one of the target is taken off. -/
theorem resolve_keeps_requested_extension :
    wildcardEntry.resolve (some "/util.js".toList) = .ok "src/util.js".toList ∧
      ".js".toList ∈ Resolution.sourceExtensions ∧ ".js".toList <:+ "src/util.js".toList := by
  decide +kernel

end EntryPoints

end DocSnippets
