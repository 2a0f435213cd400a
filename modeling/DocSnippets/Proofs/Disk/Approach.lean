import DocSnippets.Proofs.Disk.Relocation

/-!
# Approaching a directory

The parts of a directory's path stand at the front of the patterns in it. A search follows them to
the directory, by a path that has the same components and is not longer, and goes on from there.
-/

namespace DocSnippets.Disk

open Text
open Path (Component component?)

variable {d : Disk} {m : Location} {p : Path} {text : List Char} {texts : List (List Char)}

theorem find_join_text (h : d.find p = .ok (m, .directory)) (hslash : '/' ∉ text)
    (hnul : '\x00' ∉ text)
    (hfits : byteLength (p.join ⟨String.ofList text⟩).text.toList ≤ pathLimit)
    (hpass : d.Passable m ([text].filterMap component?)) :
    d.find (p.join ⟨String.ofList text⟩) =
      .ok (([text].filterMap component?).foldl Component.enter m, .directory) := by
  obtain ⟨hwalk, hentry⟩ := walk_directory_iff.mpr ⟨hpass, rfl⟩
  have hfault := (locate_eq_ok_iff.mp (find_eq_ok_iff.mp h).1).1
  have hrelative := Path.isAbsolute_ofList hslash
  rw [find_eq_ok_iff, locate_join h hrelative, pathFault?_join hfault hrelative]
  dsimp only
  rw [String.toList_ofList, splitOn_of_notMem hslash]
  exact ⟨⟨⟨hnul, hfits⟩, hwalk⟩, hentry⟩

theorem passable_cons : d.Passable m ((text :: texts).filterMap component?) ↔
    d.Passable m ([text].filterMap component?) ∧
      d.Passable (([text].filterMap component?).foldl Component.enter m)
        (texts.filterMap component?) := by
  rw [← passable_append_iff, ← List.filterMap_append, List.singleton_append]

theorem find_text (hslash : '/' ∉ text) (hnul : '\x00' ∉ text) (hne : text ≠ [])
    (hfits : byteLength text ≤ pathLimit)
    (hpass : d.Passable d.current ([text].filterMap component?)) :
    d.find ⟨String.ofList text⟩ =
      .ok (([text].filterMap component?).foldl Component.enter d.current, .directory) := by
  obtain ⟨hwalk, hentry⟩ := walk_directory_iff.mpr ⟨hpass, rfl⟩
  have horigin : d.origin ⟨String.ofList text⟩ = d.current := by
    rw [origin, Path.isAbsolute_ofList hslash]
    rfl
  rw [find_eq_ok_iff, locate_eq_ok_iff, horigin, pathFault?_eq_none_iff]
  dsimp only
  rw [String.toList_ofList, splitOn_of_notMem hslash]
  exact ⟨⟨⟨hnul, hne, hfits⟩, hwalk⟩, hentry⟩

namespace Glob

/-- The length of parts with a slash each. -/
def reach (texts : List (List Char)) : Nat := (texts.map fun t => byteLength t + 1).sum

theorem reach_cons (text : List Char) (texts : List (List Char)) :
    reach (text :: texts) = byteLength text + 1 + reach texts := by
  rw [reach, List.map_cons, List.sum_cons]
  rfl

theorem reach_splitOn (text : List Char) : reach (splitOn '/' text) = byteLength text + 1 :=
  byteLength_splitOn '/' text

theorem room_map_partOf_le {tokens : List (List WildToken)}
    (h : texts.mapM Wildcard.tokens? = some tokens) : room (tokens.map partOf) ≤ reach texts := by
  induction texts generalizing tokens with
  | nil =>
    obtain rfl := Option.some.inj h
    exact Nat.le_refl _
  | cons text texts ih =>
    rw [List.mapM_cons] at h
    obtain ⟨first, hfirst, hbehind⟩ := Option.bind_eq_some_iff.mp h
    obtain ⟨rest, hrest, htokens⟩ := Option.bind_eq_some_iff.mp hbehind
    obtain rfl := Option.some.inj htokens
    have hle := ih hrest
    rw [reach_cons, List.map_cons]
    cases hpart : partOf first with
    | plain text' =>
      rw [room, eq_of_partOf hfirst hpart]
      omega
    | wild tokens => exact Nat.le_add_left_of_le hle
    | anyDepth => exact Nat.le_add_left_of_le hle

theorem reach_splitParts_le (text : List Char) : reach (splitParts text) ≤ byteLength text + 1 := by
  rw [← reach_splitOn, splitParts]
  split
  · next hlast =>
    obtain ⟨front, hfront⟩ := List.getLast?_eq_some_iff.mp hlast
    rw [hfront, List.dropLast_concat]
    simp [reach]
  · exact Nat.le_refl _

/-- The parts without wildcards are not longer than the pattern. -/
theorem room_parts_le {g : Glob} (h : ofText? text = some g) :
    room g.parts ≤ byteLength text + 1 := by
  rw [ofText?_eq] at h
  obtain ⟨-, -, hbehind⟩ := Option.bind_eq_some_iff.mp h
  obtain ⟨tokens, htokens, rfl⟩ := Option.map_eq_some_iff.mp hbehind
  have hbody : byteLength (body text) ≤ byteLength text := by
    rw [body]
    split
    · next hhead =>
      obtain ⟨rest, rfl⟩ := List.head?_eq_some_iff.mp hhead
      exact Nat.le_add_left _ _
    · exact Nat.le_refl _
  have hroom := room_map_partOf_le htokens
  have hreach := reach_splitParts_le (body text)
  dsimp only
  omega

theorem search_plain_of_directory {parts : List GlobPart} (hp : d.isDirectory p = true)
    (hnext : d.isDirectory (below p (String.ofList text)) = true) :
    search d p (.plain text :: parts) = search d (below p (String.ofList text)) parts := by
  obtain ⟨m, hfind⟩ := isDirectory_iff.mp hnext
  have hthere := isThere_iff.mpr ⟨_, hfind⟩
  rw [search]
  simp [hp, hthere]

/-- A directory that a search reaches by parts without wildcards. -/
structure Reached (d : Disk) (p b : Path) (texts : List (List Char)) (limit : Nat) : Prop where
  directory : ∃ m, d.find b = .ok (m, .directory)
  not_same : ¬ b.same ⟨"."⟩ = true
  short : byteLength b.text.toList ≤ limit
  search : ∀ parts, search d p (texts.map .plain ++ parts) = search d b parts

theorem Reached.cons {b : Path} {limit : Nat} (hp : d.isDirectory p = true)
    (hnext : d.isDirectory (below p (String.ofList text)) = true)
    (h : Reached d (below p (String.ofList text)) b texts limit) :
    Reached d p b (text :: texts) limit where
  directory := h.directory
  not_same := h.not_same
  short := h.short
  search parts := by
    rw [List.map_cons, List.cons_append, search_plain_of_directory hp hnext]
    exact h.search parts

/-- Parts that lead through directories are followed. -/
theorem reached_follow {limit : Nat} (hlimit : limit ≤ pathLimit)
    (hfind : d.find p = .ok (m, .directory)) (hdot : ¬ p.same ⟨"."⟩ = true)
    (htexts : ∀ text ∈ texts, '/' ∉ text ∧ '\x00' ∉ text)
    (hshort : byteLength p.text.toList ≤ limit)
    (hreach : byteLength p.asDirectory + reach texts ≤ limit)
    (hpass : d.Passable m (texts.filterMap component?)) :
    Reached d p (follow p texts) texts limit := by
  induction texts generalizing p m with
  | nil => exact ⟨⟨m, hfind⟩, hdot, hshort, fun parts => rfl⟩
  | cons text texts ih =>
    obtain ⟨⟨hslash, hnul⟩, htexts⟩ := List.forall_mem_cons.mp htexts
    rw [passable_cons] at hpass
    rw [reach_cons] at hreach
    have hp := text_ne_of_find hfind
    have hbelow : below p (String.ofList text) = p.join ⟨String.ofList text⟩ :=
      below_of_not_same hdot _
    have hlength := byteLength_join (Path.isAbsolute_ofList hslash) hp
    rw [String.toList_ofList] at hlength
    have hnext := find_join_text hfind hslash hnul (by omega) hpass.1
    have hway := Path.way_join hslash hp hdot
    have hdot' : ¬ (p.join ⟨String.ofList text⟩).same ⟨"."⟩ = true := by
      intro hsame
      rw [Path.way_of_same hsame, Path.way_eq_components hdot] at hway
      exact Path.components_ne_nil hp (List.append_eq_nil_iff.mp hway.symm).1
    have hdir := byteLength_asDirectory_le (p.join ⟨String.ofList text⟩)
    have hreached := ih hnext hdot' htexts (by omega) (by omega) hpass.2
    rw [← hbelow] at hreached hnext
    exact hreached.cons (isDirectory_iff.mpr ⟨m, hfind⟩) (isDirectory_iff.mpr ⟨_, hnext⟩)

variable {base : Path} {l : Location} {budget : Nat}

theorem plain_of_mem_frontParts (h : d.find base = .ok (l, .directory)) {text : List Char}
    (htext : text ∈ frontParts base) : '/' ∉ text ∧ '\x00' ∉ text := by
  have hmem := mem_of_mem_frontParts htext
  have hfault := (locate_eq_ok_iff.mp (find_eq_ok_iff.mp h).1).1
  refine ⟨notMem_of_mem_splitOn hmem, fun hnul => (pathFault?_eq_none_iff.mp hfault).1 ?_⟩
  have hdir := mem_of_mem_splitOn hmem hnul
  rcases Path.asDirectory_eq base with hbase | hbase <;> simp [hbase, hdir]

theorem passable_frontParts (h : d.find base = .ok (l, .directory)) :
    d.Passable (d.origin base) ((frontParts base).filterMap component?) := by
  rw [filterMap_frontParts, ← passable_components_iff]
  exact (find_directory_iff.mp h).2.1

theorem byteLength_le_of_find (h : d.find base = .ok (l, .directory)) :
    byteLength base.text.toList ≤ pathLimit :=
  (pathFault?_eq_none_iff.mp (locate_eq_ok_iff.mp (find_eq_ok_iff.mp h).1).1).2.2

/-- The parts of an absolute path are followed from the root. -/
theorem reached_of_absolute (h : d.find base = .ok (l, .directory))
    (habsolute : base.isAbsolute = true) :
    Reached d ⟨"/"⟩ (follow ⟨"/"⟩ (frontParts base)) (frontParts base)
      (byteLength base.text.toList) := by
  obtain ⟨behind, hbehind⟩ := List.head?_eq_some_iff.mp (of_decide_eq_true habsolute)
  have hhead := Path.head?_asDirectory base
  rw [hbehind, splitOn, if_pos rfl, List.head?_cons, List.head?_eq_some_iff] at hhead
  obtain ⟨rest, hrest⟩ := hhead
  have hfront : frontParts base = rest := by
    rw [frontParts, habsolute, hrest]
    rfl
  have hreach := reach_splitOn base.asDirectory
  rw [hrest, reach_cons] at hreach
  have hpass := passable_frontParts h
  rw [origin, habsolute] at hpass
  have hone : 1 ≤ byteLength base.text.toList := by
    rw [hbehind]
    exact Nat.le_add_right 1 _
  have hroot : d.find ⟨"/"⟩ = .ok ([], .directory) :=
    find_directory_iff.mpr ⟨by decide, ⟨rfl, by decide, rfl⟩, rfl⟩
  have hnone : byteLength (⟨"/"⟩ : Path).asDirectory = 0 := by decide
  have hempty : byteLength ([] : List Char) = 0 := rfl
  have hdir := byteLength_asDirectory_le base
  refine reached_follow (byteLength_le_of_find h) hroot (by decide)
    (fun text => plain_of_mem_frontParts h) hone ?_ hpass
  rw [hfront]
  omega

/-- The parts of a relative path are followed from the current directory. The first of them is a
name or leads up, unless the path starts with a dot. -/
theorem reached_of_relative (h : d.find base = .ok (l, .directory))
    (hrelative : base.isAbsolute = false) (hdot : base.components.head? ≠ some .current) :
    Reached d ⟨"."⟩ (follow ⟨"."⟩ (frontParts base)) (frontParts base)
      (byteLength base.text.toList) := by
  have hlimit := byteLength_le_of_find h
  have hdir := byteLength_asDirectory_le base
  obtain ⟨first, more, hsplit, hfirst⟩ := Path.exists_first_part hrelative (text_ne_of_find h)
  have hhead := Path.head?_asDirectory base
  rw [hsplit, List.head?_cons, List.head?_eq_some_iff] at hhead
  obtain ⟨rest, hrest⟩ := hhead
  have hfront : frontParts base = first :: rest := by
    rw [frontParts, hrelative, hrest]
    rfl
  have hfirstDot : first ≠ ['.'] := by
    rintro rfl
    have hcomponents := Path.components_eq_parts base
    rw [hrelative, hsplit] at hcomponents
    exact hdot (by rw [hcomponents]; rfl)
  have hreach := reach_splitOn base.asDirectory
  rw [hrest, reach_cons] at hreach
  have hpass := passable_frontParts h
  have htexts : ∀ text ∈ frontParts base, '/' ∉ text ∧ '\x00' ∉ text :=
    fun _ => plain_of_mem_frontParts h
  rw [hfront] at hpass htexts ⊢
  obtain ⟨⟨hslash, hnul⟩, htexts⟩ := List.forall_mem_cons.mp htexts
  rw [passable_cons, origin, hrelative] at hpass
  have hcurrent := hpass.1.directory
  have hhere : d.find ⟨"."⟩ = .ok (d.current, .directory) :=
    find_directory_iff.mpr ⟨by decide, ⟨hcurrent, by decide, hcurrent⟩, rfl⟩
  have hnext := find_text hslash hnul hfirst (by omega) hpass.1
  have hnotSame := Path.not_same_ofList hslash hfirst hfirstDot
  have hfirstDir := byteLength_asDirectory_le ⟨String.ofList first⟩
  rw [String.toList_ofList] at hfirstDir
  have hreached := reached_follow hlimit hnext hnotSame htexts
    (by rw [String.toList_ofList]; omega) (by omega) hpass.2
  have hbelow : below ⟨"."⟩ (String.ofList first) = ⟨String.ofList first⟩ := if_pos (by decide)
  rw [← hbelow] at hreached hnext
  exact hreached.cons (isDirectory_iff.mpr ⟨_, hhere⟩) (isDirectory_iff.mpr ⟨_, hnext⟩)

/-- A search for a pattern in a directory reaches the directory, by a path with the same components
that is not longer. -/
theorem exists_seat (h : d.find base = .ok (l, .directory))
    (hdot : base.components.head? ≠ some .current) (hnamed : d.Named)
    (hroomy : Roomy d l (byteLength base.text.toList + budget)) :
    ∃ b, Seat d b l budget ∧ b.components = base.components ∧
      ∀ parts, search d (scopeOf base) ((frontParts base).map .plain ++ parts) =
        search d b parts := by
  have hreached : Reached d (scopeOf base) (follow (scopeOf base) (frontParts base))
      (frontParts base) (byteLength base.text.toList) := by
    rw [scopeOf]
    cases habsolute : base.isAbsolute with
    | true => exact reached_of_absolute h habsolute
    | false => exact reached_of_relative h habsolute hdot
  have hcomponents : (follow (scopeOf base) (frontParts base)).components = base.components := by
    rw [← Path.way_eq_components hreached.not_same,
      way_follow fun text htext => (plain_of_mem_frontParts h htext).1, way_scopeOf,
      filterMap_frontParts, ← Path.components_eq_of_dotless hdot]
  refine ⟨_, ⟨?_, hcomponents ▸ hdot, hnamed, fun names e hentry => ?_⟩, hcomponents,
    hreached.search⟩
  · obtain ⟨m, hfind⟩ := hreached.directory
    have hkind : (follow (scopeOf base) (frontParts base)).isAbsolute = base.isAbsolute := by
      rw [Bool.eq_iff_iff, ← Path.root_mem_components_iff, hcomponents,
        Path.root_mem_components_iff]
    have hplace : d.place (follow (scopeOf base) (frontParts base)) = d.place base := by
      rw [place, place, origin, origin, hcomponents, hkind]
    rw [hfind, (find_directory_iff.mp hfind).2.2, hplace, ← (find_directory_iff.mp h).2.2]
  · have hspan := hroomy names e hentry
    have hshort := hreached.short
    omega

end Glob

end DocSnippets.Disk
