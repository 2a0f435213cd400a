import DocSnippets.Proofs.Disk.Reading

/-!
# What a pattern leads to

A search goes down by the names of directories, and up only where a part is `..` or matches it. So
the components of what it finds are those of the path where it starts and then names; parts without
wildcards at the front of a pattern are followed as they are.
-/

namespace DocSnippets

open Text

namespace Path

/-- The components of a path, of which the current directory by itself has none. -/
def way (p : Path) : List Component := if p.same ⟨"."⟩ then [] else p.components

theorem same_dot_iff {p : Path} : p.same ⟨"."⟩ = true ↔ p.components = [.current] := by
  have hdot : (⟨"."⟩ : Path).components = [.current] := by decide
  rw [same, decide_eq_true_eq, hdot]

theorem way_of_same {p : Path} (h : p.same ⟨"."⟩ = true) : p.way = [] := if_pos h

theorem way_eq_components {p : Path} (h : ¬ p.same ⟨"."⟩ = true) : p.way = p.components := if_neg h

theorem isAbsolute_ofList {part : List Char} (h : '/' ∉ part) :
    (⟨String.ofList part⟩ : Path).isAbsolute = false :=
  isAbsolute_of_notMem (String.toList_ofList.symm ▸ h)

theorem filterMap_component? (part : List Char) :
    [part].filterMap component? = (component? part).toList := by
  rw [List.filterMap_cons]
  cases component? part <;> rfl

theorem way_ofList {part : List Char} (h : '/' ∉ part) :
    (⟨String.ofList part⟩ : Path).way = (component? part).toList := by
  have hcomponents : (⟨String.ofList part⟩ : Path).components =
      dotOf [part] ++ (component? part).toList := by
    rw [components_eq_parts, isAbsolute_ofList h, String.toList_ofList, splitOn_of_notMem h,
      filterMap_component?]
    rfl
  by_cases hdot : part = ['.']
  · rw [hdot]
    rfl
  · have hfirst : dotOf [part] = [] := if_neg fun heq => hdot (Option.some.inj heq)
    rw [hfirst, List.nil_append] at hcomponents
    rw [way, if_neg, hcomponents]
    rw [same_dot_iff, hcomponents]
    unfold component?
    split
    · exact List.cons_ne_nil _ _ ∘ Eq.symm
    · split <;> simp

theorem not_same_ofList {part : List Char} (h : '/' ∉ part) (hne : part ≠ [])
    (hdot : part ≠ ['.']) : ¬ (⟨String.ofList part⟩ : Path).same ⟨"."⟩ = true := by
  intro hsame
  have hway := way_ofList h
  rw [way_of_same hsame] at hway
  rcases component?_eq_none_iff.mp (Option.toList_eq_nil_iff.mp hway.symm) with hnil | hcurrent
  · exact hne hnil
  · exact hdot hcurrent

/-- A path that is not empty keeps its components in front of those of a part in it. -/
theorem way_join {p : Path} {part : List Char} (h : '/' ∉ part) (hp : p.text ≠ "")
    (hdot : ¬ p.same ⟨"."⟩ = true) :
    (p.join ⟨String.ofList part⟩).way = p.way ++ (component? part).toList := by
  have hcomponents : (p.join ⟨String.ofList part⟩).components =
      p.components ++ (component? part).toList := by
    rw [components_join (isAbsolute_ofList h) hp, String.toList_ofList, splitOn_of_notMem h,
      filterMap_component?]
  rw [way_eq_components hdot, way_eq_components, hcomponents]
  rw [same_dot_iff, hcomponents]
  rw [same_dot_iff] at hdot
  intro heq
  cases hp' : p.components with
  | nil => exact components_ne_nil hp hp'
  | cons c cs =>
    rw [hp', List.cons_append, List.cons.injEq] at heq
    rw [hp', heq.1, (List.append_eq_nil_iff.mp heq.2).1] at hdot
    exact hdot rfl

instance (part : List Char) : Decidable (IsName part) :=
  decidable_of_iff (part ≠ [] ∧ part ≠ ['.'] ∧ part ≠ ['.', '.'] ∧ '/' ∉ part)
    ⟨fun ⟨hnil, hdot, hdots, hslash⟩ => ⟨hnil, hdot, hdots, hslash⟩,
      fun h => ⟨h.ne_nil, h.ne_dot, h.ne_dots, h.noSlash⟩⟩

end Path

namespace Disk

open Path (Component component? IsName)

/-- Everything in the tree goes by names. -/
def Named (d : Disk) : Prop := ∀ x ∈ d.entries, ∀ name ∈ x.1, IsName name.toList

instance (d : Disk) : Decidable d.Named :=
  inferInstanceAs (Decidable (∀ x ∈ d.entries, ∀ name ∈ x.1, IsName name.toList))

variable {d : Disk} {l : Location}

theorem mem_children_iff {name : String} :
    name ∈ d.children l ↔ ∃ e, (l ++ [name], e) ∈ d.entries := by
  rw [children, List.mem_mergeSort, List.mem_filterMap]
  constructor
  · rintro ⟨⟨location, e⟩, hentry, hname⟩
    dsimp only at hname
    split at hname
    · next last above hreverse =>
      split at hname
      · next habove =>
        obtain rfl := Option.some.inj hname
        have hlocation : location = l ++ [last] := by
          rw [← habove, ← List.reverse_cons, ← hreverse, List.reverse_reverse]
        exact ⟨e, hlocation ▸ hentry⟩
      · cases hname
    · cases hname
  · rintro ⟨e, hentry⟩
    exact ⟨_, hentry, by simp⟩

theorem Named.isName_of_mem_children (hd : d.Named) {name : String}
    (h : name ∈ d.children l) : IsName name.toList := by
  obtain ⟨e, hentry⟩ := mem_children_iff.mp h
  exact hd _ hentry name (List.mem_append_right l List.mem_cons_self)

theorem isDirectory_iff {p : Path} :
    d.isDirectory p = true ↔ ∃ l, d.find p = .ok (l, .directory) := by
  rw [isDirectory]
  constructor
  · intro h
    split at h
    · next l hfind => exact ⟨l, hfind⟩
    · cases h
  · rintro ⟨l, hfind⟩
    rw [hfind]

theorem isThere_iff {p : Path} : d.isThere p = true ↔ ∃ x, d.find p = .ok x := by
  rw [isThere]
  constructor
  · intro h
    split at h
    · next x hfind => exact ⟨x, hfind⟩
    · cases h
  · rintro ⟨x, hfind⟩
    rw [hfind]

theorem isFile_iff_find {p : Path} : d.isFile p = true ↔
    ∃ l content executable, d.find p = .ok (l, .file content executable) := by
  simp only [find_eq_ok_iff]
  exact isFile_iff

theorem text_ne_of_find {p : Path} {x : Location × Entry} (h : d.find p = .ok x) :
    p.text ≠ "" := by
  intro hempty
  have hfault := (locate_eq_ok_iff.mp (find_eq_ok_iff.mp h).1).1
  exact (pathFault?_eq_none_iff.mp hfault).2.1 (String.toList_eq_nil_iff.mpr hempty)

/-- No file is the current directory. -/
theorem way_of_isFile {p : Path} (h : d.isFile p = true) : p.way = p.components := by
  refine Path.way_eq_components fun hdot => ?_
  obtain ⟨l, content, executable, hlocate, hentry⟩ := isFile_iff.mp h
  have hwalk := (locate_eq_ok_iff.mp hlocate).2
  have hcomponents := Path.same_dot_iff.mp hdot
  have hplace : l = d.origin p := by
    rw [eq_place_of_locate hlocate, place, hcomponents]
    rfl
  obtain ⟨part, parts, hparts⟩ := List.exists_cons_of_ne_nil (splitOn_ne_nil '/' p.text.toList)
  rw [hparts] at hwalk
  have hdir := directory_of_walk hwalk
  rw [← hplace, hentry] at hdir
  cases hdir

/-- The part is this name of a directory entry, or matches it. -/
def GlobPart.meets (name : List Char) : GlobPart → Bool
  | .plain text => text = name
  | .wild tokens => tokens.head? = some (.literal '.') && Wildcard.matchesName tokens name
  | .anyDepth => false

/-- A part by which no search goes up. -/
structure GlobPart.Downward (part : GlobPart) : Prop where
  noSlash : ∀ text, part = .plain text → '/' ∉ text
  noUp : part.meets ['.', '.'] = false

/-- A part by which a search goes down by names. -/
structure GlobPart.Steady (part : GlobPart) : Prop extends part.Downward where
  noDot : part.meets ['.'] = false

theorem GlobPart.Steady.not_dots {text : List Char} (h : (GlobPart.plain text).Steady) :
    ¬ (text = ['.'] ∨ text = ['.', '.']) :=
  not_or.mpr ⟨of_decide_eq_false h.noDot, of_decide_eq_false h.noUp⟩

namespace Glob

variable {p c : Path} {part : GlobPart} {parts : List GlobPart} {tokens : List WildToken}

theorem way_scopeOf (p : Path) :
    (scopeOf p).way = if p.isAbsolute then [.root] else [] := by
  rw [scopeOf]
  cases p.isAbsolute <;> decide

theorem way_below {name : List Char} (h : '/' ∉ name) (p : Path) :
    (below p (String.ofList name)).way = p.way ++ (component? name).toList := by
  rw [below]
  split
  · next hsame => rw [Path.way_of_same hsame, Path.way_ofList h, List.nil_append]
  · next hdot =>
    by_cases hp : p.text = ""
    · obtain rfl : p = ⟨""⟩ := by rw [← hp]
      rw [Path.empty_join, Path.way_ofList h]
      rfl
    · exact Path.way_join h hp hdot

theorem way_below_name {name : String} (h : IsName name.toList) (p : Path) :
    (below p name).way = p.way ++ [.name name] := by
  have hway := way_below h.noSlash p
  rwa [Path.component?_name h, String.ofList_toList] at hway

theorem childrenOf_eq (h : d.find p = .ok (l, .directory)) :
    childrenOf d p = (d.children l).map (below p) := by
  rw [childrenOf, h]

theorem childrenOf_eq_nil (h : ¬ d.isDirectory p = true) : childrenOf d p = [] := by
  rw [childrenOf]
  split
  · next l hfind => exact absurd (isDirectory_iff.mpr ⟨l, hfind⟩) h
  · rfl

/-- A search by a wildcard in a directory. -/
theorem search_wild_of_find (h : d.find p = .ok (l, .directory)) :
    search d p (.wild tokens :: parts) =
      (dotEntries tokens p ++
        ((d.children l).map (below p)).filter (nameMatches (.wild tokens))).flatMap fun c =>
          search d c parts := by
  rw [search, if_pos (isDirectory_iff.mpr ⟨l, h⟩), childrenOf_eq h]

theorem exists_of_mem_childrenOf (h : c ∈ childrenOf d p) : ∃ l name,
    d.find p = .ok (l, .directory) ∧ name ∈ d.children l ∧ c = below p name := by
  rw [childrenOf] at h
  split at h
  · next l hfind =>
    obtain ⟨name, hname, rfl⟩ := List.mem_map.mp h
    exact ⟨l, name, hfind, hname, rfl⟩
  · cases h

/-- A path that leads on from another one by names alone. -/
def LeadsOn (p c : Path) : Prop := ∃ names : List String, c.way = p.way ++ names.map .name

theorem LeadsOn.refl (p : Path) : LeadsOn p p := ⟨[], (List.append_nil _).symm⟩

theorem LeadsOn.trans {q : Path} (hpc : LeadsOn p c) (hcq : LeadsOn c q) : LeadsOn p q := by
  obtain ⟨names, hc⟩ := hpc
  obtain ⟨names', hq⟩ := hcq
  exact ⟨names ++ names', by rw [hq, hc, List.append_assoc, List.map_append]⟩

theorem leadsOn_of_mem_childrenOf (hd : d.Named) (h : c ∈ childrenOf d p) : LeadsOn p c := by
  obtain ⟨l, name, -, hname, rfl⟩ := exists_of_mem_childrenOf h
  exact ⟨[name], way_below_name (hd.isName_of_mem_children hname) p⟩

theorem leadsOn_of_mem_descendants (hd : d.Named) {depth : Nat}
    (h : c ∈ descendants d depth p) : LeadsOn p c := by
  induction depth generalizing p with
  | zero => cases h
  | succ depth ih =>
    obtain ⟨child, hchild, hc⟩ := List.mem_flatMap.mp h
    have hleads := leadsOn_of_mem_childrenOf hd hchild
    rcases List.mem_cons.mp hc with rfl | hc
    · exact hleads
    · exact hleads.trans (ih hc)

/-- Only `.` is left of the directory entries for a part that does not match `..`. -/
theorem way_of_mem_dotEntries (hdir : d.isDirectory p = true)
    (hup : (GlobPart.wild tokens).meets ['.', '.'] = false) (h : c ∈ dotEntries tokens p) :
    c.way = p.way := by
  obtain ⟨l, hfind⟩ := isDirectory_iff.mp hdir
  rw [dotEntries] at h
  split at h
  · next hhead =>
    obtain ⟨name, hname, rfl⟩ := List.mem_map.mp h
    obtain ⟨hname, hmatches⟩ := List.mem_filter.mp hname
    rcases List.mem_cons.mp hname with rfl | hname
    · rw [GlobPart.meets, hhead] at hup
      have hmatches : Wildcard.matchesName tokens ['.', '.'] = true := hmatches
      simp [hmatches] at hup
    · obtain rfl := List.mem_singleton.mp hname
      have hp := text_ne_of_find hfind
      have hcomponents : (p.join ⟨"."⟩).components = p.components := by
        rw [Path.components_join rfl hp]
        exact List.append_nil _
      rw [Path.way, Path.way, Path.same, Path.same, hcomponents]
  · cases h

theorem mem_search_plain {text : List Char} : c ∈ search d p (.plain text :: parts) ↔
    (if text = ['.'] ∨ text = ['.', '.'] then d.isDirectory p
      else d.isThere (below p (String.ofList text))) = true ∧
    c ∈ search d (below p (String.ofList text)) parts := by
  rw [search]
  exact List.mem_ite_nil_right

theorem search_plain {text : List Char} (h : (GlobPart.plain text).Steady) :
    search d p (.plain text :: parts) = if d.isThere (below p (String.ofList text)) then
      search d (below p (String.ofList text)) parts else [] := by
  rw [search, if_neg h.not_dots]

theorem dotEntries_eq_nil (h : (GlobPart.wild tokens).Steady) (p : Path) :
    dotEntries tokens p = [] := by
  rw [dotEntries]
  split
  · next hhead =>
    have hdot : Wildcard.matchesName tokens ['.'] = false := by
      simpa [GlobPart.meets, hhead] using h.noDot
    have hdots : Wildcard.matchesName tokens ['.', '.'] = false := by
      simpa [GlobPart.meets, hhead] using h.noUp
    rw [List.map_eq_nil_iff, List.filter_eq_nil_iff]
    intro name hname
    rcases List.mem_pair.mp hname with rfl | rfl
    · exact Bool.not_eq_true _ ▸ hdots
    · exact Bool.not_eq_true _ ▸ hdot
  · rfl

theorem search_wild (h : (GlobPart.wild tokens).Steady) :
    search d p (.wild tokens :: parts) = if d.isDirectory p then
      ((childrenOf d p).filter (nameMatches (.wild tokens))).flatMap fun c => search d c parts
    else [] := by
  rw [search, dotEntries_eq_nil h]
  rfl

theorem leadsOn_below {name : List Char} (h : '/' ∉ name) (hup : name ≠ ['.', '.']) (p : Path) :
    LeadsOn p (below p (String.ofList name)) := by
  rw [LeadsOn, way_below h, component?, if_neg hup]
  split
  · exact ⟨[], rfl⟩
  · exact ⟨[String.ofList name], rfl⟩

/-- A search leads on by names, as long as no part goes up. -/
theorem leadsOn_of_mem_search (hd : d.Named)
    (hparts : ∀ part ∈ parts, part.Downward) (h : c ∈ search d p parts) : LeadsOn p c := by
  induction p, parts using search.induct d with
  | case1 p =>
    rw [search] at h
    obtain rfl := List.mem_singleton.mp h
    exact .refl c
  | case2 p text parts next isThere hthere ih =>
    obtain ⟨hdown, hparts⟩ := List.forall_mem_cons.mp hparts
    have htext : text ≠ ['.', '.'] := of_decide_eq_false hdown.noUp
    exact (leadsOn_below (hdown.noSlash text rfl) htext p).trans
      (ih hparts (mem_search_plain.mp h).2)
  | case3 p text parts next isThere hthere => exact absurd (mem_search_plain.mp h).1 hthere
  | case4 p tokens parts hdir ih =>
    obtain ⟨hdown, hparts⟩ := List.forall_mem_cons.mp hparts
    rw [search, if_pos hdir] at h
    obtain ⟨child, hchild, hc⟩ := List.mem_flatMap.mp h
    refine LeadsOn.trans ?_ (ih child hparts hc)
    rcases List.mem_append.mp hchild with hdots | hnamed
    · refine ⟨[], ?_⟩
      rw [way_of_mem_dotEntries hdir hdown.noUp hdots]
      exact (List.append_nil _).symm
    · exact leadsOn_of_mem_childrenOf hd (List.mem_of_mem_filter hnamed)
  | case5 p tokens parts hdir =>
    rw [search, if_neg hdir] at h
    cases h
  | case6 p =>
    rw [search] at h
    exact leadsOn_of_mem_descendants hd (List.mem_of_mem_filter h)
  | case7 p parts ih =>
    rw [search] at h
    exact ih (List.forall_mem_cons.mp hparts).2 h
  | case8 p part parts hpart ih =>
    rw [search] at h
    · obtain ⟨child, hchild, hc⟩ := List.mem_flatMap.mp h
      have hparts := (List.forall_mem_cons.mp (List.forall_mem_cons.mp hparts).2).2
      exact (leadsOn_of_mem_descendants hd (List.mem_of_mem_filter hchild)).trans
        (ih child hparts hc)
    · exact hpart

/-- The path that parts without wildcards lead to, one after the other. -/
def follow (p : Path) (texts : List (List Char)) : Path :=
  texts.foldl (fun p text => below p (String.ofList text)) p

theorem way_follow {texts : List (List Char)} (h : ∀ text ∈ texts, '/' ∉ text) (p : Path) :
    (follow p texts).way = p.way ++ texts.filterMap component? := by
  induction texts generalizing p with
  | nil => exact (List.append_nil _).symm
  | cons text texts ih =>
    obtain ⟨htext, htexts⟩ := List.forall_mem_cons.mp h
    rw [follow, List.foldl_cons, ← follow, ih htexts, way_below htext, List.append_assoc,
      ← Path.filterMap_component?, ← List.filterMap_append, List.singleton_append]

/-- Parts without wildcards are followed to where the other ones are searched from. -/
theorem mem_search_follow {texts : List (List Char)}
    (h : c ∈ search d p (texts.map .plain ++ parts)) : c ∈ search d (follow p texts) parts := by
  induction texts generalizing p with
  | nil => exact h
  | cons text texts ih => exact ih (mem_search_plain.mp h).2

end Glob

end Disk

end DocSnippets
