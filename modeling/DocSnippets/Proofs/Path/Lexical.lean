import DocSnippets.Proofs.Path

/-!
# Where a path leads

An absolute path leads, by its text alone, to a place below the root: the names that are left when
dots are taken out and every parent directory takes back the name before it. Seen from a directory,
a relative path first goes up and then down by names, and it stays in the directory exactly if it
comes down again by the names that it went up.
-/

namespace DocSnippets

namespace Text

theorem splitOn_append_of_notMem {sep : Char} {front : List Char} (h : sep ∉ front)
    (text : List Char) : splitOn sep (front ++ text) =
      (splitOn sep text).modifyHead (front ++ ·) := by
  induction front with
  | nil => cases hparts : splitOn sep text <;> simp [hparts]
  | cons c front ih =>
    have hc : c ≠ sep := fun heq => h (heq ▸ List.mem_cons_self)
    rw [List.cons_append, splitOn, if_neg hc, ih fun hmem => h (List.mem_cons_of_mem c hmem)]
    cases hparts : splitOn sep text with
    | nil => exact absurd hparts (splitOn_ne_nil sep text)
    | cons part parts => rfl

/-- What stands behind the last separator grows with the text. -/
theorem splitOn_append_ending {sep : Char} {ending : List Char} (h : sep ∉ ending)
    (text : List Char) : ∃ parts last, splitOn sep text = parts ++ [last] ∧
      splitOn sep (text ++ ending) = parts ++ [last ++ ending] := by
  induction text with
  | nil => exact ⟨[], [], rfl, by rw [List.nil_append, splitOn_of_notMem h]; rfl⟩
  | cons c text ih =>
    obtain ⟨parts, last, htext, hlonger⟩ := ih
    rw [List.cons_append, splitOn, splitOn, htext, hlonger]
    by_cases hc : c = sep
    · exact ⟨[] :: parts, last, by rw [if_pos hc]; rfl, by rw [if_pos hc]; rfl⟩
    · rw [if_neg hc, if_neg hc]
      cases parts with
      | nil => exact ⟨[], c :: last, rfl, rfl⟩
      | cons part parts => exact ⟨(c :: part) :: parts, last, rfl, rfl⟩

end Text

namespace Path

open Text

/-- The directory to which a component leads from a directory, both as names below the root. -/
def Component.enter (dir : List String) : Component → List String
  | .root => []
  | .current => dir
  | .parent => dir.dropLast
  | .name text => dir ++ [text]

/-- The names below the root that are left of an absolute path without its dots. -/
def names (p : Path) : List String := p.components.foldl Component.enter []

/-- The path is a directory or lies below it, by its text. -/
def Within (p dir : Path) : Prop := dir.names <+: p.names

instance (p dir : Path) : Decidable (p.Within dir) :=
  inferInstanceAs (Decidable (dir.names <+: p.names))

/-- The component that a part between slashes is, a lone dot at the start of a path apart. -/
def component? (part : List Char) : Option Component :=
  if part = [] ∨ part = ['.'] then none
  else if part = ['.', '.'] then some .parent
  else some (.name (String.ofList part))

theorem map_marksFrom (parts : List (List Char)) (pos : Nat) :
    (marksFrom pos false parts).map (·.1) = parts.filterMap component? := by
  induction parts generalizing pos with
  | nil => rfl
  | cons part parts ih =>
    rw [marksFrom, List.filterMap_cons, component?]
    by_cases hnil : part = []
    · simp [hnil, ih]
    · by_cases hdot : part = ['.']
      · simp [hdot, ih]
      · by_cases hdots : part = ['.', '.']
        · simp [hdots, ih]
        · simp [hnil, hdot, hdots, ih]

/-- The component that a lone dot at the start of a path is. -/
def dotOf (parts : List (List Char)) : List Component :=
  if parts.head? = some ['.'] then [.current] else []

theorem dotOf_eq_or (parts : List (List Char)) : dotOf parts = [] ∨ dotOf parts = [.current] := by
  rw [dotOf]
  split
  · exact .inr rfl
  · exact .inl rfl

/-- Only the first part can be a component that other parts are not. -/
theorem map_marksFrom_first (parts : List (List Char)) (pos : Nat) :
    (marksFrom pos true parts).map (·.1) = dotOf parts ++ parts.filterMap component? := by
  cases parts with
  | nil => rfl
  | cons part parts =>
    by_cases hdot : part = ['.']
    · simp [marksFrom, component?, dotOf, hdot, map_marksFrom]
    · have hfirst : marksFrom pos true (part :: parts) = marksFrom pos false (part :: parts) := by
        rw [marksFrom, marksFrom, if_neg hdot, if_neg hdot]
      have hnone : dotOf (part :: parts) = [] := if_neg fun h => hdot (Option.some.inj h)
      rw [hfirst, map_marksFrom, hnone]
      rfl

theorem components_eq_parts (p : Path) :
    p.components = (if p.isAbsolute then [.root] else []) ++
      (dotOf (splitOn '/' p.text.toList) ++ (splitOn '/' p.text.toList).filterMap component?) := by
  rw [components, marks, ← map_marksFrom_first _ 0]
  cases p.isAbsolute with
  | true => rfl
  | false => rfl

theorem components_eq (p : Path) : ∃ dot, (dot = [] ∨ dot = [.current]) ∧
    p.components = (if p.isAbsolute then [.root] else []) ++
      (dot ++ (splitOn '/' p.text.toList).filterMap component?) :=
  ⟨_, dotOf_eq_or _, components_eq_parts p⟩

theorem root_notMem_components {p : Path} (h : p.isAbsolute = false) : .root ∉ p.components := by
  obtain ⟨dot, hdot, hcomponents⟩ := components_eq p
  have hparts : .root ∉ (splitOn '/' p.text.toList).filterMap component? := by
    intro hmem
    obtain ⟨part, -, hpart⟩ := List.mem_filterMap.mp hmem
    unfold component? at hpart
    split at hpart
    · cases hpart
    · split at hpart <;> cases hpart
  rw [hcomponents, h]
  rcases hdot with rfl | rfl
  · exact hparts
  · simpa using hparts

theorem parent_mem_components_iff {p : Path} :
    .parent ∈ p.components ↔ ['.', '.'] ∈ splitOn '/' p.text.toList := by
  obtain ⟨dot, hdot, hcomponents⟩ := components_eq p
  have hparent : ∀ part, component? part = some .parent ↔ part = ['.', '.'] := by
    intro part
    unfold component?
    by_cases hdots : part = ['.', '.']
    · simp [hdots]
    · simp [hdots]
  have hparts : .parent ∈ (splitOn '/' p.text.toList).filterMap component? ↔
      ['.', '.'] ∈ splitOn '/' p.text.toList := by
    simp only [List.mem_filterMap, hparent, exists_eq_right]
  have hroot : .parent ∉ if p.isAbsolute then [Component.root] else [] := by
    split <;> simp
  rw [hcomponents, List.mem_append, or_iff_right hroot, ← hparts]
  rcases hdot with rfl | rfl
  · rfl
  · simp

theorem foldl_enter_components {p : Path} (h : p.isAbsolute = false) (dir : List String) :
    p.components.foldl Component.enter dir =
      ((splitOn '/' p.text.toList).filterMap component?).foldl Component.enter dir := by
  obtain ⟨dot, hdot, hcomponents⟩ := components_eq p
  rw [hcomponents, h]
  rcases hdot with rfl | rfl
  · rfl
  · rfl

theorem names_eq (p : Path) :
    p.names = ((splitOn '/' p.text.toList).filterMap component?).foldl Component.enter [] := by
  obtain ⟨dot, hdot, hcomponents⟩ := components_eq p
  rw [names, hcomponents]
  cases p.isAbsolute with
  | true => rcases hdot with rfl | rfl <;> rfl
  | false => rcases hdot with rfl | rfl <;> rfl

theorem join_of_absolute {q : Path} (h : q.isAbsolute = true) (p : Path) : p.join q = q := by
  rw [join, if_pos h]

theorem empty_join (q : Path) : join ⟨""⟩ q = q := by
  rw [join]
  split
  · rfl
  · simp

theorem ext_toList {p q : Path} (h : p.text.toList = q.text.toList) : p = q := by
  cases p
  cases q
  rw [Path.mk.injEq]
  exact String.toList_inj.mp h

/-- The text of a path without a slash at its end. -/
def asDirectory (p : Path) : List Char :=
  if p.text.toList.getLast? = some '/' then p.text.toList.dropLast else p.text.toList

theorem isAbsolute_of_notMem {name : String} (h : '/' ∉ name.toList) :
    (⟨name⟩ : Path).isAbsolute = false := by
  unfold isAbsolute
  rw [decide_eq_false_iff_not]
  intro hhead
  obtain ⟨rest, hrest⟩ := List.head?_eq_some_iff.mp hhead
  exact h (hrest ▸ List.mem_cons_self)

theorem asDirectory_eq (p : Path) :
    p.text.toList = p.asDirectory ∨ p.text.toList = p.asDirectory ++ ['/'] := by
  unfold asDirectory
  split
  · next hlast =>
    obtain ⟨front, hfront⟩ := List.getLast?_eq_some_iff.mp hlast
    exact Or.inr (by rw [hfront, List.dropLast_concat])
  · exact Or.inl rfl

/-- A relative path stands behind the path of its directory and a slash. -/
theorem toList_join {p q : Path} (hq : q.isAbsolute = false) (hp : p.text ≠ "") :
    (p.join q).text.toList = p.asDirectory ++ '/' :: q.text.toList := by
  have hrelative : ¬ q.isAbsolute = true := by rw [hq]; exact Bool.false_ne_true
  have hne : p.text.toList ≠ [] := fun hnil => hp (String.toList_eq_nil_iff.mp hnil)
  rw [join, if_neg hrelative, asDirectory]
  by_cases hends : p.text.toList.getLast? = some '/'
  · obtain ⟨front, hfront⟩ := List.getLast?_eq_some_iff.mp hends
    rw [if_pos (.inr hends), if_pos hends, String.toList_append, hfront, List.dropLast_concat,
      List.append_assoc, List.singleton_append]
  · rw [if_neg (not_or.mpr ⟨hne, hends⟩), if_neg hends, String.toList_append,
      String.toList_append, List.append_assoc]
    rfl

/-- The parts of a directory are those of its path, an empty one at the end apart. -/
theorem splitOn_asDirectory (p : Path) :
    splitOn '/' p.text.toList = splitOn '/' p.asDirectory ∨
      splitOn '/' p.text.toList = splitOn '/' p.asDirectory ++ [[]] := by
  rcases asDirectory_eq p with hdir | hdir
  · exact .inl (congrArg _ hdir)
  · exact .inr (by rw [hdir, splitOn_append_cons]; rfl)

theorem filterMap_asDirectory (p : Path) :
    (splitOn '/' p.asDirectory).filterMap component? =
      (splitOn '/' p.text.toList).filterMap component? := by
  rcases splitOn_asDirectory p with hparts | hparts
  · rw [hparts]
  · rw [hparts, List.filterMap_append]
    exact (List.append_nil _).symm

theorem head?_asDirectory (p : Path) :
    (splitOn '/' p.asDirectory).head? = (splitOn '/' p.text.toList).head? := by
  rcases splitOn_asDirectory p with hparts | hparts
  · rw [hparts]
  · obtain ⟨first, rest, hfirst⟩ :=
      List.exists_cons_of_ne_nil (splitOn_ne_nil '/' p.asDirectory)
    rw [hparts, hfirst]
    rfl

/-- The parts of a relative path in a directory follow the parts of the directory. -/
theorem exists_splitOn_join {q : Path} (h : q.isAbsolute = false) (p : Path) :
    ∃ front, splitOn '/' (p.join q).text.toList = front ++ splitOn '/' q.text.toList ∧
      front.filterMap component? = (splitOn '/' p.text.toList).filterMap component? := by
  by_cases hp : p.text = ""
  · obtain rfl : p = ⟨""⟩ := by rw [← hp]
    exact ⟨[], by rw [empty_join]; rfl, rfl⟩
  · exact ⟨_, by rw [toList_join h hp, splitOn_append_cons], filterMap_asDirectory p⟩

theorem steps_join {q : Path} (h : q.isAbsolute = false) (p : Path) :
    (splitOn '/' (p.join q).text.toList).filterMap component? =
      (splitOn '/' p.text.toList).filterMap component? ++
        (splitOn '/' q.text.toList).filterMap component? := by
  obtain ⟨front, hparts, hfront⟩ := exists_splitOn_join h p
  rw [hparts, List.filterMap_append, hfront]

/-- The components of a relative path are entered from the directory that it is seen from. -/
theorem names_join {q : Path} (h : q.isAbsolute = false) (p : Path) :
    (p.join q).names = q.components.foldl Component.enter p.names := by
  rw [foldl_enter_components h, names_eq, names_eq, ← List.foldl_append, steps_join h]

theorem isAbsolute_join {p : Path} (h : p.isAbsolute = true) (q : Path) :
    (p.join q).isAbsolute = true := by
  obtain ⟨rest, hrest⟩ := List.head?_eq_some_iff.mp (of_decide_eq_true h)
  rw [join]
  split
  · assumption
  · split <;> simp [isAbsolute, hrest]

/-- A way from a directory: so many directories up, then down by names. -/
structure Route where
  up : Nat
  down : List String
deriving DecidableEq

namespace Route

def step (route : Route) : Component → Route
  | .root => route
  | .current => route
  | .parent =>
    if route.down = [] then { route with up := route.up + 1 }
    else { route with down := route.down.dropLast }
  | .name text => { route with down := route.down ++ [text] }

/-- The directory to which a way leads from a directory; above the root there is none. -/
def follow (route : Route) (dir : List String) : List String :=
  dir.take (dir.length - route.up) ++ route.down

theorem follow_step {c : Component} (h : c ≠ .root) (route : Route) (dir : List String) :
    (route.step c).follow dir = c.enter (route.follow dir) := by
  cases c with
  | root => exact absurd rfl h
  | current => rfl
  | parent =>
    rw [step]
    split
    · next hdown =>
      simp only [follow, Component.enter, hdown, List.append_nil]
      rw [List.dropLast_eq_take, List.take_take, List.length_take]
      congr 1
      omega
    · next hdown =>
      simp only [follow, Component.enter]
      rw [List.dropLast_append_of_ne_nil hdown]
  | name text => simp only [step, follow, Component.enter, List.append_assoc]

theorem follow_foldl {components : List Component} (h : .root ∉ components) (route : Route)
    (dir : List String) : (components.foldl step route).follow dir =
      components.foldl Component.enter (route.follow dir) := by
  induction components generalizing route with
  | nil => rfl
  | cons c components ih =>
    have hc : c ≠ .root := fun heq => h (heq ▸ List.mem_cons_self)
    rw [List.foldl_cons, List.foldl_cons, ih fun hmem => h (List.mem_cons_of_mem c hmem),
      follow_step hc]

theorem up_foldl {components : List Component} (h : .parent ∉ components) (route : Route) :
    (components.foldl step route).up = route.up := by
  induction components generalizing route with
  | nil => rfl
  | cons c components ih =>
    rw [List.foldl_cons, ih fun hmem => h (List.mem_cons_of_mem c hmem)]
    cases c with
    | parent => exact absurd List.mem_cons_self h
    | root => rfl
    | current => rfl
    | name text => rfl

theorem prefix_follow_iff (route : Route) (dir : List String) :
    dir <+: route.follow dir ↔ dir.drop (dir.length - route.up) <+: route.down := by
  have h : dir.take (dir.length - route.up) ++ dir.drop (dir.length - route.up) <+:
      route.follow dir ↔ dir.drop (dir.length - route.up) <+: route.down :=
    List.prefix_append_right_inj _
  rwa [List.take_append_drop] at h

end Route

def route (p : Path) : Route := p.components.foldl Route.step { up := 0, down := [] }

theorem names_join_route {q : Path} (h : q.isAbsolute = false) (p : Path) :
    (p.join q).names = q.route.follow p.names := by
  rw [names_join h, route, Route.follow_foldl (root_notMem_components h)]
  simp [Route.follow]

/-- A path that is seen from a directory stays in it: a relative one comes down again by the names
that it went up, an absolute one leads there by itself. -/
inductive StaysIn (dir p : Path) : Prop where
  | relative (hrelative : p.isAbsolute = false)
      (hback : dir.names.drop (dir.names.length - p.route.up) <+: p.route.down) : StaysIn dir p
  | absolute (habsolute : p.isAbsolute = true) (hbelow : dir.names <+: p.names) : StaysIn dir p

theorem within_join_iff {dir p : Path} : (dir.join p).Within dir ↔ StaysIn dir p := by
  cases habsolute : p.isAbsolute with
  | true =>
    rw [join_of_absolute habsolute]
    refine ⟨.absolute habsolute, ?_⟩
    rintro (⟨hrelative, -⟩ | ⟨-, hbelow⟩)
    · rw [habsolute] at hrelative
      cases hrelative
    · exact hbelow
  | false =>
    rw [Within, names_join_route habsolute, Route.prefix_follow_iff]
    refine ⟨.relative habsolute, ?_⟩
    rintro (⟨-, hback⟩ | ⟨habsolute', -⟩)
    · exact hback
    · rw [habsolute] at habsolute'
      cases habsolute'

example : (⟨"/home/docs"⟩ : Path).StaysIn ⟨"../docs/a.ts"⟩ :=
  .relative (by decide) (by decide)

/-- A relative path without a parent directory in it. -/
structure Downward (p : Path) : Prop where
  relative : p.isAbsolute = false
  noParent : .parent ∉ p.components

theorem downward_ofList_iff {path : List Char} : (⟨String.ofList path⟩ : Path).Downward ↔
    ¬ ['/'] <+: path ∧ ['.', '.'] ∉ splitOn '/' path := by
  have habsolute : (⟨String.ofList path⟩ : Path).isAbsolute = true ↔ ['/'] <+: path := by
    rw [isAbsolute, String.toList_ofList, decide_eq_true_eq, List.head?_eq_some_iff]
    exact exists_congr fun rest => eq_comm
  have hparent : .parent ∈ (⟨String.ofList path⟩ : Path).components ↔
      ['.', '.'] ∈ splitOn '/' path := by
    rw [parent_mem_components_iff, String.toList_ofList]
  rw [← habsolute, ← hparent, Bool.not_eq_true]
  exact ⟨fun h => ⟨h.relative, h.noParent⟩, fun h => ⟨h.1, h.2⟩⟩

theorem Downward.within {p : Path} (h : p.Downward) (dir : Path) : (dir.join p).Within dir := by
  refine within_join_iff.mpr (.relative h.relative ?_)
  rw [route, Route.up_foldl h.noParent]
  simp

end Path

end DocSnippets
