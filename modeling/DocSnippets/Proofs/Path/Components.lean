import DocSnippets.Proofs.Path.Lexical
import Mathlib.Data.List.Basic
import Mathlib.Data.List.Induction

/-!
# Paths from components

The root and the current directory are components only at the start of a path. A path that is put
together from some of the components of another one leads where these lead one after the other.
Where nothing goes up, they lead down by their names.
-/

namespace DocSnippets.Path

open Text

theorem isAbsolute_join_relative {p q : Path} (hp : p.isAbsolute = false)
    (hq : q.isAbsolute = false) : (p.join q).isAbsolute = false := by
  have hrel : ¬ q.isAbsolute = true := by rw [hq]; exact Bool.false_ne_true
  rw [join, if_neg hrel]
  cases htext : p.text.toList with
  | nil => simpa [isAbsolute, htext] using hq
  | cons c rest =>
    split <;> simpa [isAbsolute, htext] using hp

theorem isAbsolute_join_eq {q : Path} (h : q.isAbsolute = false) (p : Path) :
    (p.join q).isAbsolute = p.isAbsolute := by
  cases habsolute : p.isAbsolute with
  | false => exact isAbsolute_join_relative habsolute h
  | true => exact isAbsolute_join habsolute q

/-- Where a path leads from a directory. -/
theorem names_join_eq (here p : Path) :
    (here.join p).names = p.components.foldl Component.enter here.names := by
  cases habsolute : p.isAbsolute with
  | false => exact names_join habsolute here
  | true =>
    obtain ⟨dot, -, hcomponents⟩ := components_eq p
    rw [join_of_absolute habsolute, names, hcomponents, habsolute]
    rfl

theorem names_join_join {q : Path} (h : q.isAbsolute = false) (here p : Path) :
    (here.join (p.join q)).names = q.components.foldl Component.enter (here.join p).names := by
  cases hp : p.isAbsolute with
  | true =>
    rw [join_of_absolute (isAbsolute_join hp q), join_of_absolute hp]
    exact names_join h p
  | false =>
    rw [names_join (isAbsolute_join_relative hp h), names_join hp,
      foldl_enter_components (isAbsolute_join_relative hp h), foldl_enter_components hp,
      foldl_enter_components h, steps_join h, List.foldl_append]

theorem isName_of_component? {part : List Char} {n : String} (hslash : '/' ∉ part)
    (h : component? part = some (.name n)) : IsName n.toList := by
  unfold component? at h
  split at h
  · cases h
  · next hplain =>
    split at h
    · cases h
    · next hdots =>
      obtain rfl := Component.name.inj (Option.some.inj h)
      rw [String.toList_ofList]
      exact ⟨fun hnil => hplain (.inl hnil), fun hdot => hplain (.inr hdot), hdots, hslash⟩

/-- The components of a path: the root of an absolute one, or the dot that a relative one may start
with, and then names and parent directories. -/
theorem components_eq_steps (p : Path) : ∃ first steps, p.components = first ++ steps ∧
    (p.isAbsolute = true ∧ first = [.root] ∨
      p.isAbsolute = false ∧ (first = [] ∨ first = [.current])) ∧
    ∀ c ∈ steps, c = .parent ∨ ∃ n, c = .name n ∧ IsName n.toList := by
  have hsteps : ∀ c ∈ (splitOn '/' p.text.toList).filterMap component?,
      c = .parent ∨ ∃ n, c = .name n ∧ IsName n.toList := by
    intro c hc
    obtain ⟨part, hpart, hcomponent⟩ := List.mem_filterMap.mp hc
    have hslash := notMem_of_mem_splitOn hpart
    have hname := isName_of_component? hslash (n := String.ofList part)
    unfold component? at hcomponent hname
    split at hcomponent
    · cases hcomponent
    · next hplain =>
      split at hcomponent
      · exact .inl (Option.some.inj hcomponent).symm
      · next hdots =>
        rw [if_neg hplain, if_neg hdots] at hname
        exact .inr ⟨_, (Option.some.inj hcomponent).symm, hname rfl⟩
  cases habsolute : p.isAbsolute with
  | false =>
    obtain ⟨dot, hdot, hcomponents⟩ := components_eq p
    rw [habsolute] at hcomponents
    exact ⟨dot, _, hcomponents, .inr ⟨rfl, hdot⟩, hsteps⟩
  | true =>
    -- The part before the first slash is empty, so no dot stands at the start.
    obtain ⟨rest, hrest⟩ := List.head?_eq_some_iff.mp (of_decide_eq_true habsolute)
    have hparts : splitOn '/' p.text.toList = [] :: splitOn '/' rest := by
      rw [hrest, splitOn, if_pos rfl]
    refine ⟨[.root], _, ?_, .inl ⟨rfl, rfl⟩, hsteps⟩
    rw [components, marks, habsolute, if_pos rfl, hparts, marksFrom, if_pos rfl, List.map_cons,
      map_marksFrom, List.filterMap_cons]
    rfl

/-- Components that a path can be put together from. -/
structure Regular (components : List Component) : Prop where
  rootFirst : .root ∉ components.tail
  isName : ∀ n, .name n ∈ components → IsName n.toList

theorem regular_components (p : Path) : Regular p.components := by
  obtain ⟨first, steps, hcomponents, hfirst, hsteps⟩ := components_eq_steps p
  have hroot : .root ∉ steps := by
    intro hmem
    rcases hsteps _ hmem with h | ⟨n, h, -⟩ <;> cases h
  rw [hcomponents]
  constructor
  case rootFirst =>
    rcases hfirst with ⟨-, rfl⟩ | ⟨-, rfl | rfl⟩
    · exact hroot
    · exact fun hmem => hroot (List.mem_of_mem_tail hmem)
    · exact hroot
  case isName =>
    intro n hmem
    have hmem : .name n ∈ steps := by
      rcases hfirst with ⟨-, rfl⟩ | ⟨-, rfl | rfl⟩ <;> simpa using hmem
    rcases hsteps _ hmem with h | ⟨n', h, hname⟩
    · cases h
    · exact Component.name.inj h ▸ hname

namespace Regular

variable {front back components : List Component}

theorem of_append_left (h : Regular (front ++ back)) : Regular front where
  rootFirst hmem := h.rootFirst (by
    cases front with
    | nil => cases hmem
    | cons c front => exact List.mem_append_left back hmem)
  isName n hmem := h.isName n (List.mem_append_left back hmem)

theorem of_append_right (h : Regular (front ++ back)) : Regular back where
  rootFirst hmem := h.rootFirst (by
    cases front with
    | nil => exact hmem
    | cons c front => exact List.mem_append_right front (List.mem_of_mem_tail hmem))
  isName n hmem := h.isName n (List.mem_append_right front hmem)

end Regular

theorem components_name {n : String} (h : IsName n.toList) :
    (⟨n⟩ : Path).isAbsolute = false ∧ (⟨n⟩ : Path).components = [.name n] := by
  have hrelative := isAbsolute_of_notMem h.noSlash
  refine ⟨hrelative, ?_⟩
  rw [components, marks, hrelative, splitOn_of_notMem h.noSlash, marksFrom, if_neg h.ne_nil,
    if_neg h.ne_dot, if_neg h.ne_dots, String.ofList_toList]
  rfl

theorem components_text {c : Component} (hroot : c ≠ .root)
    (hname : ∀ n, c = .name n → IsName n.toList) :
    (⟨c.text⟩ : Path).isAbsolute = false ∧ (⟨c.text⟩ : Path).components = [c] := by
  cases c with
  | root => exact absurd rfl hroot
  | current => decide
  | parent => decide
  | name n => exact components_name (hname n rfl)

theorem exists_names {parts : List (List Char)} (h : ['.', '.'] ∉ parts) :
    ∃ names : List String, parts.filterMap component? = names.map .name := by
  induction parts with
  | nil => exact ⟨[], rfl⟩
  | cons part parts ih =>
    obtain ⟨hpart, hparts⟩ := not_or.mp (mt List.mem_cons.mpr h)
    obtain ⟨names, hnames⟩ := ih hparts
    rw [List.filterMap_cons, component?, if_neg (Ne.symm hpart), hnames]
    split
    · next hnone => exact ⟨names, rfl⟩
    · next c hsome =>
      split at hsome
      · cases hsome
      · obtain rfl := Option.some.inj hsome
        exact ⟨String.ofList part :: names, rfl⟩

/-- Without a dot at its start, a path has the components that its parts are. -/
theorem components_eq_of_dotless {p : Path} (h : p.components.head? ≠ some .current) :
    p.components = (if p.isAbsolute then [.root] else []) ++
      (splitOn '/' p.text.toList).filterMap component? := by
  have hparts := components_eq_parts p
  rcases dotOf_eq_or (splitOn '/' p.text.toList) with hdot | hdot
  · rwa [hdot, List.nil_append] at hparts
  · cases habsolute : p.isAbsolute with
    | false =>
      rw [hparts, hdot, habsolute] at h
      exact absurd rfl h
    | true =>
      obtain ⟨rest, hrest⟩ := List.head?_eq_some_iff.mp (of_decide_eq_true habsolute)
      rw [hrest, splitOn, if_pos rfl] at hdot
      cases hdot

theorem asDirectory_join {p q : Path} (hq : q.isAbsolute = false) (hp : p.text ≠ "")
    (hne : q.text ≠ "") : (p.join q).asDirectory = p.asDirectory ++ '/' :: q.asDirectory := by
  have htext : q.text.toList ≠ [] := fun hnil => hne (String.toList_eq_nil_iff.mp hnil)
  have hlast : (p.asDirectory ++ '/' :: q.text.toList).getLast? = q.text.toList.getLast? := by
    rw [List.getLast?_append_of_ne_nil _ (List.cons_ne_nil _ _),
      List.getLast?_cons_of_ne_nil htext]
  rw [asDirectory, toList_join hq hp, hlast, asDirectory.eq_1 q]
  split
  · rw [List.dropLast_append_of_ne_nil (List.cons_ne_nil _ _),
      List.dropLast_cons_of_ne_nil htext]
  · rfl

theorem join_join {p q r : Path} (hq : q.isAbsolute = false) (hr : r.isAbsolute = false)
    (hqr : (q.join r).isAbsolute = false) (hp : p.text ≠ "") (hpq : (p.join q).text ≠ "")
    (hne : q.text ≠ "") : (p.join q).join r = p.join (q.join r) := by
  apply ext_toList
  rw [toList_join hr hpq, asDirectory_join hq hp hne, toList_join hqr hp, toList_join hr hne,
    List.append_assoc, List.cons_append]

/-- Behind a path that is not empty, only the parts of a relative path that lead somewhere count. -/
theorem components_join {p q : Path} (hq : q.isAbsolute = false) (hp : p.text ≠ "") :
    (p.join q).components =
      p.components ++ (splitOn '/' q.text.toList).filterMap component? := by
  have hdot : dotOf (splitOn '/' p.asDirectory ++ splitOn '/' q.text.toList) =
      dotOf (splitOn '/' p.text.toList) := by
    rw [dotOf, dotOf, List.head?_append, head?_asDirectory]
    cases hsplit : splitOn '/' p.text.toList with
    | nil => exact absurd hsplit (splitOn_ne_nil '/' _)
    | cons part parts => rfl
  rw [components_eq_parts, components_eq_parts p, isAbsolute_join_eq hq, toList_join hq hp,
    splitOn_append_cons, hdot, List.filterMap_append, filterMap_asDirectory, List.append_assoc,
    List.append_assoc]

/-- The first part of a relative path holds its first character. -/
theorem exists_first_part {p : Path} (hrelative : p.isAbsolute = false) (hp : p.text ≠ "") :
    ∃ first rest, splitOn '/' p.text.toList = first :: rest ∧ first ≠ [] := by
  cases htext : p.text.toList with
  | nil => exact absurd (String.toList_eq_nil_iff.mp htext) hp
  | cons c behind =>
    have hc : c ≠ '/' := by
      rintro rfl
      simp [isAbsolute, htext] at hrelative
    obtain ⟨part, parts, hparts⟩ := List.exists_cons_of_ne_nil (splitOn_ne_nil '/' behind)
    exact ⟨c :: part, parts, by rw [splitOn, if_neg hc, hparts], List.cons_ne_nil _ _⟩

theorem components_ne_nil {p : Path} (hp : p.text ≠ "") : p.components ≠ [] := by
  intro hnil
  have hparts := components_eq_of_dotless (p := p) (by rw [hnil]; exact nofun)
  rw [hnil] at hparts
  obtain ⟨hroot, hnames⟩ := List.append_eq_nil_iff.mp hparts.symm
  have hrelative : p.isAbsolute = false := by
    by_contra habsolute
    rw [if_pos (Bool.of_not_eq_false habsolute)] at hroot
    cases hroot
  obtain ⟨first, rest, hsplit, hfirst⟩ := exists_first_part hrelative hp
  have hdots := components_eq_parts p
  rw [hnil, hrelative, hsplit] at hdots
  have hdot : first ≠ ['.'] := by
    rintro rfl
    cases hdots
  rw [hsplit, List.filterMap_eq_nil_iff] at hnames
  have hnone := hnames first List.mem_cons_self
  rw [component?, if_neg (not_or.mpr ⟨hfirst, hdot⟩)] at hnone
  split at hnone <;> cases hnone

theorem join_ne_empty {q : Path} (h : q.text ≠ "") (p : Path) : (p.join q).text ≠ "" := by
  have hq : q.text.toList ≠ [] := fun hnil => h (String.toList_eq_nil_iff.mp hnil)
  intro hempty
  have hnil := congrArg String.toList hempty
  rw [join] at hnil
  split at hnil
  · exact hq hnil
  · split at hnil <;> simp [hq] at hnil

theorem ofComponents_concat (front : List Component) (c : Component) :
    ofComponents (front ++ [c]) = (ofComponents front).join ⟨c.text⟩ := List.foldl_append

theorem names_join_ofComponents {components : List Component} (h : Regular components)
    (here : Path) : (here.join (ofComponents components)).names =
      components.foldl Component.enter here.names := by
  induction components using List.reverseRecOn with
  | nil => exact names_join_eq here ⟨""⟩
  | append_singleton front c ih =>
    rw [ofComponents_concat, List.foldl_append, ← ih h.of_append_left]
    by_cases hroot : c = .root
    · have hfront : front = [] := by
        by_contra hne
        obtain ⟨first, rest, rfl⟩ := List.exists_cons_of_ne_nil hne
        exact h.rootFirst (List.mem_append_right rest (List.mem_singleton.mpr hroot.symm))
      rw [hfront, hroot]
      exact names_join_eq here ⟨"/"⟩
    · obtain ⟨hrelative, hcomponents⟩ := components_text hroot fun n hn =>
        h.isName n (List.mem_append_right front (List.mem_singleton.mpr hn.symm))
      rw [names_join_join hrelative, hcomponents]

theorem ofComponents_ne_empty {components : List Component} (h : Regular components)
    (hne : components ≠ []) : (ofComponents components).text ≠ "" := by
  obtain ⟨front, c, rfl⟩ := List.eq_nil_or_concat' components |>.resolve_left hne
  rw [ofComponents_concat]
  apply join_ne_empty
  cases c with
  | root => decide
  | current => decide
  | parent => decide
  | name n =>
    intro hempty
    have hname := h.isName n (List.mem_append_right front List.mem_cons_self)
    have htext : n = "" := hempty
    rw [htext] at hname
    exact hname.ne_nil rfl

def Component.name? : Component → Option String
  | .name n => some n
  | _ => none

/-- Nothing goes up or back to the root in these components. -/
structure Descending (components : List Component) : Prop where
  noRoot : .root ∉ components
  noParent : .parent ∉ components

namespace Descending

variable {components : List Component}

theorem foldl_enter (h : Descending components) (dir : List String) :
    components.foldl Component.enter dir = dir ++ components.filterMap Component.name? := by
  induction components generalizing dir with
  | nil => exact (List.append_nil dir).symm
  | cons c components ih =>
    have hrest : Descending components :=
      ⟨fun hmem => h.noRoot (List.mem_cons_of_mem c hmem),
        fun hmem => h.noParent (List.mem_cons_of_mem c hmem)⟩
    rw [List.foldl_cons, ih hrest]
    cases c with
    | root => exact absurd List.mem_cons_self h.noRoot
    | parent => exact absurd List.mem_cons_self h.noParent
    | current => rfl
    | name n => simp [Component.enter, Component.name?]

end Descending

end DocSnippets.Path
