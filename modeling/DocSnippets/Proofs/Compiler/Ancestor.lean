import DocSnippets.Proofs.Compiler.Layers
import DocSnippets.Proofs.Path.Components

/-!
# The root directory of a project

The root directory is spelled with the components that the package root and the directory of the
snippet have in common. It holds both of them as long as none goes up behind these components,
unless it comes down again by the same names. It is the deepest such directory where nothing goes up
behind them, unless only one of the paths starts with a dot and the same name is next in both.
-/

namespace DocSnippets

namespace Path

/-- The components that two paths share. -/
def shared (a b : Path) : List Component := sharedComponents a.components b.components

/-- The components of a path behind those that it shares with another one. -/
def behind (a b : Path) : List Component := a.components.drop (a.shared b).length

theorem sharedComponents_comm (as bs : List Component) :
    sharedComponents as bs = sharedComponents bs as := by
  induction as generalizing bs with
  | nil => cases bs <;> rfl
  | cons a as ih =>
    cases bs with
    | nil => rfl
    | cons b bs =>
      rw [sharedComponents, sharedComponents]
      by_cases h : a = b
      · rw [if_pos h, if_pos h.symm, ih, h]
      · rw [if_neg h, if_neg (Ne.symm h)]

/-- Shared components are in front of both lists, and the next ones differ. -/
theorem exists_sharedComponents (as bs : List Component) : ∃ ra rb,
    as = sharedComponents as bs ++ ra ∧ bs = sharedComponents as bs ++ rb ∧
      ∀ c, ra.head? = some c → rb.head? ≠ some c := by
  induction as generalizing bs with
  | nil => exact ⟨[], bs, by cases bs <;> rfl, by cases bs <;> rfl, fun c hc => by cases hc⟩
  | cons a as ih =>
    cases bs with
    | nil => exact ⟨a :: as, [], rfl, rfl, fun c _ hc => by cases hc⟩
    | cons b bs =>
      rw [sharedComponents]
      by_cases h : a = b
      · obtain ⟨ra, rb, has, hbs, hapart⟩ := ih bs
        refine ⟨ra, rb, ?_, ?_, hapart⟩
        · rw [if_pos h, List.cons_append, ← has]
        · rw [if_pos h, List.cons_append, ← hbs, h]
      · refine ⟨a :: as, b :: bs, by rw [if_neg h]; rfl, by rw [if_neg h]; rfl, ?_⟩
        rintro c ha hb
        exact h (Option.some.inj (ha.trans hb.symm))

variable {a b : Path}

theorem shared_comm (a b : Path) : a.shared b = b.shared a := sharedComponents_comm _ _

theorem exists_behind (a b : Path) : a.components = a.shared b ++ a.behind b ∧
    b.components = a.shared b ++ b.behind a ∧
      ∀ c, (a.behind b).head? = some c → (b.behind a).head? ≠ some c := by
  obtain ⟨ra, rb, ha, hb, hapart⟩ := exists_sharedComponents a.components b.components
  have hra : a.behind b = ra :=
    (congrArg (List.drop (a.shared b).length) ha).trans List.drop_left
  have hrb : b.behind a = rb := by
    rw [behind, shared_comm]
    exact (congrArg (List.drop (a.shared b).length) hb).trans List.drop_left
  rw [hra, hrb]
  exact ⟨ha, hb, hapart⟩

theorem shared_append_behind (a b : Path) : a.components = a.shared b ++ a.behind b :=
  (exists_behind a b).1

theorem regular_shared (a b : Path) : Regular (a.shared b) :=
  (shared_append_behind a b ▸ regular_components a).of_append_left

theorem regular_behind (a b : Path) : Regular (a.behind b) :=
  (shared_append_behind a b ▸ regular_components a).of_append_right

/-- Where what two paths share leads, or the root. -/
theorem names_join_commonAncestor (here a b : Path) :
    (here.join (commonAncestor a b)).names = (a.shared b).foldl Component.enter here.names ∨
      (here.join (commonAncestor a b)).names = [] ∧ a.shared b = [] ∧ a.isAbsolute = true := by
  rw [commonAncestor, ← shared]
  by_cases hnil : a.shared b = []
  · rw [hnil, if_neg (by decide)]
    by_cases habsolute : a.isAbsolute = true
    · rw [if_pos habsolute]
      exact .inr ⟨names_join_eq here ⟨"/"⟩, rfl, habsolute⟩
    · rw [if_neg habsolute]
      exact .inl (names_join_eq here ⟨"."⟩)
  · rw [if_pos (ofComponents_ne_empty (regular_shared a b) hnil)]
    exact .inl (names_join_ofComponents (regular_shared a b) here)

/-- A path is in a directory that its first components spell, if the other ones stay in it. -/
theorem within_iff_staysIn {here p dir : Path} {front back : List Component}
    (hcomponents : p.components = front ++ back) (hback : Regular back)
    (hdir : (here.join dir).names = front.foldl Component.enter here.names ∨
      (here.join dir).names = []) :
    (here.join p).Within (here.join dir) ↔ (here.join dir).StaysIn (ofComponents back) := by
  rw [← within_join_iff]
  rcases hdir with hdir | hdir
  · rw [Within, Within, names_join_ofComponents hback, hdir, names_join_eq here p, hcomponents,
      List.foldl_append]
  · rw [Within, Within, hdir]
    exact iff_of_true List.nil_prefix List.nil_prefix

/-! ### The deepest directory -/

namespace Descending

variable {components : List Component}

/-- The first of the names is the first component, or comes behind a dot. -/
theorem head_names (h : Descending components) (hdot : .current ∉ components.tail) {n : String}
    (hn : (components.filterMap Component.name?).head? = some n) :
    (∃ rest, components = .name n :: rest) ∨ ∃ rest, components = .current :: .name n :: rest := by
  cases components with
  | nil => cases hn
  | cons c rest =>
    cases c with
    | root => exact absurd List.mem_cons_self h.noRoot
    | parent => exact absurd List.mem_cons_self h.noParent
    | name m => exact .inl ⟨rest, by rw [Option.some.inj hn]⟩
    | current =>
      cases rest with
      | nil => cases hn
      | cons c' rest =>
        cases c' with
        | root => exact absurd (List.mem_cons_of_mem _ List.mem_cons_self) h.noRoot
        | parent => exact absurd (List.mem_cons_of_mem _ List.mem_cons_self) h.noParent
        | current => exact absurd List.mem_cons_self hdot
        | name m => exact .inr ⟨rest, by rw [Option.some.inj hn]⟩

end Descending

theorem current_notMem_tail (p : Path) : .current ∉ p.components.tail := by
  obtain ⟨first, steps, hcomponents, hfirst, hsteps⟩ := components_eq_steps p
  have hcurrent : .current ∉ steps := by
    intro hmem
    rcases hsteps _ hmem with h | ⟨n, h, -⟩ <;> cases h
  rw [hcomponents]
  rcases hfirst with ⟨-, rfl⟩ | ⟨-, rfl | rfl⟩
  · exact hcurrent
  · exact fun hmem => hcurrent (List.mem_of_mem_tail hmem)
  · exact hcurrent

theorem shared_ne_nil (ha : a.isAbsolute = true) (hb : b.isAbsolute = true) :
    a.shared b ≠ [] := by
  obtain ⟨dot, -, hacomponents⟩ := components_eq a
  obtain ⟨dot', -, hbcomponents⟩ := components_eq b
  rw [shared, hacomponents, hbcomponents, ha, hb]
  exact List.cons_ne_nil _ _

theorem behind_subset_tail (h : a.shared b ≠ []) : a.behind b ⊆ a.components.tail := by
  obtain ⟨first, rest, hshared⟩ := List.exists_cons_of_ne_nil h
  rw [shared_append_behind a b, hshared]
  exact List.subset_append_right rest _

theorem root_notMem_behind (h : a.isAbsolute = b.isAbsolute) : .root ∉ a.behind b := by
  cases ha : a.isAbsolute with
  | false =>
    intro hmem
    apply root_notMem_components ha
    rw [shared_append_behind a b]
    exact List.mem_append_right _ hmem
  | true =>
    intro hmem
    exact (regular_components a).rootFirst
      (behind_subset_tail (shared_ne_nil ha (h.symm.trans ha)) hmem)

/-- One of the paths starts with a dot, and the same name is next in both. -/
def Misaligned (a b : Path) : Prop :=
  ∃ n rest rest', a.components = .current :: .name n :: rest ∧ b.components = .name n :: rest' ∨
    b.components = .current :: .name n :: rest ∧ a.components = .name n :: rest'

theorem misaligned_of_heads (ha : Descending (a.behind b)) (hb : Descending (b.behind a))
    {n : String} (hna : ((a.behind b).filterMap Component.name?).head? = some n)
    (hnb : ((b.behind a).filterMap Component.name?).head? = some n) : Misaligned a b := by
  obtain ⟨hacomponents, hbcomponents, hapart⟩ := exists_behind a b
  have hdot (p q : Path) : .current ∉ (p.behind q).tail := by
    intro hmem
    rw [behind, List.tail_drop, ← List.drop_tail] at hmem
    exact current_notMem_tail p (List.mem_of_mem_drop hmem)
  have hnone {p q : Path} (hmem : .current ∈ p.behind q) : p.shared q = [] := by
    by_contra hne
    exact current_notMem_tail p (behind_subset_tail hne hmem)
  rcases ha.head_names (hdot a b) hna with ⟨rest, hra⟩ | ⟨rest, hra⟩ <;>
    rcases hb.head_names (hdot b a) hnb with ⟨rest', hrb⟩ | ⟨rest', hrb⟩
  · exact absurd (by rw [hrb]; rfl) (hapart (.name n) (by rw [hra]; rfl))
  · have hshared : a.shared b = [] := by
      rw [shared_comm]
      exact hnone (by rw [hrb]; exact List.mem_cons_self)
    rw [hshared, List.nil_append] at hacomponents hbcomponents
    exact ⟨n, rest', rest, .inr ⟨hbcomponents.trans hrb, hacomponents.trans hra⟩⟩
  · have hshared : a.shared b = [] := hnone (by rw [hra]; exact List.mem_cons_self)
    rw [hshared, List.nil_append] at hacomponents hbcomponents
    exact ⟨n, rest, rest', .inl ⟨hacomponents.trans hra, hbcomponents.trans hrb⟩⟩
  · exact absurd (by rw [hrb]; rfl) (hapart .current (by rw [hra]; rfl))

theorem heads_of_misaligned (h : Misaligned a b) : a.shared b = [] ∧
    ∃ n, IsName n.toList ∧ (a.components.filterMap Component.name?).head? = some n ∧
      (b.components.filterMap Component.name?).head? = some n := by
  obtain ⟨n, rest, rest', ⟨ha, hb⟩ | ⟨hb, ha⟩⟩ := h
  · have hname := (regular_components b).isName n (by rw [hb]; exact List.mem_cons_self)
    refine ⟨by rw [shared, ha, hb]; rfl, n, hname, by rw [ha]; rfl, by rw [hb]; rfl⟩
  · have hname := (regular_components a).isName n (by rw [ha]; exact List.mem_cons_self)
    refine ⟨by rw [shared, ha, hb]; rfl, n, hname, by rw [ha]; rfl, by rw [hb]; rfl⟩

theorem prefix_of_apart {dir x y l : List String}
    (hapart : ∀ n, x.head? = some n → y.head? ≠ some n) (hx : l <+: dir ++ x)
    (hy : l <+: dir ++ y) : l <+: dir := by
  rcases List.prefix_or_prefix_of_prefix hx (List.prefix_append dir x) with hl | ⟨more, rfl⟩
  · exact hl
  · have hmx := (List.prefix_append_right_inj dir).mp hx
    have hmy := (List.prefix_append_right_inj dir).mp hy
    cases more with
    | nil => exact ⟨[], by simp⟩
    | cons n more =>
      obtain ⟨_, rfl⟩ := hmx
      obtain ⟨_, rfl⟩ := hmy
      exact absurd rfl (hapart n rfl)

/-- Every directory that holds both paths holds the third one, all seen from the same directory. -/
def Deepest (here a b dir : Path) : Prop :=
  ∀ other, (here.join a).Within (here.join other) → (here.join b).Within (here.join other) →
    (here.join dir).Within (here.join other)

/-- Both paths are absolute or both relative, and neither goes up behind what they share. -/
structure Straight (a b : Path) : Prop where
  kind : a.isAbsolute = b.isAbsolute
  first : .parent ∉ a.behind b
  second : .parent ∉ b.behind a

namespace Straight

theorem names_commonAncestor (h : Straight a b) (here : Path) :
    (here.join (commonAncestor a b)).names =
      (a.shared b).foldl Component.enter here.names := by
  rcases names_join_commonAncestor here a b with hdir | ⟨-, hnil, habsolute⟩
  · exact hdir
  · exact absurd hnil (shared_ne_nil habsolute (h.kind.symm.trans habsolute))

theorem descending_first (h : Straight a b) : Descending (a.behind b) :=
  ⟨root_notMem_behind h.kind, h.first⟩

theorem descending_second (h : Straight a b) : Descending (b.behind a) :=
  ⟨root_notMem_behind h.kind.symm, h.second⟩

theorem names_first (h : Straight a b) (here : Path) : (here.join a).names =
    (here.join (commonAncestor a b)).names ++ (a.behind b).filterMap Component.name? := by
  rw [h.names_commonAncestor, ← h.descending_first.foldl_enter, ← List.foldl_append,
    ← shared_append_behind, names_join_eq]

theorem names_second (h : Straight a b) (here : Path) : (here.join b).names =
    (here.join (commonAncestor a b)).names ++ (b.behind a).filterMap Component.name? := by
  rw [h.names_commonAncestor, ← h.descending_second.foldl_enter, ← List.foldl_append, shared_comm,
    ← shared_append_behind, names_join_eq]

theorem deepest_iff (h : Straight a b) (here : Path) :
    Deepest here a b (commonAncestor a b) ↔ ¬ Misaligned a b := by
  constructor
  · intro hdeepest hmisaligned
    obtain ⟨hnil, n, hname, hna, hnb⟩ := heads_of_misaligned hmisaligned
    have hother : (here.join ⟨n⟩).names = (here.join (commonAncestor a b)).names ++ [n] := by
      rw [names_join_eq, (components_name hname).2, h.names_commonAncestor, hnil]
      rfl
    have hbelow {names : List String} (hhead : names.head? = some n) : [n] <+: names := by
      obtain ⟨rest, rfl⟩ := List.head?_eq_some_iff.mp hhead
      exact ⟨rest, rfl⟩
    have hacomponents := shared_append_behind a b
    have hbcomponents := shared_append_behind b a
    rw [shared_comm] at hbcomponents
    rw [hnil, List.nil_append] at hacomponents hbcomponents
    have hwithin := hdeepest ⟨n⟩
      (by
        rw [Within, hother, h.names_first, ← hacomponents]
        exact (List.prefix_append_right_inj _).mpr (hbelow hna))
      (by
        rw [Within, hother, h.names_second, ← hbcomponents]
        exact (List.prefix_append_right_inj _).mpr (hbelow hnb))
    rw [Within, hother] at hwithin
    have hlength := hwithin.length_le
    rw [List.length_append, List.length_singleton] at hlength
    omega
  · intro haligned other hoa hob
    rw [Within, h.names_first] at hoa
    rw [Within, h.names_second] at hob
    apply prefix_of_apart _ hoa hob
    intro n hna hnb
    exact haligned (misaligned_of_heads h.descending_first h.descending_second hna hnb)

end Straight

end Path

namespace ProjectFile

/-- What the common ancestor of a package root and a directory holds, with all paths seen from the
same directory. It is the root directory of every project for a snippet in the directory. -/
structure Encloses (root directory ancestor : Path) : Prop where
  holdsRoot : ∀ here : Path, (here.join root).Within (here.join ancestor) ↔
    (here.join ancestor).StaysIn (.ofComponents (root.behind directory))
  holdsDirectory : ∀ here : Path, (here.join directory).Within (here.join ancestor) ↔
    (here.join ancestor).StaysIn (.ofComponents (directory.behind root))
  holds : root.Straight directory → ∀ here : Path, (here.join root).Within (here.join ancestor) ∧
    (here.join directory).Within (here.join ancestor)
  deepest : root.Straight directory → ∀ here,
    (Path.Deepest here root directory ancestor ↔ ¬ Path.Misaligned root directory)
  option : ∀ (r : Request) (hasBase : Bool), r.file.parent?.getD ⟨""⟩ = directory →
    (options root r hasBase).lookup "rootDir" = some (.string ancestor.text)

/-- The common ancestor holds both paths, unless one of them goes up behind the components that they
share and does not come down again by the same names. -/
theorem commonAncestor_encloses (root directory : Path) :
    Encloses root directory (commonAncestor root directory) := by
  constructor
  case holdsRoot =>
    intro here
    apply Path.within_iff_staysIn (Path.shared_append_behind root directory)
      (Path.regular_behind root directory)
    exact (Path.names_join_commonAncestor here root directory).imp_right And.left
  case holdsDirectory =>
    intro here
    apply Path.within_iff_staysIn (Path.shared_append_behind directory root)
      (Path.regular_behind directory root)
    rw [Path.shared_comm]
    exact (Path.names_join_commonAncestor here root directory).imp_right And.left
  case holds =>
    intro hstraight here
    rw [Path.Within, Path.Within, hstraight.names_first, hstraight.names_second]
    exact ⟨List.prefix_append _ _, List.prefix_append _ _⟩
  case deepest => exact fun hstraight here => hstraight.deepest_iff here
  case option =>
    rintro r hasBase rfl
    exact (options_layered root r hasBase).rootDir

/-- The deepest directory is missed when one path starts with a dot. -/
example : commonAncestor ⟨"./pkg"⟩ ⟨"pkg/w"⟩ = ⟨"."⟩ := by decide +kernel

/-- A package root that goes up out of what it shares with the directory of the snippet is outside
of their root directory. -/
theorem sibling_excluded :
    commonAncestor ⟨"/pkg/../lib"⟩ ⟨"/pkg/w"⟩ = ⟨"/pkg"⟩ ∧
      ¬ ((⟨"/"⟩ : Path).join ⟨"/pkg/../lib"⟩).Within ((⟨"/"⟩ : Path).join ⟨"/pkg"⟩) := by
  decide +kernel

end ProjectFile

end DocSnippets
