import DocSnippets.Proofs.Path.Components

/-!
# Going up a path

The parent of a path is the front of its text that spells all of its components but the last one. So
going up takes the components off one after the other, down to the root or to the empty path.
-/

namespace DocSnippets

namespace Text

theorem splitOn_eq_cons {sep : Char} {text part : List Char} {parts : List (List Char)}
    (h : splitOn sep text = part :: parts) :
    text = part ∧ parts = [] ∨ ∃ rest, text = part ++ sep :: rest ∧ splitOn sep rest = parts := by
  induction text generalizing part with
  | nil =>
    obtain ⟨rfl, rfl⟩ := List.cons.inj h
    exact .inl ⟨rfl, rfl⟩
  | cons c text ih =>
    rw [splitOn] at h
    split at h
    · next hc =>
      obtain ⟨rfl, rfl⟩ := List.cons.inj h
      exact .inr ⟨text, by rw [hc]; rfl, rfl⟩
    · cases hparts : splitOn sep text with
      | nil => exact absurd hparts (splitOn_ne_nil sep text)
      | cons part' parts' =>
        rw [hparts] at h
        obtain ⟨rfl, rfl⟩ := List.cons.inj h
        rcases ih hparts with ⟨rfl, hnil⟩ | ⟨rest, htext, hrest⟩
        · exact .inl ⟨rfl, hnil⟩
        · exact .inr ⟨rest, by rw [htext]; rfl, hrest⟩

/-- A text is cut behind one of its parts. -/
theorem exists_of_splitOn {sep : Char} {text part : List Char} {before behind : List (List Char)}
    (h : splitOn sep text = before ++ part :: behind) :
    ∃ front rest, text = front ++ rest ∧ splitOn sep front = before ++ [part] := by
  induction before generalizing text with
  | nil =>
    have hmem : part ∈ splitOn sep text := by rw [h]; exact List.mem_cons_self
    have hpart := notMem_of_mem_splitOn hmem
    refine ⟨part, text.drop part.length, ?_, splitOn_of_notMem hpart⟩
    rcases splitOn_eq_cons h with ⟨rfl, -⟩ | ⟨rest, rfl, -⟩ <;> simp
  | cons first before ih =>
    have hmem : first ∈ splitOn sep text := by rw [h]; exact List.mem_cons_self
    have hfirst := notMem_of_mem_splitOn hmem
    rcases splitOn_eq_cons h with ⟨-, hnil⟩ | ⟨rest, rfl, hrest⟩
    · simp at hnil
    · obtain ⟨front, more, rfl, hfront⟩ := ih hrest
      refine ⟨first ++ sep :: front, more, by simp, ?_⟩
      rw [splitOn_append_cons, hfront, splitOn_of_notMem hfirst]
      rfl

end Text

namespace Path

open Text

variable {p q : Path}

/-- A part adds one component at most, which ends where the part ends. -/
theorem exists_marksFrom_cons (pos : Nat) (first : Bool) (part : List Char) :
    ∃ own : List (Component × Nat), (own = [] ∨ ∃ c, own = [(c, pos + part.length)]) ∧
      ∀ parts, marksFrom pos first (part :: parts) =
        own ++ marksFrom (pos + part.length + 1) false parts := by
  by_cases hnil : part = []
  · exact ⟨[], .inl rfl, fun parts => by rw [marksFrom, if_pos hnil]; rfl⟩
  · by_cases hdot : part = ['.']
    · cases first with
      | true =>
        exact ⟨_, .inr ⟨.current, rfl⟩, fun parts => by
          rw [marksFrom, if_neg hnil, if_pos hdot, if_pos rfl]; rfl⟩
      | false =>
        exact ⟨[], .inl rfl, fun parts => by
          rw [marksFrom, if_neg hnil, if_pos hdot, if_neg Bool.false_ne_true]; rfl⟩
    · by_cases hdots : part = ['.', '.']
      · exact ⟨_, .inr ⟨.parent, rfl⟩, fun parts => by
          rw [marksFrom, if_neg hnil, if_neg hdot, if_pos hdots]; rfl⟩
      · exact ⟨_, .inr ⟨.name (String.ofList part), rfl⟩, fun parts => by
          rw [marksFrom, if_neg hnil, if_neg hdot, if_neg hdots]; rfl⟩

/-- The parts up to the one that a component stands for give the components up to it. -/
theorem exists_part_of_mark {parts : List (List Char)} {pos stop : Nat} {first : Bool}
    {c : Component} {front back : List (Component × Nat)}
    (h : marksFrom pos first parts = front ++ (c, stop) :: back) :
    ∃ before part behind, parts = before ++ part :: behind ∧
      stop + 1 = pos + ((before ++ [part]).map fun part => part.length + 1).sum ∧
      marksFrom pos first (before ++ [part]) = front ++ [(c, stop)] := by
  induction parts generalizing pos first front with
  | nil => simp [marksFrom] at h
  | cons part parts ih =>
    obtain ⟨own, hown, hcons⟩ := exists_marksFrom_cons pos first part
    have hlater {front' : List (Component × Nat)} (hfront : front = own ++ front')
        (hrest : marksFrom (pos + part.length + 1) false parts = front' ++ (c, stop) :: back) :
        ∃ before part' behind, part :: parts = before ++ part' :: behind ∧
          stop + 1 = pos + ((before ++ [part']).map fun part => part.length + 1).sum ∧
          marksFrom pos first (before ++ [part']) = front ++ [(c, stop)] := by
      obtain ⟨before, part', behind, rfl, hstop, hmarks⟩ := ih hrest
      refine ⟨part :: before, part', behind, rfl, ?_, ?_⟩
      · rw [hstop, List.cons_append, List.map_cons, List.sum_cons]
        omega
      · rw [List.cons_append, hcons, hmarks, hfront, List.append_assoc]
    rw [hcons] at h
    rcases hown with rfl | ⟨c', rfl⟩
    · exact hlater rfl h
    · cases front with
      | nil =>
        obtain ⟨hpair, -⟩ := List.cons.inj h
        obtain ⟨rfl, rfl⟩ := Prod.mk.inj hpair
        refine ⟨[], part, parts, rfl, by simp; omega, ?_⟩
        rw [List.nil_append, hcons]
        rfl
      | cons mark front =>
        obtain ⟨rfl, hrest⟩ := List.cons.inj h
        exact hlater rfl hrest

theorem root_mem_components_iff : .root ∈ p.components ↔ p.isAbsolute = true := by
  constructor
  · intro hmem
    by_contra hrelative
    exact root_notMem_components (Bool.not_eq_true _ ▸ hrelative) hmem
  · intro habsolute
    obtain ⟨dot, -, hcomponents⟩ := components_eq p
    rw [hcomponents, if_pos habsolute]
    exact List.mem_cons_self

/-- The root stands in front of all other components. -/
theorem eq_nil_of_root {front back : List Component} (h : p.components = front ++ .root :: back) :
    front = [] := by
  have hfirst := (regular_components p).rootFirst
  cases front with
  | nil => rfl
  | cons c front =>
    rw [h] at hfirst
    exact absurd (List.mem_append_right front List.mem_cons_self) hfirst

/-- What is taken off a path by going up: one component, and some of its text. -/
structure IsParent (p q : Path) : Prop where
  kind : q.isAbsolute = p.isAbsolute
  components : ∃ c, c ≠ .root ∧ p.components = q.components ++ [c]
  text : ∃ rest, rest ≠ [] ∧ p.text.toList = q.text.toList ++ rest

theorem marks_eq (p : Path) : p.marks = (if p.isAbsolute then [(.root, 1)] else []) ++
    marksFrom 0 true (splitOn '/' p.text.toList) := by
  rw [marks]
  split <;> rfl

theorem isAbsolute_of_append {front rest : List Char} (hne : front ≠ [])
    (h : p.text.toList = front ++ rest) :
    (⟨String.ofList front⟩ : Path).isAbsolute = p.isAbsolute := by
  obtain ⟨first, more, rfl⟩ := List.exists_cons_of_ne_nil hne
  rw [isAbsolute, isAbsolute, String.toList_ofList, h]
  rfl

/-- The front of a path that ends with one of its components has the components up to it. -/
theorem marks_take {front back : List (Component × Nat)} {c : Component} {stop : Nat}
    (h : p.marks = front ++ (c, stop) :: back) :
    (⟨String.ofList (p.text.toList.take stop)⟩ : Path).isAbsolute = p.isAbsolute ∧
      (⟨String.ofList (p.text.toList.take stop)⟩ : Path).marks = front ++ [(c, stop)] := by
  by_cases hroot : c = .root
  · subst hroot
    have hcomponents : p.components = front.map (·.1) ++ .root :: back.map (·.1) := by
      rw [components, h, List.map_append, List.map_cons]
    obtain rfl : front = [] := List.map_eq_nil_iff.mp (eq_nil_of_root hcomponents)
    have habsolute : p.isAbsolute = true := by
      rw [← root_mem_components_iff, hcomponents]
      exact List.mem_cons_self
    obtain ⟨rest, htext⟩ := List.head?_eq_some_iff.mp (of_decide_eq_true habsolute)
    rw [marks_eq, if_pos habsolute] at h
    obtain ⟨hmark, -⟩ := List.cons.inj h
    obtain ⟨-, rfl⟩ := Prod.mk.inj hmark
    have htake : p.text.toList.take 1 = ['/'] := by rw [htext]; rfl
    rw [habsolute, htake]
    decide
  · obtain ⟨front', hfront, hbody⟩ : ∃ front',
        front = (if p.isAbsolute then [(.root, 1)] else []) ++ front' ∧
          marksFrom 0 true (splitOn '/' p.text.toList) = front' ++ (c, stop) :: back := by
      rw [marks_eq] at h
      cases hkind : p.isAbsolute with
      | false => exact ⟨front, rfl, by rwa [hkind] at h⟩
      | true =>
        rw [hkind] at h
        cases front with
        | nil => exact absurd (Prod.mk.inj (List.cons.inj h).1).1.symm hroot
        | cons mark front =>
          obtain ⟨rfl, hbody⟩ := List.cons.inj h
          exact ⟨front, rfl, hbody⟩
    obtain ⟨before, part, behind, hparts, hstop, hmarks⟩ := exists_part_of_mark hbody
    obtain ⟨upTo, rest, htext, hupTo⟩ := exists_of_splitOn hparts
    have hlength : upTo.length = stop := by
      have hsum := sum_length_splitOn '/' upTo
      rw [hupTo] at hsum
      omega
    have htake : p.text.toList.take stop = upTo := by rw [htext, ← hlength, List.take_left]
    have hne : upTo ≠ [] := by
      rintro rfl
      rw [← hupTo] at hmarks
      simp [splitOn, marksFrom] at hmarks
    have habsolute := isAbsolute_of_append hne htext
    rw [htake]
    refine ⟨habsolute, ?_⟩
    rw [marks_eq, habsolute, String.toList_ofList, hupTo, hmarks, hfront, List.append_assoc]

/-- Above the root and the empty path there is nothing; above any other path is its parent. -/
theorem parent?_spec (p : Path) :
    p.parent? = none ∧ (p.components = [] ∨ p.components = [.root]) ∨
      ∃ q, p.parent? = some q ∧ p.IsParent q := by
  rw [parent?]
  split
  · next hnil =>
    refine .inl ⟨rfl, .inl ?_⟩
    rw [components, List.reverse_eq_nil_iff.mp hnil]
    rfl
  · next stop front hroot =>
    rw [List.reverse_eq_cons_iff] at hroot
    have hcomponents : p.components = front.reverse.map (·.1) ++ [.root] := by
      rw [components, hroot, List.map_append]
      rfl
    refine .inl ⟨rfl, .inr ?_⟩
    rw [hcomponents, eq_nil_of_root hcomponents]
    rfl
  · next single hroot hsingle =>
    obtain ⟨c, stop⟩ := single
    rw [List.reverse_eq_cons_iff] at hsingle
    have hcomponents : p.components = [c] := by rw [components, hsingle]; rfl
    have hne : c ≠ .root := by
      rintro rfl
      exact hroot stop rfl
    have hrelative : p.isAbsolute = false := by
      rw [← Bool.not_eq_true, ← root_mem_components_iff, hcomponents, List.mem_singleton]
      exact hne.symm
    refine .inr ⟨_, rfl, ?_, ⟨c, hne, hcomponents⟩, p.text.toList, ?_, rfl⟩
    · rw [hrelative]
      rfl
    · intro hnil
      rw [components, marks_eq, hrelative, hnil] at hcomponents
      cases hcomponents
  · next last c stop front hroot hmarks =>
    obtain ⟨last, stop'⟩ := last
    rw [List.reverse_eq_cons_iff, List.reverse_cons, List.append_assoc] at hmarks
    obtain ⟨hkind, htake⟩ := marks_take hmarks
    have hcomponents : p.components =
        (⟨String.ofList (p.text.toList.take stop)⟩ : Path).components ++ [last] := by
      rw [components, components, hmarks, htake]
      simp
    have hne : last ≠ .root := by
      rintro rfl
      exact hroot stop' rfl
    have htext : p.text.toList.take stop ++ p.text.toList.drop stop = p.text.toList :=
      List.take_append_drop stop _
    refine .inr ⟨_, rfl, hkind, ⟨last, hne, hcomponents⟩, p.text.toList.drop stop, ?_, ?_⟩
    · intro hnil
      rw [hnil, List.append_nil] at htext
      rw [htext, String.ofList_toList] at hcomponents
      simpa using congrArg List.length hcomponents
    · rw [String.toList_ofList, htext]

theorem isParent_of_parent? (h : p.parent? = some q) : p.IsParent q := by
  rcases parent?_spec p with ⟨hnone, -⟩ | ⟨q', hsome, hq⟩
  · rw [hnone] at h
    cases h
  · rwa [Option.some.inj (hsome.symm.trans h)] at hq

end Path

end DocSnippets
