import DocSnippets.Package.Manifest
import DocSnippets.Proofs.Firsts
import Mathlib.Data.List.Forall2
import Mathlib.Logic.Relation

/-!
# What a document declares

Reading exports goes into every member of an object, and of an array into the first text or object
alone. A number or a boolean that is met on the way is an error, the first one in the order of the
document. Otherwise the target repeats what was read, key by key, and the rest of the arrays might
as well not be there.
-/

namespace DocSnippets.ExportTarget

open Json (Value)

/-- A value that declares nothing and is an error where it is read. -/
inductive Invalid : Value → Prop where
  | bool (b : Bool) : Invalid (.bool b)
  | number (n : Json.Number) : Invalid (.number n)

/-- An item that an array can stand for. -/
inductive Usable : Value → Prop where
  | string (text : String) : Usable (.string text)
  | object (members : List (String × Value)) : Usable (.object members)

/-- The item that an array stands for: its first text or object. -/
def Picked (items : List Value) (item : Value) : Prop :=
  ∃ before after, items = before ++ item :: after ∧ Usable item ∧ ∀ x ∈ before, ¬ Usable x

/-- One step into a value. -/
inductive Into : Value → Value → Prop where
  | member {members key value} (h : (key, value) ∈ members) : Into (.object members) value
  | item {items item} (h : Picked items item) : Into (.array items) item

/-- The values that are reached from a value, which is one of them. -/
def Reaches : Value → Value → Prop := Relation.ReflTransGen Into

/-- Nothing that is reached from a value is invalid. -/
def Acceptable (v : Value) : Prop := ∀ w, Reaches v w → ¬ Invalid w

/-- The first invalid value that is reached, in the order of the document. -/
inductive FirstInvalid : Value → Value → Prop where
  | here {v} (h : Invalid v) : FirstInvalid v v
  | member {before key value after w} (hbefore : ∀ m ∈ before, Acceptable m.2)
      (h : FirstInvalid value w) : FirstInvalid (.object (before ++ (key, value) :: after)) w
  | item {items item w} (hpicked : Picked items item) (h : FirstInvalid item w) :
      FirstInvalid (.array items) w

/-- A target that repeats a value as it is read: texts and nulls as they are, objects key by key in
their order, arrays as the item that they stand for, or as null. -/
inductive Mirrors : Value → ExportTarget → Prop where
  | path (text : String) : Mirrors (.string text) (.path text)
  | null : Mirrors .null .null
  | map {members entries} (hkeys : members.map (·.1) = entries.map (·.1))
      (hinner : ∀ m e, (m, e) ∈ members.zip entries → Mirrors m.2 e.2) :
      Mirrors (.object members) (.map entries)
  | item {items item target} (hpicked : Picked items item) (h : Mirrors item target) :
      Mirrors (.array items) target
  | blank {items} (h : ∀ x ∈ items, ¬ Usable x) : Mirrors (.array items) .null

mutual

/-- A document with each array replaced by the item that it stands for, or by null. -/
def withoutArrays : Value → Value
  | .object members => .object (membersWithoutArrays members)
  | .array items => itemWithoutArrays items
  | .string text => .string text
  | .null => .null
  | .bool b => .bool b
  | .number n => .number n

def membersWithoutArrays : List (String × Value) → List (String × Value)
  | [] => []
  | (key, value) :: members => (key, withoutArrays value) :: membersWithoutArrays members

def itemWithoutArrays : List Value → Value
  | [] => .null
  | item :: items => if isAlternative item then withoutArrays item else itemWithoutArrays items

end

/-- No array is reached. -/
def ArrayFree (v : Value) : Prop := ∀ items, ¬ Reaches v (.array items)

variable {v w item : Value} {items : List Value} {members : List (String × Value)}
  {entries : List (String × ExportTarget)} {target : ExportTarget}

theorem isAlternative_iff : isAlternative v = true ↔ Usable v := by
  constructor
  · intro h
    cases v with
    | string text => exact .string text
    | object members => exact .object members
    | null => cases h
    | bool b => cases h
    | number n => cases h
    | array items => cases h
  · rintro (text | members) <;> rfl

theorem picked_iff : Picked items item ↔ items.find? isAlternative = some item := by
  simp only [List.find?_eq_some_iff_append, Picked, ← isAlternative_iff, Bool.not_eq_true,
    Bool.not_eq_true']
  constructor
  · rintro ⟨before, after, hitems, husable, hbefore⟩
    exact ⟨husable, before, after, hitems, hbefore⟩
  · rintro ⟨husable, before, after, hitems, hbefore⟩
    exact ⟨before, after, hitems, husable, hbefore⟩

theorem blank_iff : (∀ x ∈ items, ¬ Usable x) ↔ items.find? isAlternative = none := by
  simp only [List.find?_eq_none, isAlternative_iff]

theorem picked_or_blank (items : List Value) :
    (∃ item, Picked items item) ∨ ∀ x ∈ items, ¬ Usable x := by
  rw [blank_iff]
  cases hfind : items.find? isAlternative with
  | none => exact .inr rfl
  | some item => exact .inl ⟨item, picked_iff.mpr hfind⟩

theorem Picked.not_blank (h : Picked items item) : ¬ ∀ x ∈ items, ¬ Usable x := by
  rw [blank_iff, picked_iff.mp h]
  exact nofun

theorem Picked.unique {other : Value} (h : Picked items item) (h' : Picked items other) :
    item = other :=
  Option.some.inj ((picked_iff.mp h).symm.trans (picked_iff.mp h'))

/-- What holds of a value when it holds of all values one step inside holds of every value. -/
theorem into_induction {P : Value → Prop} (h : ∀ v, (∀ x, Into v x → P x) → P v) (v : Value) :
    P v := by
  refine h v fun x hx => ?_
  -- A member or an item is smaller than the value that holds it.
  have hsmaller : sizeOf x < sizeOf v := by
    cases hx with
    | @member members key value hmem =>
      have hpair := List.sizeOf_lt_of_mem hmem
      simp only [Prod.mk.sizeOf_spec] at hpair
      simp only [Json.Value.object.sizeOf_spec]
      omega
    | item hpicked =>
      obtain ⟨before, after, rfl, -⟩ := hpicked
      have hitem := List.sizeOf_lt_of_mem (List.mem_append_right before
        (List.mem_cons_self (l := after)) : x ∈ before ++ x :: after)
      simp only [Json.Value.array.sizeOf_spec]
      omega
  exact into_induction h x
termination_by sizeOf v

/-! ### One level of a document -/

theorem ofAlternatives_eq (items : List Value) :
    ofAlternatives items = ((items.find? isAlternative).map ofValue).getD (.ok .null) := by
  induction items with
  | nil => rw [ofAlternatives, List.find?_nil, Option.map_none, Option.getD_none]
  | cons first items ih =>
    rw [ofAlternatives, List.find?_cons]
    cases isAlternative first with
    | true => rfl
    | false => exact ih

theorem ofMembers_cons {key : String} {value : Value} :
    ofMembers ((key, value) :: members) =
      (ofValue value).bind fun target => (ofMembers members).map ((key, target) :: ·) := by
  rw [ofMembers]
  cases ofValue value with
  | error e => rfl
  | ok target => cases ofMembers members <;> rfl

theorem ofMembers_eq_ok_iff : ofMembers members = .ok entries ↔
    List.Forall₂ (fun m e => m.1 = e.1 ∧ ofValue m.2 = .ok e.2) members entries := by
  induction members generalizing entries with
  | nil => cases entries <;> simp [ofMembers]
  | cons m members ih =>
    obtain ⟨key, value⟩ := m
    rw [ofMembers_cons]
    constructor
    · intro h
      cases hvalue : ofValue value with
      | error e => rw [hvalue] at h; cases h
      | ok target =>
        rw [hvalue] at h
        cases hrest : ofMembers members with
        | error e => rw [hrest] at h; cases h
        | ok rest =>
          rw [hrest] at h
          obtain rfl := Except.ok.inj h
          exact .cons ⟨rfl, hvalue⟩ (ih.mp hrest)
    · intro h
      cases h with
      | @cons _ e _ entries hhead hrest =>
        obtain ⟨key', target⟩ := e
        obtain ⟨rfl, hvalue⟩ := hhead
        rw [hvalue, ih.mpr hrest]
        rfl

theorem exists_ofMembers (h : AllSucceed (fun m => ofValue m.2) members) :
    ∃ entries, ofMembers members = .ok entries := by
  induction members with
  | nil => exact ⟨[], rfl⟩
  | cons m members ih =>
    obtain ⟨key, value⟩ := m
    obtain ⟨⟨target, hvalue⟩, hrest⟩ := allSucceed_cons_iff.mp h
    obtain ⟨entries, hentries⟩ := ih hrest
    exact ⟨(key, target) :: entries, by rw [ofMembers_cons, hvalue, hentries]; rfl⟩

theorem ofMembers_of_firstFails {m : String × Value}
    (h : FirstFails (fun m => ofValue m.2) members m w) : ofMembers members = .error w := by
  induction members with
  | nil => exact absurd h FirstFails.not_nil
  | cons first members ih =>
    obtain ⟨key, value⟩ := first
    rw [ofMembers_cons]
    rcases h.of_cons with ⟨-, hfails⟩ | ⟨⟨target, hvalue⟩, hrest⟩
    · rw [hfails]
      rfl
    · rw [hvalue, ih hrest]
      rfl

theorem ofValue_of_picked (h : Picked items item) : ofValue (.array items) = ofValue item := by
  rw [ofValue, ofAlternatives_eq, picked_iff.mp h]
  rfl

theorem ofValue_of_blank (h : ∀ x ∈ items, ¬ Usable x) : ofValue (.array items) = .ok .null := by
  rw [ofValue, ofAlternatives_eq, blank_iff.mp h]
  rfl

/-! ### The whole document -/

theorem acceptable_iff : Acceptable v ↔ ¬ Invalid v ∧ ∀ x, Into v x → Acceptable x := by
  constructor
  · intro h
    exact ⟨h v .refl, fun x hx w hw => h w (.head hx hw)⟩
  · rintro ⟨hvalid, hinner⟩ w hw
    rcases Relation.ReflTransGen.cases_head hw with rfl | ⟨x, hx, hw⟩
    · exact hvalid
    · exact hinner x hx w hw

/-- Keys in the same order, with related values, taken pair by pair or as two lists. -/
theorem forall₂_iff_keys {r : Value → ExportTarget → Prop} :
    List.Forall₂ (fun m e => m.1 = e.1 ∧ r m.2 e.2) members entries ↔
      members.map (·.1) = entries.map (·.1) ∧
        ∀ m e, (m, e) ∈ members.zip entries → r m.2 e.2 := by
  induction members generalizing entries with
  | nil => cases entries <;> simp
  | cons m members ih =>
    cases entries with
    | nil => simp
    | cons e entries =>
      rw [List.forall₂_cons, ih]
      simp only [List.map_cons, List.cons.injEq, List.zip_cons_cons, List.mem_cons, Prod.mk.injEq]
      constructor
      · rintro ⟨⟨hkey, hvalue⟩, hkeys, hinner⟩
        refine ⟨⟨hkey, hkeys⟩, ?_⟩
        rintro m' e' (⟨rfl, rfl⟩ | hmem)
        · exact hvalue
        · exact hinner m' e' hmem
      · rintro ⟨⟨hkey, hkeys⟩, hinner⟩
        exact ⟨⟨hkey, hinner m e (.inl ⟨rfl, rfl⟩)⟩, hkeys,
          fun m' e' hmem => hinner m' e' (.inr hmem)⟩

/-- What reading a value comes to, and what that says about the value. -/
inductive Reading (v : Value) : Except Value ExportTarget → Prop where
  | declared {t : ExportTarget} (hvalid : Acceptable v) (h : Mirrors v t) : Reading v (.ok t)
  | refused {x : Value} (h : FirstInvalid v x) : Reading v (.error x)

theorem reading_object (h : ∀ m ∈ members, Reading m.2 (ofValue m.2)) :
    Reading (.object members) (ofValue (.object members)) := by
  have hok : ∀ m ∈ members, ∀ target, ofValue m.2 = .ok target →
      Acceptable m.2 ∧ Mirrors m.2 target := by
    intro m hm target htarget
    have hreading := h m hm
    rw [htarget] at hreading
    cases hreading with
    | declared hvalid hmirrors => exact ⟨hvalid, hmirrors⟩
  rw [ofValue]
  -- Either all members are read, or one of them is the first that is not.
  rcases allSucceed_or_firstFails (fun m => ofValue m.2) members with hall | ⟨m, w, hfirst⟩
  · obtain ⟨entries, hentries⟩ := exists_ofMembers hall
    obtain ⟨hkeys, hinner⟩ := (forall₂_iff_keys (r := fun v t => ofValue v = .ok t)).mp
      (ofMembers_eq_ok_iff.mp hentries)
    rw [hentries]
    refine .declared (acceptable_iff.mpr ⟨nofun, ?_⟩) (.map hkeys ?_)
    · rintro _ ⟨hmem⟩
      obtain ⟨target, htarget⟩ := hall _ hmem
      exact (hok _ hmem target htarget).1
    · intro m e hmem
      exact (hok m (List.of_mem_zip hmem).1 e.2 (hinner m e hmem)).2
  · rw [ofMembers_of_firstFails hfirst]
    obtain ⟨before, after, rfl, hbefore, hfails⟩ := hfirst
    change ofValue m.2 = .error w at hfails
    have hreading := h m (List.mem_append_right before List.mem_cons_self)
    rw [hfails] at hreading
    cases hreading with
    | refused hinvalid =>
      refine .refused (.member (fun m' hm' => ?_) hinvalid)
      obtain ⟨target, htarget⟩ := hbefore m' hm'
      exact (hok m' (List.mem_append_left _ hm') target htarget).1

theorem reading_array (h : ∀ item, Picked items item → Reading item (ofValue item)) :
    Reading (.array items) (ofValue (.array items)) := by
  rcases picked_or_blank items with ⟨item, hitem⟩ | hblank
  · have hreading := h item hitem
    rw [ofValue_of_picked hitem]
    generalize ofValue item = read at hreading ⊢
    cases hreading with
    | declared hvalid hmirrors =>
      refine .declared (acceptable_iff.mpr ⟨nofun, ?_⟩) (.item hitem hmirrors)
      rintro x (_ | hother)
      exact hitem.unique hother ▸ hvalid
    | refused hinvalid => exact .refused (.item hitem hinvalid)
  · rw [ofValue_of_blank hblank]
    refine .declared (acceptable_iff.mpr ⟨nofun, ?_⟩) (.blank hblank)
    rintro x (_ | hpicked)
    exact (hpicked.not_blank hblank).elim

theorem reading_ofValue (v : Value) : Reading v (ofValue v) := by
  induction v using into_induction with
  | h v ih =>
    cases v with
    | string text => exact .declared (acceptable_iff.mpr ⟨nofun, nofun⟩) (.path text)
    | null => exact .declared (acceptable_iff.mpr ⟨nofun, nofun⟩) .null
    | bool b => exact .refused (.here (.bool b))
    | number n => exact .refused (.here (.number n))
    | object members => exact reading_object fun m hm => ih m.2 (.member hm)
    | array items => exact reading_array fun item hitem => ih item (.item hitem)

theorem FirstInvalid.not_acceptable (h : FirstInvalid v w) : ¬ Acceptable v := by
  induction h with
  | here h => exact fun hvalid => hvalid _ .refl h
  | member hbefore h ih =>
    intro hvalid
    exact ih ((acceptable_iff.mp hvalid).2 _
      (.member (List.mem_append_right _ List.mem_cons_self)))
  | item hpicked h ih => exact fun hvalid => ih ((acceptable_iff.mp hvalid).2 _ (.item hpicked))

theorem exists_ofValue_iff : (∃ target, ofValue v = .ok target) ↔ Acceptable v := by
  have h := reading_ofValue v
  generalize ofValue v = x at h
  cases h with
  | declared hvalid hmirrors => exact ⟨fun _ => hvalid, fun _ => ⟨_, rfl⟩⟩
  | refused hinvalid =>
    exact ⟨nofun, fun hvalid => absurd hvalid hinvalid.not_acceptable⟩

theorem ofValue_of_mirrors (h : Mirrors v target) : ofValue v = .ok target := by
  induction h with
  | path text => rfl
  | null => rfl
  | map hkeys hinner ih =>
    rw [ofValue, ofMembers_eq_ok_iff.mpr
      ((forall₂_iff_keys (r := fun v t => ofValue v = .ok t)).mpr ⟨hkeys, ih⟩)]
    rfl
  | item hpicked h ih => rw [ofValue_of_picked hpicked, ih]
  | blank h => exact ofValue_of_blank h

theorem ofValue_of_firstInvalid (h : FirstInvalid v w) : ofValue v = .error w := by
  induction h with
  | here h => cases h <;> rfl
  | @member before key value after w hbefore h ih =>
    have hfirst : FirstFails (fun m => ofValue m.2) (before ++ (key, value) :: after)
        (key, value) w :=
      ⟨before, after, rfl, fun m hm => exists_ofValue_iff.mpr (hbefore m hm), ih⟩
    rw [ofValue, ofMembers_of_firstFails hfirst]
    rfl
  | item hpicked h ih => rw [ofValue_of_picked hpicked, ih]

theorem ofValue_eq_ok_iff : ofValue v = .ok target ↔ Mirrors v target := by
  constructor
  · intro h
    have hreading := reading_ofValue v
    rw [h] at hreading
    cases hreading with
    | declared hvalid hmirrors => exact hmirrors
  · exact ofValue_of_mirrors

theorem ofValue_eq_error_iff : ofValue v = .error w ↔ FirstInvalid v w := by
  constructor
  · intro h
    have hreading := reading_ofValue v
    rw [h] at hreading
    cases hreading with
    | refused hinvalid => exact hinvalid
  · exact ofValue_of_firstInvalid

/-! ### Arrays -/

theorem itemWithoutArrays_eq (items : List Value) :
    itemWithoutArrays items = ((items.find? isAlternative).map withoutArrays).getD .null := by
  induction items with
  | nil => rw [itemWithoutArrays, List.find?_nil, Option.map_none, Option.getD_none]
  | cons first items ih =>
    rw [itemWithoutArrays, List.find?_cons]
    cases isAlternative first with
    | true => rfl
    | false => exact ih

theorem withoutArrays_of_picked (h : Picked items item) :
    withoutArrays (.array items) = withoutArrays item := by
  rw [withoutArrays, itemWithoutArrays_eq, picked_iff.mp h]
  rfl

theorem withoutArrays_of_blank (h : ∀ x ∈ items, ¬ Usable x) :
    withoutArrays (.array items) = .null := by
  rw [withoutArrays, itemWithoutArrays_eq, blank_iff.mp h]
  rfl

theorem membersWithoutArrays_eq (members : List (String × Value)) :
    membersWithoutArrays members = members.map fun m => (m.1, withoutArrays m.2) := by
  induction members with
  | nil => rw [membersWithoutArrays, List.map_nil]
  | cons m members ih => rw [membersWithoutArrays, ih, List.map_cons]

theorem ofMembers_congr {f : Value → Value} (h : ∀ m ∈ members, ofValue (f m.2) = ofValue m.2) :
    ofMembers (members.map fun m => (m.1, f m.2)) = ofMembers members := by
  induction members with
  | nil => rfl
  | cons m members ih =>
    obtain ⟨hfirst, hrest⟩ := List.forall_mem_cons.mp h
    rw [List.map_cons, ofMembers_cons, hfirst, ih hrest, ← ofMembers_cons]

theorem ofValue_withoutArrays (v : Value) : ofValue (withoutArrays v) = ofValue v := by
  induction v using into_induction with
  | h v ih =>
    cases v with
    | string text => rw [withoutArrays]
    | null => rw [withoutArrays]
    | bool b => rw [withoutArrays]
    | number n => rw [withoutArrays]
    | object members =>
      rw [withoutArrays, membersWithoutArrays_eq, ofValue, ofValue,
        ofMembers_congr fun m hm => ih m.2 (.member hm)]
    | array items =>
      rcases picked_or_blank items with ⟨item, hitem⟩ | hblank
      · rw [withoutArrays_of_picked hitem, ofValue_of_picked hitem, ih item (.item hitem)]
      · rw [withoutArrays_of_blank hblank, ofValue_of_blank hblank, ofValue]

/-- A document without arrays is none, and one step into it leads to another such document. -/
theorem withoutArrays_level (v : Value) : (∀ items, withoutArrays v ≠ .array items) ∧
    ∀ x, Into (withoutArrays v) x → ∃ u, x = withoutArrays u := by
  induction v using into_induction with
  | h v ih =>
    cases v with
    | object members =>
      rw [withoutArrays, membersWithoutArrays_eq]
      refine ⟨nofun, fun x hx => ?_⟩
      cases hx with
      | member hmem =>
        obtain ⟨m, -, hm⟩ := List.mem_map.mp hmem
        exact ⟨m.2, (Prod.mk.inj hm).2.symm⟩
    | array items =>
      rcases picked_or_blank items with ⟨item, hitem⟩ | hblank
      · rw [withoutArrays_of_picked hitem]
        exact ih item (.item hitem)
      · rw [withoutArrays_of_blank hblank]
        exact ⟨nofun, nofun⟩
    | string text => rw [withoutArrays]; exact ⟨nofun, nofun⟩
    | null => rw [withoutArrays]; exact ⟨nofun, nofun⟩
    | bool b => rw [withoutArrays]; exact ⟨nofun, nofun⟩
    | number n => rw [withoutArrays]; exact ⟨nofun, nofun⟩

theorem arrayFree_withoutArrays (v : Value) : ArrayFree (withoutArrays v) := by
  have hall : ∀ w, Reaches (withoutArrays v) w → ∃ u, w = withoutArrays u := by
    intro w h
    induction h with
    | refl => exact ⟨v, rfl⟩
    | tail _ hstep ih =>
      obtain ⟨u, rfl⟩ := ih
      exact (withoutArrays_level u).2 _ hstep
  intro items h
  obtain ⟨u, hu⟩ := hall _ h
  exact (withoutArrays_level u).1 items hu.symm

/-- The answer to a request of a package whose exports are a document. -/
def answer (package : String) (main : Option String) (subpath : Option (List Char)) (v : Value) :
    Except Value (Except ResolutionError (List Char)) :=
  (ofValue v).map fun target => EntryPoints.resolve ⟨package, main, some target⟩ subpath

/-- Exports are accepted exactly when no number and no boolean is reached; otherwise the first one
in the order of the document is the error. The target repeats what is read, and every request gets
the answer that it gets from the document without arrays. -/
theorem ofValue_exact (v : Value) :
    ((∃ target, ofValue v = .ok target) ↔ Acceptable v) ∧
    (∀ w, ofValue v = .error w ↔ FirstInvalid v w) ∧
    (∀ target, ofValue v = .ok target ↔ Mirrors v target) ∧
    ArrayFree (withoutArrays v) ∧
    ∀ package main subpath,
      answer package main subpath v = answer package main subpath (withoutArrays v) := by
  refine ⟨exists_ofValue_iff, fun w => ofValue_eq_error_iff, fun target => ofValue_eq_ok_iff,
    arrayFree_withoutArrays v, fun package main subpath => ?_⟩
  rw [answer, answer, ofValue_withoutArrays]

/-- An invalid item that is passed by does no harm, one deep inside a member does. -/
example :
    ofValue (.object [("./a", .array [.number (.natural 1), .string "./a.ts"]),
        ("./b", .object [("node", .array [.object [("default", .bool true)]])]),
        ("./c", .number (.natural 2))]) = .error (.bool true) := rfl

end DocSnippets.ExportTarget
