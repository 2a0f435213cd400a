import DocSnippets.Json.Value
import Mathlib.Logic.Basic

/-!
# Setting members

Setting a key changes what stands under this key alone. A key that is there keeps its place and a
new one comes last, so setting several keys leaves the old ones in front, in their order. What
stands under its key already changes nothing when it is set again.
-/

namespace DocSnippets.Json

variable {α : Type}

def keys (members : List (String × α)) : List String := members.map (·.1)

@[simp] theorem keys_nil : keys ([] : List (String × α)) = [] := rfl

@[simp] theorem keys_cons (m : String × α) (members : List (String × α)) :
    keys (m :: members) = m.1 :: keys members := rfl

theorem lookup_cons_eq (key : String) (m : String × α) (members : List (String × α)) :
    (m :: members).lookup key = if key = m.1 then some m.2 else members.lookup key := by
  rw [List.lookup_cons]
  by_cases h : key = m.1
  · rw [if_pos h, h, beq_self_eq_true]
  · have hne : (key == m.1) = false := by simpa using h
    rw [if_neg h, hne]

theorem lookup_eq_none_iff {key : String} {members : List (String × α)} :
    members.lookup key = none ↔ key ∉ keys members := by
  induction members with
  | nil => simp
  | cons m members ih =>
    rw [lookup_cons_eq, keys_cons, List.mem_cons, not_or, ← ih]
    by_cases h : key = m.1 <;> simp [h]

theorem lookup_setMember (key k : String) (value : α) (members : List (String × α)) :
    (setMember key value members).lookup k =
      if k = key then some value else members.lookup k := by
  induction members with
  | nil => exact lookup_cons_eq k (key, value) []
  | cons m members ih =>
    rw [setMember]
    by_cases hm : m.1 = key
    · rw [if_pos hm, lookup_cons_eq, lookup_cons_eq, hm]
      by_cases h : k = key
      · rw [if_pos h, if_pos h]
      · rw [if_neg h, if_neg h, if_neg h]
    · rw [if_neg hm, lookup_cons_eq, lookup_cons_eq, ih]
      by_cases h : k = m.1
      · have hne : ¬ k = key := fun heq => hm (h.symm.trans heq)
        rw [if_pos h, if_pos h, if_neg hne]
      · rw [if_neg h, if_neg h]

theorem keys_setMember (key : String) (value : α) (members : List (String × α)) :
    keys (setMember key value members) =
      if key ∈ keys members then keys members else keys members ++ [key] := by
  induction members with
  | nil => rfl
  | cons m members ih =>
    rw [setMember]
    by_cases hm : m.1 = key
    · have hmem : key ∈ keys (m :: members) := by simp [hm]
      rw [if_pos hm, if_pos hmem, keys_cons, keys_cons, hm]
    · have hmem : key ∈ keys (m :: members) ↔ key ∈ keys members := by simp [Ne.symm hm]
      rw [if_neg hm, keys_cons, ih, if_congr hmem rfl rfl]
      by_cases h : key ∈ keys members
      · rw [if_pos h, if_pos h, keys_cons]
      · rw [if_neg h, if_neg h, keys_cons, List.cons_append]

theorem setMember_of_lookup {key : String} {value : α} {members : List (String × α)}
    (h : members.lookup key = some value) : setMember key value members = members := by
  induction members with
  | nil => cases h
  | cons m members ih =>
    rw [lookup_cons_eq] at h
    rw [setMember]
    by_cases hm : m.1 = key
    · rw [if_pos hm.symm] at h
      rw [if_pos hm, ← Option.some.inj h]
    · rw [if_neg (Ne.symm hm)] at h
      rw [if_neg hm, ih h]

theorem filter_setMember {keep : String → Bool} {key : String} (h : keep key = false) (value : α)
    (members : List (String × α)) :
    (setMember key value members).filter (fun m => keep m.1) =
      members.filter fun m => keep m.1 := by
  induction members with
  | nil => rw [setMember, List.filter_cons_of_neg (by simp [h])]
  | cons m members ih =>
    rw [setMember]
    by_cases hm : m.1 = key
    · rw [if_pos hm, List.filter_cons_of_neg (by simp [hm, h]),
        List.filter_cons_of_neg (by simp [hm, h])]
    · rw [if_neg hm, List.filter_cons, List.filter_cons, ih]

@[simp] theorem setMembers_nil (base : List (String × α)) : setMembers base [] = base := rfl

@[simp] theorem setMembers_cons (base : List (String × α)) (m : String × α)
    (members : List (String × α)) :
    setMembers base (m :: members) = setMembers (setMember m.1 m.2 base) members := rfl

theorem setMembers_append (base first second : List (String × α)) :
    setMembers base (first ++ second) = setMembers (setMembers base first) second :=
  List.foldl_append

/-- A key that is set has its new value, every other one keeps what it had. -/
theorem lookup_setMembers {new : List (String × α)} (h : (keys new).Nodup)
    (base : List (String × α)) (key : String) :
    (setMembers base new).lookup key = (new.lookup key).or (base.lookup key) := by
  induction new generalizing base with
  | nil => rfl
  | cons m new ih =>
    obtain ⟨hfresh, hnew⟩ := List.nodup_cons.mp h
    rw [setMembers_cons, ih hnew, lookup_setMember, lookup_cons_eq]
    by_cases hkey : key = m.1
    · have hnone : new.lookup key = none := lookup_eq_none_iff.mpr (hkey ▸ hfresh)
      rw [hnone, if_pos hkey, if_pos hkey]
      rfl
    · rw [if_neg hkey, if_neg hkey]

/-- The old keys stay in front; those of the new ones that were not there follow. -/
theorem keys_setMembers {new : List (String × α)} (h : (keys new).Nodup)
    (base : List (String × α)) :
    keys (setMembers base new) = keys base ++ (keys new).filter (· ∉ keys base) := by
  induction new generalizing base with
  | nil => simp
  | cons m new ih =>
    obtain ⟨hfresh, hnew⟩ := List.nodup_cons.mp h
    rw [setMembers_cons, ih hnew, keys_setMember, keys_cons]
    by_cases hmem : m.1 ∈ keys base
    · rw [if_pos hmem, List.filter_cons_of_neg (by simpa using hmem)]
    · rw [if_neg hmem, List.filter_cons_of_pos (by simpa using hmem), List.append_assoc,
        List.singleton_append]
      have hfilter : (keys new).filter (· ∉ keys base ++ [m.1]) =
          (keys new).filter (· ∉ keys base) := by
        apply List.filter_congr
        intro key hkey
        have hne : key ≠ m.1 := by
          rintro rfl
          exact hfresh hkey
        simp [hne]
      rw [hfilter]

/-- Members under other keys stay as they are. -/
theorem filter_setMembers {keep : String → Bool} {new : List (String × α)}
    (h : ∀ key ∈ keys new, keep key = false) (base : List (String × α)) :
    (setMembers base new).filter (fun m => keep m.1) = base.filter fun m => keep m.1 := by
  induction new generalizing base with
  | nil => rfl
  | cons m new ih =>
    rw [setMembers_cons, ih fun key hkey => h key (List.mem_cons_of_mem m.1 hkey),
      filter_setMember (h m.1 List.mem_cons_self)]

theorem setMembers_of_lookup {base new : List (String × α)}
    (h : ∀ m ∈ new, base.lookup m.1 = some m.2) : setMembers base new = base := by
  induction new with
  | nil => rfl
  | cons m new ih =>
    rw [setMembers_cons, setMember_of_lookup (h m List.mem_cons_self)]
    exact ih fun k hk => h k (List.mem_cons_of_mem m hk)

end DocSnippets.Json
