import DocSnippets.Path
import Mathlib.Order.Defs.LinearOrder

/-!
# The order of paths

Paths are in order by their components. The order is total, and paths that are in order both ways
have the same components.
-/

namespace DocSnippets.Path

namespace Component

variable {a b c : Component}

theorem le_total (a b : Component) : (a.le b || b.le a) = true := by
  cases a <;> cases b <;> simp [le, rank, String.le_total]

theorem le_trans (hab : a.le b = true) (hbc : b.le c = true) : a.le c = true := by
  cases a <;> cases b <;> cases c <;> simp_all [le, rank]
  exact String.le_trans hab hbc

theorem le_antisymm (hab : a.le b = true) (hba : b.le a = true) : a = b := by
  cases a <;> cases b <;> simp_all [le, rank]
  exact String.le_antisymm hab hba

end Component

variable {as bs cs : List Component}

theorem componentsLe_total (as bs : List Component) :
    (componentsLe as bs || componentsLe bs as) = true := by
  induction as generalizing bs with
  | nil => rw [componentsLe, Bool.true_or]
  | cons a as ih =>
    cases bs with
    | nil => rw [componentsLe, componentsLe, Bool.false_or]
    | cons b bs =>
      rw [componentsLe, componentsLe]
      by_cases heq : a = b
      · rw [if_pos heq, if_pos heq.symm]
        exact ih bs
      · rw [if_neg heq, if_neg (Ne.symm heq)]
        exact a.le_total b

theorem componentsLe_trans (hab : componentsLe as bs = true) (hbc : componentsLe bs cs = true) :
    componentsLe as cs = true := by
  induction as generalizing bs cs with
  | nil => rw [componentsLe]
  | cons a as ih =>
    cases bs with
    | nil => cases hab
    | cons b bs =>
      cases cs with
      | nil => cases hbc
      | cons c cs =>
        rw [componentsLe] at hab hbc ⊢
        by_cases heq : a = b
        · subst heq
          rw [if_pos rfl] at hab
          split
          · next hac =>
            rw [if_pos hac] at hbc
            exact ih hab hbc
          · next hac => rwa [if_neg hac] at hbc
        · rw [if_neg heq] at hab
          by_cases heq' : b = c
          · subst heq'
            rwa [if_neg heq]
          · rw [if_neg heq'] at hbc
            split
            · next hac =>
              subst hac
              exact absurd (Component.le_antisymm hab hbc) heq
            · exact Component.le_trans hab hbc

theorem componentsLe_antisymm (hab : componentsLe as bs = true)
    (hba : componentsLe bs as = true) : as = bs := by
  induction as generalizing bs with
  | nil =>
    cases bs with
    | nil => rfl
    | cons b bs => cases hba
  | cons a as ih =>
    cases bs with
    | nil => cases hab
    | cons b bs =>
      rw [componentsLe] at hab hba
      by_cases heq : a = b
      · subst heq
        rw [if_pos rfl] at hab hba
        rw [ih hab hba]
      · rw [if_neg heq] at hab
        rw [if_neg (Ne.symm heq)] at hba
        exact absurd (Component.le_antisymm hab hba) heq

/-- What two paths start with has no part in their order. -/
theorem componentsLe_append (front : List Component) :
    componentsLe (front ++ as) (front ++ bs) = componentsLe as bs := by
  induction front with
  | nil => rfl
  | cons c front ih => rw [List.cons_append, List.cons_append, componentsLe, if_pos rfl, ih]

/-- Components in ascending order, none of them twice. -/
def Ascending (keys : List (List Component)) : Prop :=
  keys.Pairwise fun a b => componentsLe a b = true ∧ a ≠ b

/-- Ascending lists are determined by their members. -/
theorem Ascending.eq_of_mem_iff {keys keys' : List (List Component)} (h : Ascending keys)
    (h' : Ascending keys') (hmem : ∀ k, k ∈ keys ↔ k ∈ keys') : keys = keys' := by
  have hperm : keys.Perm keys' :=
    (List.perm_ext_iff_of_nodup (h.imp And.right) (h'.imp And.right)).mpr hmem
  exact hperm.eq_of_pairwise (fun a b _ _ hab hba => componentsLe_antisymm hab.1 hba.1) h h'

theorem le_trans (p q r : Path) (hpq : p.le q = true) (hqr : q.le r = true) : p.le r = true :=
  componentsLe_trans hpq hqr

theorem le_total (p q : Path) : (p.le q || q.le p) = true := componentsLe_total _ _

theorem mergeSort_pairwise (paths : List Path) :
    (paths.mergeSort le).Pairwise fun p q => p.le q = true :=
  List.pairwise_mergeSort le_trans le_total paths

end DocSnippets.Path
