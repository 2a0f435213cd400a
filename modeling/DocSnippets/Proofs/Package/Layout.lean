import DocSnippets.Proofs.Keyed
import DocSnippets.Proofs.Package.Selection
import Mathlib.Logic.Relation

/-!
# The layout of exports

How exports are written down has no part in a resolution: not the order of the entries of a map, at
any depth, not conditions that nobody asks for, and not subpaths that a request passes by. Order
could only matter for a key that is declared twice and for two patterns with the same text before
their star.
-/

namespace DocSnippets

namespace Resolution

/-- In every map of a target keys are declared once, and in every map of subpaths no two patterns
have the same text before their star. -/
inductive WellKeyed : ExportTarget → Prop where
  | path (text : String) : WellKeyed (.path text)
  | null : WellKeyed .null
  | map {entries} (hkeys : (entries.map (·.1)).Nodup)
      (hleads : HasSubpaths entries → ∀ e ∈ entries, ∀ e' ∈ entries, ∀ lead,
        OneStar e.1.toList lead → OneStar e'.1.toList lead → e.1 = e'.1)
      (hinner : ∀ e ∈ entries, WellKeyed e.2) : WellKeyed (.map entries)

/-- One change to the layout of exports, as a request sees them: the entries of a map in another
order, one more condition that is not known in a map of conditions, one more subpath that is neither
the request nor a pattern for it in a map of subpaths, or such a change further inside. -/
inductive LayoutStep (request : List Char) : ExportTarget → ExportTarget → Prop where
  | permuted {entries entries'} (h : entries.Perm entries') :
      LayoutStep request (.map entries) (.map entries')
  | condition {before after key target} (hkeys : ¬ HasSubpaths (before ++ after))
      (hunknown : key ∉ conditions) (hdot : key.toList.head? ≠ some '.') :
      LayoutStep request (.map (before ++ after)) (.map (before ++ (key, target) :: after))
  | subpath {before after key target} (hkeys : HasSubpaths (before ++ after))
      (hunequal : key ≠ String.ofList request)
      (hunfit : ∀ lead segment, ¬ Fits key.toList request lead segment) :
      LayoutStep request (.map (before ++ after)) (.map (before ++ (key, target) :: after))
  | inside {before after key target target'} (h : LayoutStep request target target') :
      LayoutStep request (.map (before ++ (key, target) :: after))
        (.map (before ++ (key, target') :: after))

/-- Two targets that nothing can tell apart for a request. -/
structure Alike (request : List Char) (t t' : ExportTarget) : Prop where
  null : t.isNull = t'.isNull
  target : targetPath? request t = targetPath? request t'
  entry : ∀ captured, entryPath? captured t = entryPath? captured t'

variable {request : List Char}

namespace Alike

variable {t t' t'' : ExportTarget}

theorem refl (request : List Char) (t : ExportTarget) : Alike request t t :=
  ⟨rfl, rfl, fun _ => rfl⟩

theorem symm (h : Alike request t t') : Alike request t' t :=
  ⟨h.null.symm, h.target.symm, fun captured => (h.entry captured).symm⟩

theorem trans (h : Alike request t t') (h' : Alike request t' t'') : Alike request t t'' :=
  ⟨h.null.trans h'.null, h.target.trans h'.target,
    fun captured => (h.entry captured).trans (h'.entry captured)⟩

end Alike

/-! ### What a map passes a request on to -/

theorem targetPath?_map (request : List Char) (entries : List (String × ExportTarget)) :
    targetPath? request (.map entries) =
      if ExportTarget.hasSubpaths entries then
        (taken? request entries).bind fun t => entryPath? t.1 t.2
      else (condition? entries).bind (targetPath? request) := by
  rw [targetPath?, subpathPath?_eq]
  split
  · rfl
  · split
    · next hnone => rw [hnone, Option.bind_none]
    · next next hnext => rw [hnext, Option.bind_some]

theorem entryPath?_map (captured : Option (List Char)) (entries : List (String × ExportTarget)) :
    entryPath? captured (.map entries) =
      if ExportTarget.hasSubpaths entries then none
      else (condition? entries).bind (entryPath? captured) := by
  rw [entryPath?]
  split
  · rfl
  · split
    · next hnone => rw [hnone, Option.bind_none]
    · next next hnext => rw [hnext, Option.bind_some]

theorem bind_eq_of_rel {α β : Type} {r : α → α → Prop} {a b : Option α} {f g : α → Option β}
    (h : Option.Rel r a b) (hfg : ∀ x y, r x y → f x = g y) : a.bind f = b.bind g := by
  cases h with
  | none => rfl
  | some hxy => exact hfg _ _ hxy

/-- What is taken from two maps, when the segment is the same and the targets are alike. -/
def TakenAlike (request : List Char) (a b : Option (List Char) × ExportTarget) : Prop :=
  a.1 = b.1 ∧ Alike request a.2 b.2

theorem alike_map {entries entries' : List (String × ExportTarget)}
    (hkind : ExportTarget.hasSubpaths entries = ExportTarget.hasSubpaths entries')
    (hcondition : ExportTarget.hasSubpaths entries = false →
      Option.Rel (Alike request) (condition? entries) (condition? entries'))
    (htaken : ExportTarget.hasSubpaths entries = true →
      Option.Rel (TakenAlike request) (taken? request entries) (taken? request entries')) :
    Alike request (.map entries) (.map entries') := by
  refine ⟨rfl, ?_, fun captured => ?_⟩
  · rw [targetPath?_map, targetPath?_map, ← hkind]
    cases hkeys : ExportTarget.hasSubpaths entries with
    | true =>
      refine bind_eq_of_rel (htaken hkeys) fun a b hab => ?_
      rw [hab.1, hab.2.entry]
    | false => exact bind_eq_of_rel (hcondition hkeys) fun a b hab => hab.target
  · rw [entryPath?_map, entryPath?_map, ← hkind]
    cases hkeys : ExportTarget.hasSubpaths entries with
    | true => rfl
    | false => exact bind_eq_of_rel (hcondition hkeys) fun a b hab => hab.entry captured

/-! ### The keys that count -/

/-- A key counts in a map of conditions when it is known, and in a map of subpaths when it is the
request or a pattern for it. -/
def counts (request : List Char) (subpaths : Bool) (key : String) : Bool :=
  if subpaths then key = String.ofList request || (capture? key.toList request).isSome
  else key ∈ conditions

/-- The entries of a map whose keys count. -/
def counting (request : List Char) (entries : List (String × ExportTarget)) :
    List (String × ExportTarget) :=
  entries.filter fun e => counts request (ExportTarget.hasSubpaths entries) e.1

/-- Where the star of a pattern for the request stands. -/
def position? (request : List Char) (key : String) : Option Nat :=
  (capture? key.toList request).map fun _ => starPosition key.toList

/-- Among the keys that count in a map none is declared twice, and no two patterns compete; the same
holds of all that can be reached by keys that count. -/
inductive Settled (request : List Char) : ExportTarget → Prop where
  | path (text : String) : Settled request (.path text)
  | null : Settled request .null
  | map {entries} (hkeys : ((counting request entries).map (·.1)).Nodup)
      (hpositions : HasSubpaths entries →
        (((counting request entries).map (·.1)).filterMap (position? request)).Nodup)
      (hinner : ∀ e ∈ counting request entries, Settled request e.2) :
      Settled request (.map entries)

theorem capture?_eq_none {key : List Char} (h : ∀ lead segment, ¬ Fits key request lead segment) :
    capture? key request = none := by
  cases hcapture : capture? key request with
  | none => rfl
  | some segment =>
    obtain ⟨lead, hfits⟩ := fits_of_capture? hcapture
    exact absurd hfits (h lead segment)

theorem condition?_counting {entries : List (String × ExportTarget)}
    (hkeys : ExportTarget.hasSubpaths entries = false) :
    condition? (counting request entries) = condition? entries := by
  rw [condition?, condition?]
  have hlookup : ∀ c ∈ conditions, (counting request entries).lookup c = entries.lookup c := by
    intro c hc
    have hcounts : counts request (ExportTarget.hasSubpaths entries) c = true := by
      simpa [hkeys, counts] using hc
    rw [counting, Keyed.lookup_filter, if_pos hcounts]
  generalize conditions = cs at hlookup
  induction cs with
  | nil => rfl
  | cons c cs ih =>
    rw [List.findSome?_cons, List.findSome?_cons, hlookup c List.mem_cons_self,
      ih fun d hd => hlookup d (List.mem_cons_of_mem c hd)]

theorem candidates_counting {entries : List (String × ExportTarget)}
    (hkeys : ExportTarget.hasSubpaths entries = true) :
    candidates request (counting request entries) = candidates request entries := by
  rw [candidates_eq, candidates_eq, counting, List.filterMap_filter]
  refine List.filterMap_congr fun e _ => ?_
  split
  · rfl
  · next hcounts =>
    have hnone : capture? e.1.toList request = none := by
      rw [hkeys, counts, if_pos rfl, Bool.or_eq_true, not_or] at hcounts
      simpa using hcounts.2
    rw [candidate?, hnone, Option.map_none]

theorem taken?_counting {entries : List (String × ExportTarget)}
    (hkeys : ExportTarget.hasSubpaths entries = true) :
    taken? request (counting request entries) = taken? request entries := by
  have hcounts : counts request (ExportTarget.hasSubpaths entries)
      (String.ofList request) = true := by
    simp [hkeys, counts]
  rw [taken?, taken?, candidates_counting hkeys, counting, Keyed.lookup_filter, if_pos hcounts]

/-! ### Another order -/

theorem rel_of_eq {α : Type} {r : α → α → Prop} (hr : ∀ x, r x x) {a b : Option α} (h : a = b) :
    Option.Rel r a b := by
  subst h
  cases a with
  | none => exact .none
  | some x => exact .some (hr x)

/-- Of candidates at different positions the best one is the one that is at least as good as all. -/
theorem foldl_better_eq_some_iff_mem {ks : List Candidate} (h : (ks.map (·.position)).Nodup)
    {k : Candidate} :
    ks.foldl better none = some k ↔ k ∈ ks ∧ ∀ x ∈ ks, x.position ≤ k.position := by
  rw [foldl_better_eq_some_iff]
  constructor
  · rintro ⟨earlier, later, rfl, hearlier, hlater⟩
    refine ⟨List.mem_append_right earlier List.mem_cons_self, fun x hx => ?_⟩
    rcases List.mem_append.mp hx with hx | hx
    · exact Nat.le_of_lt (hearlier x hx)
    · rcases List.mem_cons.mp hx with rfl | hx
      · exact Nat.le_refl _
      · exact hlater x hx
  · rintro ⟨hmem, hbest⟩
    obtain ⟨earlier, later, rfl⟩ := List.append_of_mem hmem
    rw [List.map_append, List.map_cons] at h
    refine ⟨earlier, later, rfl, fun x hx => ?_, fun x hx => ?_⟩
    · have hapart := (List.nodup_append.mp h).2.2 x.position (List.mem_map_of_mem hx) k.position
        List.mem_cons_self
      exact Nat.lt_of_le_of_ne (hbest x (List.mem_append_left _ hx)) hapart
    · exact hbest x (List.mem_append_right earlier (List.mem_cons_of_mem k hx))

theorem foldl_better_perm {ks ks' : List Candidate} (h : ks.Perm ks')
    (hpositions : (ks.map (·.position)).Nodup) : ks.foldl better none = ks'.foldl better none := by
  have hpositions' : (ks'.map (·.position)).Nodup := ((h.map _).nodup_iff).mp hpositions
  apply Option.ext
  intro k
  rw [foldl_better_eq_some_iff_mem hpositions, foldl_better_eq_some_iff_mem hpositions']
  simp only [h.mem_iff]

theorem map_position_candidates (request : List Char) (entries : List (String × ExportTarget)) :
    (candidates request entries).map (·.position) =
      (entries.map (·.1)).filterMap (position? request) := by
  rw [candidates, List.map_filterMap, List.filterMap_map]
  refine List.filterMap_congr fun e _ => ?_
  rw [Option.map_map]
  rfl

theorem condition?_perm {entries entries' : List (String × ExportTarget)}
    (h : entries.Perm entries') (hkeys : (entries.map (·.1)).Nodup) :
    condition? entries = condition? entries' := by
  simp only [condition?, Keyed.lookup_perm h hkeys]

theorem taken?_perm {entries entries' : List (String × ExportTarget)} (h : entries.Perm entries')
    (hkeys : (entries.map (·.1)).Nodup)
    (hpositions : ((entries.map (·.1)).filterMap (position? request)).Nodup) :
    taken? request entries = taken? request entries' := by
  rw [← map_position_candidates] at hpositions
  have hcandidates : (candidates request entries).Perm (candidates request entries') :=
    h.filterMap _
  rw [taken?, taken?, Keyed.lookup_perm h hkeys, foldl_better_perm hcandidates hpositions]

/-- Two maps of one kind with the same counting entries, in any order. -/
structure SameCounting (request : List Char) (entries entries' : List (String × ExportTarget)) :
    Prop where
  kind : ExportTarget.hasSubpaths entries = ExportTarget.hasSubpaths entries'
  entries : (counting request entries).Perm (counting request entries')

namespace SameCounting

variable {entries entries' : List (String × ExportTarget)}

theorem symm (h : SameCounting request entries entries') : SameCounting request entries' entries :=
  ⟨h.kind.symm, h.entries.symm⟩

theorem alike (h : SameCounting request entries entries')
    (hsettled : Settled request (.map entries)) :
    Alike request (.map entries) (.map entries') := by
  cases hsettled with
  | map hkeys hpositions hinner =>
    refine alike_map h.kind (fun hconditions => ?_) (fun hsubpaths => ?_)
    · refine rel_of_eq (Alike.refl request) ?_
      calc condition? entries
        _ = condition? (counting request entries) := (condition?_counting hconditions).symm
        _ = condition? (counting request entries') := condition?_perm h.entries hkeys
        _ = condition? entries' := condition?_counting (h.kind.symm.trans hconditions)
    · refine rel_of_eq (fun t => ⟨rfl, Alike.refl request t.2⟩) ?_
      calc taken? request entries
        _ = taken? request (counting request entries) := (taken?_counting hsubpaths).symm
        _ = taken? request (counting request entries') :=
          taken?_perm h.entries hkeys (hpositions (hasSubpaths_iff.mp hsubpaths))
        _ = taken? request entries' := taken?_counting (h.kind.symm.trans hsubpaths)

theorem settled (h : SameCounting request entries entries')
    (hsettled : Settled request (.map entries)) : Settled request (.map entries') := by
  cases hsettled with
  | map hkeys hpositions hinner =>
    refine .map (((h.entries.map _).nodup_iff).mp hkeys) (fun hsubpaths => ?_) fun e he =>
      hinner e (h.entries.mem_iff.mpr he)
    rw [← hasSubpaths_iff, ← h.kind, hasSubpaths_iff] at hsubpaths
    exact (((h.entries.map _).filterMap _).nodup_iff).mp (hpositions hsubpaths)

theorem of_perm (h : entries.Perm entries') : SameCounting request entries entries' := by
  have hkind : ExportTarget.hasSubpaths entries = ExportTarget.hasSubpaths entries' := by
    rw [Bool.eq_iff_iff, hasSubpaths_iff, hasSubpaths_iff]
    simp only [HasSubpaths, h.mem_iff]
  refine ⟨hkind, ?_⟩
  rw [counting, counting, hkind]
  exact h.filter _

variable {before after : List (String × ExportTarget)} {key : String} {target : ExportTarget}

theorem filter_insert {p : String → Bool} (h : p key = false) :
    (before ++ (key, target) :: after).filter (fun e => p e.1) =
      (before ++ after).filter fun e => p e.1 := by
  simp only [List.filter_append, List.filter_cons, h, Bool.false_eq_true, if_false]

/-- An entry that does not count may as well be missing. -/
theorem insert (hkind : ExportTarget.hasSubpaths (before ++ after) =
      ExportTarget.hasSubpaths (before ++ (key, target) :: after))
    (hcounts : counts request (ExportTarget.hasSubpaths (before ++ after)) key = false) :
    SameCounting request (before ++ after) (before ++ (key, target) :: after) := by
  refine ⟨hkind, List.Perm.of_eq ?_⟩
  rw [counting, counting, ← hkind, filter_insert hcounts]

/-- An entry that does not count may lead to anything. -/
theorem replace {target' : ExportTarget}
    (hkind : ExportTarget.hasSubpaths (before ++ (key, target) :: after) =
      ExportTarget.hasSubpaths (before ++ (key, target') :: after))
    (hcounts : counts request
      (ExportTarget.hasSubpaths (before ++ (key, target) :: after)) key = false) :
    SameCounting request (before ++ (key, target) :: after)
      (before ++ (key, target') :: after) := by
  refine ⟨hkind, List.Perm.of_eq ?_⟩
  rw [counting, counting, ← hkind, filter_insert hcounts, filter_insert hcounts]

end SameCounting

/-! ### A change further inside -/

/-- Entries with the same keys and like targets. -/
def EntriesAlike (request : List Char) : List (String × ExportTarget) →
    List (String × ExportTarget) → Prop :=
  List.Forall₂ fun e e' => e.1 = e'.1 ∧ Alike request e.2 e'.2

theorem entriesAlike_inside {t t' : ExportTarget} (h : Alike request t t')
    (before after : List (String × ExportTarget)) (key : String) :
    EntriesAlike request (before ++ (key, t) :: after) (before ++ (key, t') :: after) := by
  have hsame : ∀ entries, EntriesAlike request entries entries := fun entries =>
    List.forall₂_same.mpr fun e _ => ⟨rfl, Alike.refl request e.2⟩
  exact List.rel_append (hsame before) (.cons ⟨rfl, h⟩ (hsame after))

theorem condition?_rel {entries entries' : List (String × ExportTarget)}
    (h : EntriesAlike request entries entries') :
    Option.Rel (Alike request) (condition? entries) (condition? entries') := by
  rw [condition?, condition?]
  induction conditions with
  | nil => exact .none
  | cons c cs ih =>
    rw [List.findSome?_cons, List.findSome?_cons]
    have hlookup := Keyed.lookup_rel h c
    generalize entries.lookup c = a, entries'.lookup c = b at hlookup
    cases hlookup with
    | none => exact ih
    | @some t t' ht =>
      rw [Option.filter_some, Option.filter_some, ht.null]
      cases t'.isNull with
      | true => exact ih
      | false => exact .some ht

/-- Candidates at the same position, with the same segment and like targets. -/
def CandidatesAlike (request : List Char) (a b : Candidate) : Prop :=
  a.position = b.position ∧ a.captured = b.captured ∧ Alike request a.target b.target

theorem better_rel : Relator.LiftFun (Option.Rel (CandidatesAlike request))
    (Relator.LiftFun (CandidatesAlike request) (Option.Rel (CandidatesAlike request)))
    better better := by
  intro a b h k k' hk
  cases h with
  | none => exact .some hk
  | @some x y hxy =>
    rw [better, better, hxy.1, hk.1]
    split
    · exact .some hk
    · exact .some hxy

theorem taken?_rel {entries entries' : List (String × ExportTarget)}
    (h : EntriesAlike request entries entries') :
    Option.Rel (TakenAlike request) (taken? request entries) (taken? request entries') := by
  have hcandidates : List.Forall₂ (CandidatesAlike request) (candidates request entries)
      (candidates request entries') := by
    refine List.rel_filterMap (fun e e' he => ?_) h
    rw [he.1]
    cases capture? e'.1.toList request with
    | none => exact .none
    | some segment => exact .some ⟨rfl, rfl, he.2⟩
  have hbest : Option.Rel (CandidatesAlike request) ((candidates request entries).foldl better none)
      ((candidates request entries').foldl better none) :=
    List.rel_foldl better_rel .none hcandidates
  rw [taken?, taken?]
  have hlookup := Keyed.lookup_rel h (String.ofList request)
  generalize entries.lookup (String.ofList request) = a,
    entries'.lookup (String.ofList request) = b at hlookup
  cases hlookup with
  | some ht => exact .some ⟨rfl, ht⟩
  | none =>
    generalize (candidates request entries).foldl better none = a,
      (candidates request entries').foldl better none = b at hbest
    cases hbest with
    | none => exact .none
    | some hk => exact .some ⟨congrArg some hk.2.1, hk.2.2⟩

theorem alike_of_entriesAlike {entries entries' : List (String × ExportTarget)}
    (hkind : ExportTarget.hasSubpaths entries = ExportTarget.hasSubpaths entries')
    (h : EntriesAlike request entries entries') : Alike request (.map entries) (.map entries') :=
  alike_map hkind (fun _ => condition?_rel h) (fun _ => taken?_rel h)

theorem settled_inside {before after : List (String × ExportTarget)} {key : String}
    {t t' : ExportTarget} (h : Settled request t → Settled request t')
    (hkind : ExportTarget.hasSubpaths (before ++ (key, t) :: after) =
      ExportTarget.hasSubpaths (before ++ (key, t') :: after))
    (hsettled : Settled request (.map (before ++ (key, t) :: after))) :
    Settled request (.map (before ++ (key, t') :: after)) := by
  have hsame : (counting request (before ++ (key, t') :: after)).map (·.1) =
      (counting request (before ++ (key, t) :: after)).map (·.1) := by
    rw [counting, counting, hkind]
    simp only [List.filter_append, List.filter_cons, List.map_append]
    split <;> rfl
  cases hsettled with
  | map hkeys hpositions hinner =>
    refine .map (hsame ▸ hkeys) (fun hsubpaths => ?_) fun e he => ?_
    · rw [← hasSubpaths_iff, ← hkind, hasSubpaths_iff] at hsubpaths
      exact hsame ▸ hpositions hsubpaths
    · obtain ⟨hmem, hcounts⟩ := List.mem_filter.mp he
      rw [← hkind] at hcounts
      have hold : ∀ e ∈ before ++ (key, t) :: after, counts request
          (ExportTarget.hasSubpaths (before ++ (key, t) :: after)) e.1 = true →
          Settled request e.2 := fun e hmem hcounts =>
        hinner e (List.mem_filter.mpr ⟨hmem, hcounts⟩)
      rcases List.mem_append.mp hmem with hmem | hmem
      · exact hold e (List.mem_append_left _ hmem) hcounts
      · rcases List.mem_cons.mp hmem with rfl | hmem
        · exact h (hold (key, t) (List.mem_append_right _ List.mem_cons_self) hcounts)
        · exact hold e (List.mem_append_right _ (List.mem_cons_of_mem _ hmem)) hcounts

/-! ### Any layout -/

/-- Two targets of which one may stand for the other, as far as they are settled. -/
structure Interchangeable (request : List Char) (t t' : ExportTarget) : Prop where
  settled_iff : Settled request t ↔ Settled request t'
  alike : Settled request t → Alike request t t'

theorem SameCounting.interchangeable {entries entries' : List (String × ExportTarget)}
    (h : SameCounting request entries entries') :
    Interchangeable request (.map entries) (.map entries') :=
  ⟨⟨h.settled, h.symm.settled⟩, h.alike⟩

theorem counts_of_unknown {key : String} (h : key ∉ conditions) :
    counts request false key = false := by
  simpa [counts] using h

theorem counts_of_passed {key : String} (hunequal : key ≠ String.ofList request)
    (hunfit : ∀ lead segment, ¬ Fits key.toList request lead segment) :
    counts request true key = false := by
  simp [counts, hunequal, capture?_eq_none hunfit]

theorem hasSubpaths_replace (before after : List (String × ExportTarget)) (key : String)
    (t t' : ExportTarget) : ExportTarget.hasSubpaths (before ++ (key, t) :: after) =
      ExportTarget.hasSubpaths (before ++ (key, t') :: after) := by
  simp only [ExportTarget.hasSubpaths, List.any_append, List.any_cons]

theorem LayoutStep.interchangeable {t t' : ExportTarget} (h : LayoutStep request t t') :
    Interchangeable request t t' := by
  induction h with
  | permuted h => exact (SameCounting.of_perm h).interchangeable
  | @condition before after key target hkeys hunknown hdot =>
    rw [← hasSubpaths_iff, Bool.not_eq_true] at hkeys
    refine (SameCounting.insert ?_ ?_).interchangeable
    · simp [ExportTarget.hasSubpaths, hdot]
    · rw [hkeys, counts_of_unknown hunknown]
  | @subpath before after key target hkeys hunequal hunfit =>
    obtain ⟨e, he, hdot⟩ := hkeys
    have hkeys : ExportTarget.hasSubpaths (before ++ after) = true :=
      hasSubpaths_iff.mpr ⟨e, he, hdot⟩
    have hkeys' : ExportTarget.hasSubpaths (before ++ (key, target) :: after) = true := by
      refine hasSubpaths_iff.mpr ⟨e, ?_, hdot⟩
      rcases List.mem_append.mp he with he | he
      · exact List.mem_append_left _ he
      · exact List.mem_append_right _ (List.mem_cons_of_mem _ he)
    refine (SameCounting.insert (hkeys.trans hkeys'.symm) ?_).interchangeable
    rw [hkeys, counts_of_passed hunequal hunfit]
  | @inside before after key target target' h ih =>
    have hkind := hasSubpaths_replace before after key target target'
    cases hcounts : counts request
        (ExportTarget.hasSubpaths (before ++ (key, target) :: after)) key with
    | false => exact (SameCounting.replace hkind hcounts).interchangeable
    | true =>
      refine ⟨⟨settled_inside ih.settled_iff.mp hkind,
        settled_inside ih.settled_iff.mpr hkind.symm⟩, fun hsettled => ?_⟩
      cases hsettled with
      | map hkeys hpositions hinner =>
        have hmem : (key, target) ∈ counting request (before ++ (key, target) :: after) :=
          List.mem_filter.mpr ⟨List.mem_append_right _ List.mem_cons_self, hcounts⟩
        exact alike_of_entriesAlike hkind
          (entriesAlike_inside (ih.alike (hinner _ hmem)) before after key)

/-- Any number of changes, made or taken back. -/
theorem interchangeable_of_layout {t t' : ExportTarget}
    (h : Relation.EqvGen (LayoutStep request) t t') : Interchangeable request t t' := by
  induction h with
  | rel t t' h => exact h.interchangeable
  | refl t => exact ⟨Iff.rfl, fun _ => Alike.refl request t⟩
  | symm t t' h ih =>
    exact ⟨ih.settled_iff.symm, fun hsettled => (ih.alike (ih.settled_iff.mpr hsettled)).symm⟩
  | trans t t' t'' h h' ih ih' =>
    exact ⟨ih.settled_iff.trans ih'.settled_iff, fun hsettled =>
      (ih.alike hsettled).trans (ih'.alike (ih.settled_iff.mp hsettled))⟩

theorem Fits.lead_eq {key key' lead lead' segment segment' : List Char}
    (h : Fits key request lead segment) (h' : Fits key' request lead' segment')
    (hlength : lead.length = lead'.length) : lead = lead' :=
  (List.prefix_of_prefix_length_le h.oneStar.2 h'.oneStar.2 (Nat.le_of_eq hlength)).eq_of_length
    hlength

theorem fits_of_position? {key : String} {n : Nat} (h : position? request key = some n) :
    ∃ lead segment, Fits key.toList request lead segment ∧ n = lead.length := by
  obtain ⟨segment, hcapture, rfl⟩ := Option.map_eq_some_iff.mp h
  obtain ⟨lead, hfits⟩ := fits_of_capture? hcapture
  exact ⟨lead, segment, hfits, hfits.starPosition⟩

theorem WellKeyed.settled {t : ExportTarget} (h : WellKeyed t) (request : List Char) :
    Settled request t := by
  induction h with
  | path text => exact .path text
  | null => exact .null
  | @map entries hkeys hleads hinner ih =>
    have hcounting : (counting request entries).Sublist entries := List.filter_sublist
    have hnodup := hkeys.sublist (hcounting.map (·.1))
    refine .map hnodup (fun hsubpaths => ?_) fun e he => ih e (hcounting.subset he)
    refine List.pairwise_filterMap.mpr (hnodup.imp_of_mem ?_)
    rintro key key' hkey hkey' hne n hn n' hn' rfl
    obtain ⟨e, he, rfl⟩ := List.mem_map.mp hkey
    obtain ⟨e', he', rfl⟩ := List.mem_map.mp hkey'
    obtain ⟨lead, segment, hfits, hlength⟩ := fits_of_position? hn
    obtain ⟨lead', segment', hfits', hlength'⟩ := fits_of_position? hn'
    -- Both leads start the request, so that they are the same text.
    have hlead := hfits.lead_eq hfits' (hlength.symm.trans hlength')
    rw [← hlead] at hfits'
    exact hne (hleads hsubpaths e (hcounting.subset he) e' (hcounting.subset he') lead
      hfits.oneStar.1 hfits'.oneStar.1)

end Resolution

namespace EntryPoints

/-- A request is resolved in the same way, to the same path or error, however the exports are laid
out. -/
theorem resolve_eq_of_layout (package : String) (main : Option String)
    {exports exports' : ExportTarget}
    (hkeyed : Resolution.WellKeyed exports) (subpath : Option (List Char))
    (hlayout : Relation.EqvGen
      (Resolution.LayoutStep (Resolution.requestKey (Resolution.requested subpath)))
      exports exports') :
    ({ package, main, exports := some exports } : EntryPoints).resolve subpath =
      ({ package, main, exports := some exports' } : EntryPoints).resolve subpath := by
  have halike := (Resolution.interchangeable_of_layout hlayout).alike (hkeyed.settled _)
  rw [resolve, resolve, path?, path?]
  dsimp only
  rw [halike.target]

/-- Exports with two patterns, of which one blocks what the other one would serve. -/
def patterned : ExportTarget :=
  .map [("./*", .map [("require", .path "./cjs/*.js"), ("import", .path "./esm/*.js")]),
    ("./internal/*", .null)]

/-- The same exports in another order, with a condition and a subpath more. -/
def relaid : ExportTarget :=
  .map [("./internal/*", .null), ("./legacy/*", .path "./old/*.js"),
    ("./*", .map [("import", .path "./esm/*.js"), ("types", .path "./types/*.d.ts"),
      ("require", .path "./cjs/*.js")])]

theorem patterned_wellKeyed : Resolution.WellKeyed patterned := by
  refine .map (by decide) (fun _ e he e' he' lead hlead hlead' => ?_) fun e he => ?_
  · have hpositions : ∀ key ∈ ["./*", "./internal/*"], ∀ key' ∈ ["./*", "./internal/*"],
        Resolution.starPosition key.toList = Resolution.starPosition key'.toList → key = key' := by
      decide
    exact hpositions e.1 (List.mem_map_of_mem he) e'.1 (List.mem_map_of_mem he')
      (hlead.starPosition.trans hlead'.starPosition.symm)
  · rcases List.mem_pair.mp he with rfl | rfl
    · refine .map (by decide) (fun hsubpaths => absurd hsubpaths ?_) fun e he => ?_
      · rw [← Resolution.hasSubpaths_iff]
        decide
      · rcases List.mem_pair.mp he with rfl | rfl
        · exact .path _
        · exact .path _
    · exact .null

theorem patterned_relaid :
    Relation.EqvGen (Resolution.LayoutStep "./util".toList) patterned relaid := by
  have hswap : Resolution.LayoutStep "./util".toList
      (.map [("require", .path "./cjs/*.js"), ("import", .path "./esm/*.js")])
      (.map [("import", .path "./esm/*.js"), ("require", .path "./cjs/*.js")]) :=
    .permuted (.swap _ _ _)
  have htypes : Resolution.LayoutStep "./util".toList
      (.map ([("import", .path "./esm/*.js")] ++ [("require", .path "./cjs/*.js")]))
      (.map ([("import", .path "./esm/*.js")] ++
        ("types", .path "./types/*.d.ts") :: [("require", .path "./cjs/*.js")])) := by
    refine .condition ?_ (by decide) (by decide)
    rw [← Resolution.hasSubpaths_iff]
    decide
  have hinside : ∀ {t t' : ExportTarget}, Resolution.LayoutStep "./util".toList t t' →
      Relation.EqvGen (Resolution.LayoutStep "./util".toList)
        (.map [("./internal/*", .null), ("./*", t)])
        (.map [("./internal/*", .null), ("./*", t')]) := fun {t t'} h =>
    .rel _ _ (Resolution.LayoutStep.inside h :
      Resolution.LayoutStep _ (.map ([("./internal/*", .null)] ++ ("./*", t) :: []))
        (.map ([("./internal/*", .null)] ++ ("./*", t') :: [])))
  have hlegacy : ∀ t : ExportTarget, Resolution.LayoutStep "./util".toList
      (.map ([("./internal/*", .null)] ++ [("./*", t)]))
      (.map ([("./internal/*", .null)] ++
        ("./legacy/*", .path "./old/*.js") :: [("./*", t)])) := by
    intro t
    have hdot : "./*".toList.head? = some '.' := by decide
    refine .subpath ⟨("./*", t), by simp, hdot⟩ (by decide) fun lead segment hfits => ?_
    have hnone : Resolution.capture? "./legacy/*".toList "./util".toList = none := by decide
    rw [Resolution.capture?_of_fits hfits] at hnone
    cases hnone
  exact .trans _ _ _ (.rel _ _ (.permuted (.swap _ _ _)))
    (.trans _ _ _ (hinside hswap) (.trans _ _ _ (hinside htypes) (.rel _ _ (hlegacy _))))

/-- The request of a file that the pattern with conditions serves. -/
theorem resolve_eq_of_layout_patterned :
    Resolution.WellKeyed patterned ∧
      Relation.EqvGen (Resolution.LayoutStep (Resolution.requestKey
        (Resolution.requested (some "/util".toList)))) patterned relaid ∧
      ({ package := "lib", main := none, exports := some patterned } : EntryPoints).resolve
        (some "/util".toList) = .ok "esm/util".toList ∧
      ({ package := "lib", main := none, exports := some relaid } : EntryPoints).resolve
        (some "/util".toList) = .ok "esm/util".toList := by
  have hresolved : ({ package := "lib", main := none, exports := some patterned } :
      EntryPoints).resolve (some "/util".toList) = .ok "esm/util".toList := by
    decide +kernel
  refine ⟨patterned_wellKeyed, patterned_relaid, hresolved, ?_⟩
  rw [← hresolved]
  exact (resolve_eq_of_layout "lib" none patterned_wellKeyed (some "/util".toList)
    patterned_relaid).symm

end EntryPoints

end DocSnippets
