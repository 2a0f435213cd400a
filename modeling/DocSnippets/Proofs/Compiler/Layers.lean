import DocSnippets.Compiler.ProjectFile
import DocSnippets.Proofs.Json.Members
import DocSnippets.Proofs.Keyed

/-!
# Layers of options

The options of a project file are those passed through, with the recognized ones, the forced ones,
the default for markup and the root directory set on top, each in the place of its key. All that is
set on top is one list of distinct keys, so what stands under a key is what was set under it, and
what was passed through where nothing was set.
-/

namespace DocSnippets

open Json (setMembers keys lookup_cons_eq lookup_eq_none_iff)

namespace CompilerOptions

theorem lookup_jsx_recognized (o : CompilerOptions) :
    o.recognized.lookup "jsx" = o.jsx.map Json.Value.string := by
  cases hjsx : o.jsx <;> cases hstrict : o.strict <;>
    simp [recognized, hjsx, hstrict, lookup_cons_eq]

theorem lookup_strict_recognized (o : CompilerOptions) :
    o.recognized.lookup "strict" = o.strict.map Json.Value.bool := by
  cases hjsx : o.jsx <;> cases hstrict : o.strict <;>
    simp [recognized, hjsx, hstrict, lookup_cons_eq]

theorem keys_recognized_sublist (o : CompilerOptions) :
    (keys o.recognized).Sublist ["jsx", "strict"] := by
  cases hjsx : o.jsx <;> cases hstrict : o.strict <;> simp [recognized, hjsx, hstrict, keys]

theorem keys_set_sublist (o : CompilerOptions) :
    (keys (o.recognized ++ forced)).Sublist (["jsx", "strict"] ++ keys forced) := by
  rw [keys, List.map_append]
  exact o.keys_recognized_sublist.append (List.Sublist.refl _)

theorem keys_set_nodup (o : CompilerOptions) : (keys (o.recognized ++ forced)).Nodup :=
  o.keys_set_sublist.nodup (by decide)

theorem effective_eq (o : CompilerOptions) :
    o.effective = setMembers o.passThrough (o.recognized ++ forced) :=
  (Json.setMembers_append _ _ _).symm

theorem lookup_effective (o : CompilerOptions) (key : String) :
    o.effective.lookup key =
      ((o.recognized ++ forced).lookup key).or (o.passThrough.lookup key) := by
  rw [effective_eq, Json.lookup_setMembers o.keys_set_nodup]

/-- Passing through what reaches the compiler changes nothing, where no other options are
recognized. -/
theorem effective_of_passed {o o' : CompilerOptions} (h : o'.passThrough = o.effective)
    (hrecognized : ∀ m ∈ o'.recognized, m ∈ o.recognized) : o'.effective = o.effective := by
  rw [effective_eq o', h]
  apply Json.setMembers_of_lookup
  intro m hm
  have hset : m ∈ o.recognized ++ forced := by
    rcases List.mem_append.mp hm with hm | hm
    · exact List.mem_append_left _ (hrecognized m hm)
    · exact List.mem_append_right _ hm
  rw [lookup_effective, (Keyed.lookup_eq_some_iff_mem o.keys_set_nodup).mpr hset]
  rfl

end CompilerOptions

namespace ProjectFile

open CompilerOptions (forced)

variable {root : Path} {r : Request} {hasBase : Bool}

/-- The option for markup that is added where nothing else says anything about it. -/
def markupDefault (r : Request) (hasBase : Bool) : List (String × Json.Value) :=
  if !hasBase && r.dialect.isJsx && (r.options.effective.lookup "jsx").isNone then
    [("jsx", .string "preserve")]
  else []

/-- All that is set on top of the options passed through, in this order. -/
def added (root : Path) (r : Request) (hasBase : Bool) : List (String × Json.Value) :=
  r.options.recognized ++ forced ++
    (markupDefault r hasBase ++
      [("rootDir", .string (commonAncestor root (r.file.parent?.getD ⟨""⟩)).text)])

theorem options_eq (root : Path) (r : Request) (hasBase : Bool) :
    options root r hasBase = setMembers r.options.passThrough (added root r hasBase) := by
  rw [added, Json.setMembers_append, Json.setMembers_append, ← CompilerOptions.effective_eq,
    options, withJsx, markupDefault]
  split <;> rfl

theorem lookup_jsx_effective (o : CompilerOptions) :
    o.effective.lookup "jsx" =
      (o.jsx.map Json.Value.string).or (o.passThrough.lookup "jsx") := by
  have hforced : forced.lookup "jsx" = none := lookup_eq_none_iff.mpr (by decide)
  rw [CompilerOptions.lookup_effective, List.lookup_append, hforced, Option.or_none,
    CompilerOptions.lookup_jsx_recognized]

/-- The default for markup is added only where no layer below it has the key. -/
theorem markupDefault_eq_nil {o : CompilerOptions} (h : "jsx" ∈ keys (o.recognized ++ forced))
    (hr : r.options = o) : markupDefault r hasBase = [] := by
  have hset : (o.recognized ++ forced).lookup "jsx" ≠ none := fun hnone =>
    lookup_eq_none_iff.mp hnone h
  obtain ⟨value, hvalue⟩ := Option.ne_none_iff_exists'.mp hset
  have hsome : (r.options.effective.lookup "jsx").isNone = false := by
    rw [hr, CompilerOptions.lookup_effective, hvalue]
    rfl
  rw [markupDefault, hsome, Bool.and_false]
  rfl

theorem keys_markupDefault_sublist (r : Request) (hasBase : Bool) :
    (keys (markupDefault r hasBase)).Sublist ["jsx"] := by
  unfold markupDefault
  split
  · exact List.Sublist.refl _
  · exact List.nil_sublist _

theorem keys_added (root : Path) (r : Request) (hasBase : Bool) :
    keys (added root r hasBase) = keys (r.options.recognized ++ forced) ++
      (keys (markupDefault r hasBase) ++ ["rootDir"]) := by
  simp only [added, keys, List.map_append, List.map_cons, List.map_nil]

theorem keys_added_nodup (root : Path) (r : Request) (hasBase : Bool) :
    (keys (added root r hasBase)).Nodup := by
  have habove : (keys (markupDefault r hasBase) ++ ["rootDir"]).Sublist ["jsx", "rootDir"] :=
    (keys_markupDefault_sublist r hasBase).append (List.Sublist.refl _)
  rw [keys_added]
  apply List.nodup_append.mpr
  refine ⟨r.options.keys_set_nodup, habove.nodup (by decide), ?_⟩
  rintro key hkey other hother rfl
  rcases List.mem_append.mp hother with hother | hother
  · obtain rfl := List.mem_singleton.mp ((keys_markupDefault_sublist r hasBase).subset hother)
    rw [markupDefault_eq_nil hkey rfl] at hother
    cases hother
  · obtain rfl := List.mem_singleton.mp hother
    exact absurd (r.options.keys_set_sublist.subset hkey) (by decide)

theorem lookup_options (root : Path) (r : Request) (hasBase : Bool) (key : String) :
    (options root r hasBase).lookup key =
      ((added root r hasBase).lookup key).or (r.options.passThrough.lookup key) := by
  rw [options_eq, Json.lookup_setMembers (keys_added_nodup root r hasBase)]

theorem lookup_of_mem_added {m : String × Json.Value} (h : m ∈ added root r hasBase) :
    (options root r hasBase).lookup m.1 = some m.2 := by
  rw [lookup_options,
    (Keyed.lookup_eq_some_iff_mem (keys_added_nodup root r hasBase)).mpr h]
  rfl

theorem lookup_strict (root : Path) (r : Request) (hasBase : Bool) :
    (options root r hasBase).lookup "strict" =
      (r.options.strict.map Json.Value.bool).or (r.options.passThrough.lookup "strict") := by
  have hforced : forced.lookup "strict" = none := lookup_eq_none_iff.mpr (by decide)
  have hmarkup : (markupDefault r hasBase).lookup "strict" = none :=
    lookup_eq_none_iff.mpr fun hmem =>
      absurd ((keys_markupDefault_sublist r hasBase).subset hmem) (by decide)
  rw [lookup_options, added, List.lookup_append, List.lookup_append, List.lookup_append, hforced,
    hmarkup, CompilerOptions.lookup_strict_recognized, lookup_cons_eq]
  simp

theorem lookup_jsx (root : Path) (r : Request) (hasBase : Bool) :
    (options root r hasBase).lookup "jsx" =
      ((r.options.jsx.map Json.Value.string).or (r.options.passThrough.lookup "jsx")).or
        (if r.dialect = .tsx ∧ hasBase = false then some (.string "preserve") else none) := by
  have hforced : forced.lookup "jsx" = none := lookup_eq_none_iff.mpr (by decide)
  rw [lookup_options, added, List.lookup_append, List.lookup_append, List.lookup_append, hforced,
    CompilerOptions.lookup_jsx_recognized, lookup_cons_eq, markupDefault, lookup_jsx_effective]
  cases r.options.jsx with
  | some jsx => rfl
  | none =>
    cases r.options.passThrough.lookup "jsx" with
    | some value => simp
    | none => cases r.dialect <;> cases hasBase <;> simp [Dialect.isJsx]

/-- The options that nobody can change, with their values. -/
def locked : List (String × Bool) :=
  [("noEmit", true), ("noUnusedLocals", false), ("incremental", false), ("composite", false),
    ("declaration", false), ("declarationMap", false), ("sourceMap", false)]

/-- The keys that an option may have that was not passed through. -/
def reserved : List String := ["rootDir", "strict", "jsx"] ++ keys locked

/-- What the options of a project file are, layer by layer: `extended` tells whether the file
extends another project. -/
structure Layered (root : Path) (r : Request) (extended : Bool)
    (options : List (String × Json.Value)) : Prop where
  rootDir : options.lookup "rootDir" =
    some (.string (commonAncestor root (r.file.parent?.getD ⟨""⟩)).text)
  locked : ∀ key value, (key, value) ∈ locked → options.lookup key = some (.bool value)
  strict : options.lookup "strict" =
    (r.options.strict.map Json.Value.bool).or (r.options.passThrough.lookup "strict")
  jsx : options.lookup "jsx" =
    ((r.options.jsx.map Json.Value.string).or (r.options.passThrough.lookup "jsx")).or
      (if r.dialect = .tsx ∧ extended = false then some (.string "preserve") else none)
  /-- Options under all other keys are those passed through, as they were and in their order. -/
  passed : options.filter (fun m => m.1 ∉ reserved) =
    r.options.passThrough.filter fun m => m.1 ∉ reserved
  /-- The keys passed through are in front, in their order; new ones follow. -/
  placed : ∃ new, keys options = keys r.options.passThrough ++ new ∧ new.Nodup ∧
    ∀ key ∈ new, key ∈ reserved ∧ key ∉ keys r.options.passThrough

theorem forced_eq_locked : forced = locked.map fun m => (m.1, .bool m.2) := rfl

theorem keys_forced : keys forced = keys locked := rfl

theorem mem_reserved_of_added {key : String} (h : key ∈ keys (added root r hasBase)) :
    key ∈ reserved := by
  rw [keys_added] at h
  rcases List.mem_append.mp h with h | h
  · have hset := r.options.keys_set_sublist.subset h
    rw [keys_forced] at hset
    unfold reserved
    simp only [List.mem_append, List.mem_cons, List.not_mem_nil, or_false] at hset ⊢
    tauto
  · rcases List.mem_append.mp h with h | h
    · obtain rfl := List.mem_singleton.mp ((keys_markupDefault_sublist r hasBase).subset h)
      decide
    · obtain rfl := List.mem_singleton.mp h
      decide

theorem options_layered (root : Path) (r : Request) (hasBase : Bool) :
    Layered root r hasBase (options root r hasBase) := by
  constructor
  case rootDir =>
    apply lookup_of_mem_added (m := ("rootDir", _))
    exact List.mem_append_right _ (List.mem_append_right _ List.mem_cons_self)
  case locked =>
    intro key value hmem
    apply lookup_of_mem_added (m := (key, .bool value))
    have hforced : (key, Json.Value.bool value) ∈ forced := by
      rw [forced_eq_locked]
      exact List.mem_map_of_mem hmem
    exact List.mem_append_left _ (List.mem_append_right _ hforced)
  case strict => exact lookup_strict root r hasBase
  case jsx => exact lookup_jsx root r hasBase
  case passed =>
    rw [options_eq]
    have hreserved : ∀ key ∈ keys (added root r hasBase), decide (key ∉ reserved) = false := by
      intro key hkey
      simpa using mem_reserved_of_added hkey
    exact Json.filter_setMembers hreserved _
  case placed =>
    have hnodup := keys_added_nodup root r hasBase
    refine ⟨(keys (added root r hasBase)).filter (· ∉ keys r.options.passThrough), ?_,
      hnodup.filter _, ?_⟩
    · rw [options_eq]
      exact Json.keys_setMembers hnodup _
    · intro key hkey
      obtain ⟨hadded, hfresh⟩ := List.mem_filter.mp hkey
      exact ⟨mem_reserved_of_added hadded, of_decide_eq_true hfresh⟩

/-- What is written for a snippet has the options in layers, and to pass through the options that
reach the compiler, with the recognized ones or without, gives the same options again. -/
theorem write_layered (root : Path) (r : Request) (d : Disk) :
    ∃ project options,
      write root r d =
        d.writeText (WorkFile.projectFor r.file) (String.ofList (Json.Value.pretty project)) ∧
      project.member? "compilerOptions" = some (.object options) ∧
      Layered root r (d.isFile (r.options.projectPath root)) options ∧
      ({ r.options with passThrough := r.options.effective } : CompilerOptions).effective =
        r.options.effective ∧
      ({ CompilerOptions.default with passThrough := r.options.effective } :
        CompilerOptions).effective = r.options.effective := by
  refine ⟨value root r (d.isFile (r.options.projectPath root)), _, rfl, ?_,
    options_layered root r _, ?_, ?_⟩
  · cases d.isFile (r.options.projectPath root) with
    | true => rfl
    | false => rfl
  · exact CompilerOptions.effective_of_passed rfl fun m hm => hm
  · exact CompilerOptions.effective_of_passed rfl fun m hm => absurd hm List.not_mem_nil

end ProjectFile

end DocSnippets
