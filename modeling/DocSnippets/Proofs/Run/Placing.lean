import DocSnippets.Proofs.Diagnostic.Mention
import DocSnippets.Proofs.Disk.Growth
import DocSnippets.Proofs.Path.Lexical
import DocSnippets.Proofs.Text.Digits
import DocSnippets.Run.WorkDirectory

/-!
# Making a work directory

The name of a work directory ends with a random part of six letters and digits, chosen so that
nothing has that name yet. Whether the directory can be made does not depend on the random part, and
the paths of its files are determined by the work root, the random part and the numbers.
-/

namespace DocSnippets

open Text
open Disk (childPath Keeps)

namespace Path

theorem join_name {p : Path} {name : String} (hp : p.text.toList ≠ [])
    (hname : '/' ∉ name.toList) : p.join ⟨name⟩ = childPath p.asDirectory name.toList := by
  unfold join
  rw [isAbsolute_of_notMem hname]
  apply ext_toList
  by_cases hlast : p.text.toList.getLast? = some '/'
  · obtain ⟨front, hfront⟩ := List.getLast?_eq_some_iff.mp hlast
    simp [childPath, asDirectory, hfront]
  · simp [childPath, asDirectory, hp, hlast]

/-- A name can be read off the path that ends with it. -/
theorem join_injective {p : Path} {a b : String} (ha : '/' ∉ a.toList) (hb : '/' ∉ b.toList)
    (h : p.join ⟨a⟩ = p.join ⟨b⟩) : a = b := by
  unfold join at h
  rw [isAbsolute_of_notMem ha, isAbsolute_of_notMem hb] at h
  simp only [Bool.false_eq_true, if_false] at h
  rw [← String.toList_inj]
  split at h
  · simpa using congrArg (fun q : Path => q.text.toList) h
  · simpa using congrArg (fun q : Path => q.text.toList) h

theorem asDirectory_absolute {p : Path} (h : p.text.toList.head? = some '/') :
    p.asDirectory = [] ∨ p.asDirectory.head? = some '/' := by
  obtain ⟨rest, hrest⟩ := List.head?_eq_some_iff.mp h
  unfold asDirectory
  rw [hrest]
  split
  · cases rest with
    | nil => exact Or.inl rfl
    | cons c rest => exact Or.inr rfl
  · exact Or.inr rfl

theorem childPath_asDirectory_absolute {p : Path} (h : p.isAbsolute = true) (name : List Char) :
    (childPath p.asDirectory name).isAbsolute = true := by
  have hhead : p.text.toList.head? = some '/' := by simpa [isAbsolute] using h
  unfold isAbsolute childPath
  rw [String.toList_ofList, decide_eq_true_eq]
  rcases asDirectory_absolute hhead with hnil | hslash
  · rw [hnil]
    rfl
  · obtain ⟨rest, hrest⟩ := List.head?_eq_some_iff.mp hslash
    rw [hrest]
    rfl

end Path

theorem Disk.absolute_head (d : Disk) (p : Path) :
    (d.absolute p).text.toList.head? = some '/' := by
  have hcurrent : d.currentPath.text.toList =
      '/' :: ("/".intercalate d.current).toList := by simp [Disk.currentPath]
  unfold Disk.absolute Path.join
  split
  · next habsolute => simpa [Path.isAbsolute] using habsolute
  · split <;> simp [hcurrent]

theorem Disk.absolute_ne_nil (d : Disk) (p : Path) : (d.absolute p).text.toList ≠ [] := by
  intro hnil
  have hhead := d.absolute_head p
  rw [hnil] at hhead
  cases hhead

/-- The random part of the name of a work directory. -/
structure RandomPart (suffix : String) : Prop where
  length : suffix.toList.length = 6
  alphanumeric : ∀ c ∈ suffix.toList, c.isAlphanum = true

namespace RandomPart

variable {suffix : String}

instance : Decidable (RandomPart suffix) :=
  decidable_of_iff (suffix.toList.length = 6 ∧ suffix.toList.all Char.isAlphanum = true)
    ⟨fun h => ⟨h.1, List.all_eq_true.mp h.2⟩,
      fun h => ⟨h.length, List.all_eq_true.mpr h.alphanumeric⟩⟩

theorem notMem (h : RandomPart suffix) {c : Char} (hc : c.isAlphanum = false) :
    c ∉ suffix.toList := by
  intro hmem
  rw [h.alphanumeric c hmem] at hc
  cases hc

theorem utf8Size_of_isAlphanum {c : Char} (h : c.isAlphanum = true) : c.utf8Size = 1 := by
  have hrange := toNat_of_isAlphanum h
  have hle : c.toNat ≤ 127 := by omega
  rw [Char.utf8Size_eq_one_iff]
  exact UInt32.le_iff_toNat_le.mpr hle

theorem byteLength_of_isAlphanum {text : List Char} (h : ∀ c ∈ text, c.isAlphanum = true) :
    byteLength text = text.length := by
  induction text with
  | nil => rfl
  | cons c text ih =>
    rw [byteLength, utf8Size_of_isAlphanum (h c List.mem_cons_self),
      ih fun d hd => h d (List.mem_cons_of_mem c hd), List.length_cons]
    omega

theorem byteLength_directoryName (h : RandomPart suffix) :
    byteLength (WorkFile.directoryName suffix).toList = 20 := by
  have hmark : byteLength WorkFile.mark = 14 := by decide
  rw [WorkFile.toList_directoryName, byteLength_append, hmark,
    byteLength_of_isAlphanum h.alphanumeric, h.length]

theorem notMem_directoryName (h : RandomPart suffix) {c : Char} (hmark : c ∉ WorkFile.mark)
    (hc : c.isAlphanum = false) : c ∉ (WorkFile.directoryName suffix).toList := by
  rw [WorkFile.toList_directoryName]
  intro hmem
  rcases List.mem_append.mp hmem with hmem | hmem
  · exact hmark hmem
  · exact h.notMem hc hmem

theorem isName (h : RandomPart suffix) : Path.IsName (WorkFile.directoryName suffix).toList := by
  have hmem : 'c' ∈ (WorkFile.directoryName suffix).toList := by
    rw [WorkFile.toList_directoryName]
    exact List.mem_append_left _ (by decide)
  constructor
  case ne_nil =>
    intro heq
    rw [heq] at hmem
    cases hmem
  case ne_dot =>
    intro heq
    rw [heq] at hmem
    exact absurd hmem (by decide)
  case ne_dots =>
    intro heq
    rw [heq] at hmem
    exact absurd hmem (by decide)
  case noSlash => exact h.notMem_directoryName (by decide) (by decide)

end RandomPart

namespace Disk

theorem pathFault?_childPath {dir name : List Char} (hnul : '\x00' ∉ name) :
    pathFault? (childPath dir name) =
      if '\x00' ∈ dir then some .nulInPath
      else if pathLimit < byteLength dir + 1 + byteLength name then some .nameTooLong
      else none := by
  have hcontains : (dir ++ '/' :: name).contains '\x00' = decide ('\x00' ∈ dir) := by
    simp [hnul]
  have hlength : byteLength (dir ++ '/' :: name) = byteLength dir + 1 + byteLength name := by
    have hslash : '/'.utf8Size = 1 := by decide
    rw [byteLength_append, byteLength, hslash]
    omega
  unfold pathFault? childPath
  dsimp only
  rw [String.toList_ofList, hcontains, hlength]
  by_cases hdir : '\x00' ∈ dir <;> simp [hdir]

/-- Two names of one length are made or refused alike, up to what is there already. -/
theorem locate_sibling (d : Disk) {dir a b : List Char}
    (habsolute : ∀ name, (childPath dir name).isAbsolute = true)
    (ha : Path.IsName a) (hb : Path.IsName b) (hnula : '\x00' ∉ a) (hnulb : '\x00' ∉ b)
    (hlength : byteLength a = byteLength b) :
    (d.locate (childPath dir a)).map (fun _ => ()) =
      (d.locate (childPath dir b)).map fun _ => () := by
  rw [locate_childPath d (habsolute a) ha, locate_childPath d (habsolute b) hb,
    pathFault?_childPath hnula, pathFault?_childPath hnulb, hlength]
  split
  · rfl
  · cases d.walk [] (splitOn '/' dir) with
    | error fault => rfl
    | ok l =>
      simp only [Except.bind, walk_name d l ha, walk_name d l hb, hlength]
      cases d.entry? l with
      | none => rfl
      | some e =>
        cases e with
        | file content executable => rfl
        | directory => dsimp only; split <;> rfl

theorem makeDirectory_eq {d : Disk} {p : Path} (h : dropSlashes p = p) :
    d.makeDirectory p =
      match d.locate p with
      | .error fault => .error fault
      | .ok l =>
        match d.entry? l with
        | some _ => .error .exists
        | none => .ok (d.put l .directory) := by
  unfold makeDirectory
  rw [h]
  cases hfault : pathFault? p with
  | some fault =>
    have hlocate : d.locate p = .error fault := by rw [locate, hfault]
    rw [hlocate]
    rfl
  | none =>
    cases d.locate p with
    | error fault => rfl
    | ok l => rfl

theorem absolute_congr {d d' : Disk} (h : d.current = d'.current) (p : Path) :
    d.absolute p = d'.absolute p := by
  unfold absolute currentPath
  rw [h]

theorem dropSlashes_childPath {dir name : List Char} (hname : Path.IsName name) :
    dropSlashes (childPath dir name) = childPath dir name := by
  obtain ⟨front, last, rfl⟩ : ∃ front last, name = front ++ [last] := by
    rcases List.eq_nil_or_concat name with hnil | ⟨front, last, hlast⟩
    · exact absurd hnil hname.ne_nil
    · exact ⟨front, last, hlast.trans List.concat_eq_append⟩
  have hslash : last ≠ '/' := by
    rintro rfl
    exact hname.noSlash (List.mem_append_right front List.mem_cons_self)
  unfold dropSlashes childPath
  dsimp only
  rw [String.toList_ofList]
  simp [hslash]

end Disk

namespace WorkDirectory

/-- The number of a snippet file can be read off its path. -/
theorem snippetPath_injective {w : WorkDirectory} {a b : Nat} {d e : Dialect}
    (h : w.snippetPath a d = w.snippetPath b e) : a = b :=
  WorkFile.snippetName_injective (Path.join_injective
    (WorkFile.isName_snippetName a d).noSlash (WorkFile.isName_snippetName b e).noSlash h)

/-- The path of a snippet file, in a directory whose path ends with its name. -/
theorem snippetPath_of_path {w : WorkDirectory} {dir : List Char} {suffix : String}
    (hpath : w.path.text.toList = dir ++ '/' :: (WorkFile.mark ++ suffix.toList))
    (hslash : '/' ∉ suffix.toList) (id : Nat) (dialect : Dialect) :
    w.snippetPath id dialect =
      childPath w.path.text.toList (WorkFile.snippetName id dialect).toList := by
  have hne : w.path.text.toList ≠ [] := by simp [hpath]
  have hlast : w.path.text.toList.getLast? ≠ some '/' := by
    have hname : WorkFile.mark ++ suffix.toList ≠ [] := by simp [WorkFile.mark_ne_nil]
    intro hend
    rw [hpath, List.getLast?_append_of_ne_nil _ (List.cons_ne_nil _ _),
      List.getLast?_cons_of_ne_nil hname] at hend
    rcases List.mem_append.mp (List.mem_of_getLast? hend) with hmem | hmem
    · exact absurd hmem (by decide)
    · exact hslash hmem
  have hdir : w.path.asDirectory = w.path.text.toList := by rw [Path.asDirectory, if_neg hlast]
  rw [snippetPath, Path.join_name hne (WorkFile.isName_snippetName id dialect).noSlash, hdir]

def pathIn (d : Disk) (parent : Path) (suffix : String) : Path :=
  childPath (d.absolute parent).asDirectory (WorkFile.directoryName suffix).toList

theorem path_of_createIn {w : WorkDirectory} {d home : Disk} {parent : Path} {suffix : String}
    (h : createIn d parent suffix = .ok (w, home)) :
    w.path = (d.absolute parent).join ⟨WorkFile.directoryName suffix⟩ := by
  unfold createIn at h
  dsimp only at h
  generalize (d.absolute parent).join ⟨WorkFile.directoryName suffix⟩ = path at h
  cases hmake : d.makeDirectory path with
  | error fault =>
    rw [hmake] at h
    cases h
  | ok made =>
    cases hlocate : made.locate path with
    | error fault =>
      simp only [hmake, hlocate, bind, Except.bind] at h
      cases h
    | ok location =>
      simp only [hmake, hlocate, bind, Except.bind] at h
      obtain ⟨rfl, -⟩ := Prod.mk.inj (Except.ok.inj h)
      rfl

/-- Nothing is at the place of the work directory or below it. -/
def Unused (d : Disk) (parent : Path) (suffix : String) : Prop :=
  ∀ l, d.locate (pathIn d parent suffix) = .ok l → ∀ below, d.entry? (l ++ below) = none

theorem childPath_absolute (d : Disk) (parent : Path) (name : List Char) :
    (childPath (d.absolute parent).asDirectory name).isAbsolute = true :=
  Path.childPath_asDirectory_absolute (by simpa [Path.isAbsolute] using d.absolute_head parent) name

theorem pathIn_absolute (d : Disk) (parent : Path) (suffix : String) :
    (pathIn d parent suffix).isAbsolute = true := by
  unfold pathIn
  exact childPath_absolute d parent _

theorem createIn_eq {d : Disk} {parent : Path} {suffix : String} (hrandom : RandomPart suffix)
    (hunused : Unused d parent suffix) :
    createIn d parent suffix =
      (d.locate (pathIn d parent suffix)).map fun l =>
        (⟨pathIn d parent suffix, l⟩, d.put l .directory) := by
  have hslash := hrandom.notMem_directoryName (c := '/') (by decide) (by decide)
  have hpath := Path.join_name (d.absolute_ne_nil parent) hslash
  have hslashes : Disk.dropSlashes (pathIn d parent suffix) = pathIn d parent suffix :=
    Disk.dropSlashes_childPath hrandom.isName
  unfold createIn
  dsimp only
  rw [hpath, ← pathIn, Disk.makeDirectory_eq hslashes]
  cases hlocate : d.locate (pathIn d parent suffix) with
  | error fault => rfl
  | ok l =>
    have hnone : d.entry? l = none := by simpa using hunused l hlocate []
    have hkeeps : Keeps d (d.put l .directory) := Disk.keeps_put (by simp [hnone]) _
    have hagain := Disk.locate_keeps hkeeps (pathIn_absolute d parent suffix) hlocate
    simp only [hnone, bind, Except.bind, hagain, Except.map]

/-- Whether a work directory can be made does not depend on its random part. -/
theorem createIn_sibling {d : Disk} {parent : Path} {a b : String} (ha : RandomPart a)
    (hb : RandomPart b) (hua : Unused d parent a) (hub : Unused d parent b) :
    (createIn d parent a).map (fun _ => ()) = (createIn d parent b).map fun _ => () := by
  have hlocate := d.locate_sibling (childPath_absolute d parent) ha.isName hb.isName
    (ha.notMem_directoryName (c := '\x00') (by decide) (by decide))
    (hb.notMem_directoryName (c := '\x00') (by decide) (by decide))
    (ha.byteLength_directoryName.trans hb.byteLength_directoryName.symm)
  rw [createIn_eq ha hua, createIn_eq hb hub]
  unfold pathIn
  revert hlocate
  cases d.locate (childPath (d.absolute parent).asDirectory (WorkFile.directoryName a).toList) <;>
    cases d.locate (childPath (d.absolute parent).asDirectory (WorkFile.directoryName b).toList) <;>
    exact id

end WorkDirectory

end DocSnippets
