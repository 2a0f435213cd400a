import DocSnippets.Disk.Basic
import DocSnippets.Proofs.Keyed
import DocSnippets.Proofs.Path

/-!
# Following paths

What putting an entry and removing a directory do is said by the entries afterwards. A walk depends
on the directories of a tree alone. A tree that keeps the directories of another one has at least
its locations, so a path that was good once stays good while files come and go. An absolute path
finds a file that was written with its new content and every other file as before, from whatever
directory it is followed.
-/

namespace DocSnippets.Disk

open Text

/-- The second tree has all directories of the first one. -/
def Keeps (d d' : Disk) : Prop :=
  ∀ l, d.entry? l = some .directory → d'.entry? l = some .directory

theorem Keeps.refl (d : Disk) : Keeps d d := fun _ h => h

theorem Keeps.trans {a b c : Disk} (hab : Keeps a b) (hbc : Keeps b c) : Keeps a c :=
  fun l h => hbc l (hab l h)

theorem entry?_put {d : Disk} {l : Location} (hl : l ≠ []) (e : Entry) (l' : Location) :
    entry? (d.put l e) l' = if l' = l then some e else d.entry? l' := by
  unfold entry? put
  by_cases hroot : l' = []
  · have hne : l' ≠ l := fun heq => hl (heq ▸ hroot)
    rw [if_pos hroot, if_pos hroot, if_neg hne]
  · rw [if_neg hroot, if_neg hroot, List.lookup_cons]
    by_cases heq : l' = l
    · rw [if_pos heq, heq, beq_self_eq_true]
    · have hne : (l' == l) = false := by simpa using heq
      rw [if_neg heq, hne]
      rw [Keyed.lookup_filter fun x => x != l, if_pos (by simpa using heq)]

theorem isWithin_iff {l top : Location} : isWithin l top = true ↔ top <+: l :=
  List.isPrefixOf_iff_prefix

theorem entry?_removeTree {top : Location} (htop : top ≠ []) (d : Disk) (l : Location) :
    entry? (d.removeTree top) l = if isWithin l top then none else d.entry? l := by
  unfold entry? removeTree
  by_cases hroot : l = []
  · subst hroot
    obtain ⟨name, rest, rfl⟩ := List.exists_cons_of_ne_nil htop
    rfl
  · rw [if_neg hroot, if_neg hroot, Keyed.lookup_filter fun x => !isWithin x top]
    cases isWithin l top <;> rfl

theorem keeps_put {d : Disk} {l : Location} (h : d.entry? l ≠ some .directory) (e : Entry) :
    Keeps d (d.put l e) := by
  have hl : l ≠ [] := by
    rintro rfl
    exact h rfl
  intro l' hdir
  rw [entry?_put hl]
  by_cases heq : l' = l
  · exact absurd (heq ▸ hdir) h
  · rwa [if_neg heq]

/-- A file that was written is at the place of its path, where there was no directory. -/
theorem exists_put_of_writeText {d d' : Disk} {p : Path} {text : String}
    (h : d.writeText p text = .ok d') :
    ∃ l executable, d.locate p = .ok l ∧ d.entry? l ≠ some .directory ∧
      d' = d.put l (.file text.toUTF8 executable) := by
  unfold writeText write at h
  cases hlocate : d.locate p with
  | error fault => rw [hlocate] at h; cases h
  | ok l =>
    simp only [hlocate, bind, Except.bind] at h
    split at h
    · cases h
    · next content executable hentry =>
      exact ⟨l, executable, rfl, by simp [hentry], (Except.ok.inj h).symm⟩
    · next hentry => exact ⟨l, false, rfl, by simp [hentry], (Except.ok.inj h).symm⟩

theorem exists_of_writeText {d d' : Disk} {p : Path} {text : String}
    (h : d.writeText p text = .ok d') :
    ∃ l e, d.locate p = .ok l ∧ d.entry? l ≠ some .directory ∧ d' = d.put l e := by
  obtain ⟨l, executable, hlocate, hfree, rfl⟩ := exists_put_of_writeText h
  exact ⟨l, _, hlocate, hfree, rfl⟩

theorem writeText_current {d d' : Disk} {p : Path} {text : String}
    (h : d.writeText p text = .ok d') : d'.current = d.current := by
  obtain ⟨l, e, -, -, rfl⟩ := exists_of_writeText h
  rfl

theorem writeText_entry? {d d' : Disk} {p : Path} {text : String} (h : d.writeText p text = .ok d')
    {l : Location} (hl : d.locate p ≠ .ok l) : d'.entry? l = d.entry? l := by
  obtain ⟨spot, e, hlocate, hfree, rfl⟩ := exists_of_writeText h
  have hspot : spot ≠ [] := by
    rintro rfl
    exact hfree rfl
  have hne : l ≠ spot := by
    rintro rfl
    exact hl hlocate
  rw [entry?_put hspot, if_neg hne]

theorem walk_append (d : Disk) (start : Location) (parts more : List (List Char)) :
    d.walk start (parts ++ more) = (d.walk start parts).bind fun l => d.walk l more := by
  induction parts generalizing start with
  | nil => rfl
  | cons part parts ih =>
    rw [List.cons_append, walk, walk]
    split
    · rfl
    · rfl
    · split
      · rfl
      · split
        · exact ih start
        · split
          · exact ih start.dropLast
          · exact ih _

theorem walk_keeps {d d' : Disk} (hk : Keeps d d') {start l : Location} {parts : List (List Char)}
    (h : d.walk start parts = .ok l) : d'.walk start parts = .ok l := by
  induction parts generalizing start with
  | nil => exact h
  | cons part parts ih =>
    rw [walk] at h
    cases hentry : d.entry? start with
    | none => rw [hentry] at h; cases h
    | some e =>
      cases e with
      | file content executable => rw [hentry] at h; cases h
      | directory =>
        rw [hentry] at h
        rw [walk, hk start hentry]
        dsimp only at h ⊢
        split at h
        · cases h
        · next hname =>
          rw [if_neg hname]
          split at h
          · next hstay =>
            rw [if_pos hstay]
            exact ih h
          · next hstay =>
            rw [if_neg hstay]
            split at h
            · next hup =>
              rw [if_pos hup]
              exact ih h
            · next hup =>
              rw [if_neg hup]
              exact ih h

theorem locate_keeps {d d' : Disk} (hk : Keeps d d') {p : Path} (habsolute : p.isAbsolute)
    {l : Location} (h : d.locate p = .ok l) : d'.locate p = .ok l := by
  unfold locate at h ⊢
  cases hfault : pathFault? p with
  | some fault => rw [hfault] at h; cases h
  | none =>
    rw [hfault, if_pos habsolute] at h
    rw [if_pos habsolute]
    exact walk_keeps hk h

theorem find_eq_ok_iff {d : Disk} {p : Path} {l : Location} {e : Entry} :
    d.find p = .ok (l, e) ↔ d.locate p = .ok l ∧ d.entry? l = some e := by
  unfold find
  cases hlocate : d.locate p with
  | error fault => simp [bind, Except.bind]
  | ok spot =>
    simp only [bind, Except.bind, Except.ok.injEq]
    cases hentry : d.entry? spot with
    | none =>
      constructor
      · intro h
        cases h
      · rintro ⟨rfl, hsome⟩
        rw [hentry] at hsome
        cases hsome
    | some found =>
      simp only [Except.ok.injEq, Prod.mk.injEq]
      constructor
      · rintro ⟨rfl, rfl⟩
        exact ⟨rfl, hentry⟩
      · rintro ⟨rfl, hsome⟩
        rw [hentry] at hsome
        exact ⟨rfl, Option.some.inj hsome⟩

section Absolute

variable {d d' : Disk} {p : Path} {l : Location} {e : Entry}

theorem find_keeps (hk : Keeps d d') (habsolute : p.isAbsolute) (h : d.find p = .ok (l, e))
    (hentry : d'.entry? l = some e) : d'.find p = .ok (l, e) :=
  find_eq_ok_iff.mpr ⟨locate_keeps hk habsolute (find_eq_ok_iff.mp h).1, hentry⟩

/-- What an absolute path finds does not depend on the current directory. -/
theorem find_elsewhere (habsolute : p.isAbsolute) (h : d.find p = .ok (l, e))
    (current : Location) : find { d with current } p = .ok (l, e) := by
  have hkeeps : Keeps d { d with current } := fun _ hdir => hdir
  exact find_keeps hkeeps habsolute h (find_eq_ok_iff.mp h).2

theorem keeps_of_writeText {text : String} (h : d.writeText p text = .ok d') : Keeps d d' := by
  obtain ⟨l, e, -, hfree, rfl⟩ := exists_of_writeText h
  exact keeps_put hfree e

/-- A file that was written is found with its new content. -/
theorem find_of_writeText {text : String} (habsolute : p.isAbsolute)
    (h : d.writeText p text = .ok d') :
    ∃ l executable, d.locate p = .ok l ∧ d'.find p = .ok (l, .file text.toUTF8 executable) := by
  have hkeeps := keeps_of_writeText h
  obtain ⟨l, executable, hlocate, hfree, rfl⟩ := exists_put_of_writeText h
  have hl : l ≠ [] := by
    rintro rfl
    exact hfree rfl
  refine ⟨l, executable, hlocate, find_eq_ok_iff.mpr ⟨locate_keeps hkeeps habsolute hlocate, ?_⟩⟩
  rw [entry?_put hl, if_pos rfl]

/-- What was found at another place is found there after writing a file. -/
theorem find_of_writeText_ne {q : Path} {text : String} (habsolute : q.isAbsolute)
    (h : d.writeText p text = .ok d') (hfind : d.find q = .ok (l, e))
    (hne : d.locate p ≠ .ok l) : d'.find q = .ok (l, e) := by
  apply find_keeps (keeps_of_writeText h) habsolute hfind
  have hentry := writeText_entry? h hne
  rw [hentry]
  exact (find_eq_ok_iff.mp hfind).2

end Absolute

theorem walk_name (d : Disk) (start : Location) {name : List Char} (h : Path.IsName name) :
    d.walk start [name] =
      match d.entry? start with
      | none => .error .missing
      | some (.file _ _) => .error .notDirectory
      | some .directory =>
        if nameLimit < byteLength name then .error .nameTooLong
        else .ok (start ++ [String.ofList name]) := by
  have hstay : ¬ (name = [] ∨ name = ['.']) := by
    rintro (hnil | hdot)
    · exact h.ne_nil hnil
    · exact h.ne_dot hdot
  cases hentry : d.entry? start with
  | none => simp only [walk, hentry]
  | some e =>
    cases e with
    | file content executable => simp only [walk, hentry]
    | directory => simp only [walk, hentry, if_neg hstay, if_neg h.ne_dots]

def childPath (dir : List Char) (name : List Char) : Path := ⟨String.ofList (dir ++ '/' :: name)⟩

theorem locate_childPath (d : Disk) {dir name : List Char}
    (habsolute : (childPath dir name).isAbsolute) (hname : Path.IsName name) :
    d.locate (childPath dir name) =
      match pathFault? (childPath dir name) with
      | some fault => .error fault
      | none => (d.walk [] (splitOn '/' dir)).bind fun l => d.walk l [name] := by
  have hparts : splitOn '/' (childPath dir name).text.toList = splitOn '/' dir ++ [name] := by
    rw [childPath, String.toList_ofList, splitOn_append_cons, splitOn_of_notMem hname.noSlash]
  unfold locate
  cases pathFault? (childPath dir name) with
  | some fault => rfl
  | none => simp only [if_pos habsolute, hparts, walk_append]

end DocSnippets.Disk
