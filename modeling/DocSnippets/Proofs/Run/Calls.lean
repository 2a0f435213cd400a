import DocSnippets.Proofs.Path.Components
import DocSnippets.Proofs.Run.Delivery
import DocSnippets.Proofs.Run.Frame
import Mathlib.Data.List.Nodup
import Mathlib.Logic.Relation

/-!
# Calls for file names

The workers of a run ask one work directory for the files of their snippets. A call takes the next
number in one step, which is all that callers share, and returns the path with that number in a
later one; between the two, other calls are made and return in any order. The numbers have 64 bits.
Until they come round, no two callers get the same snippet file or the same project file, and none
gets a snippet file that is the project file of another one. The calls of a run, which counts without
a bound, are among these as long as there are fewer snippets than numbers.
-/

namespace DocSnippets

open Disk (childPath Keeps)

/-! ### The files of one directory -/

namespace Path

/-- Paths of different files: writing one of them changes nothing about what the other one finds. -/
structure Apart (p q : Path) : Prop where
  components : p.components ≠ q.components
  first : ∀ (d d' : Disk) (text : String), d.writeText p text = .ok d' → d'.find q = d.find q
  second : ∀ (d d' : Disk) (text : String), d.writeText q text = .ok d' → d'.find p = d.find p

/-- A path is that of a name in a directory, by its components and by where it leads in any tree. -/
structure Inside (directory p : Path) (name : String) : Prop where
  components : p.components = directory.components ++ [.name name]
  place : ∀ (d : Disk) (l : Location), d.locate p = .ok l →
    ∃ top, d.locate directory = .ok top ∧ l = top ++ [name]

variable {directory : Path} {a b : String}

theorem inside_join (habsolute : directory.isAbsolute = true) (ha : IsName a.toList) :
    Inside directory (directory.join ⟨a⟩) a where
  components := by
    obtain ⟨hrelative, hcomponents⟩ := components_name ha
    have hne : directory.text ≠ "" := fun hempty =>
      isAbsolute_ne_nil habsolute (String.toList_eq_nil_iff.mpr hempty)
    have hpart : component? a.toList = some (.name a) := by
      rw [component?, if_neg (not_or.mpr ⟨ha.ne_nil, ha.ne_dot⟩), if_neg ha.ne_dots,
        String.ofList_toList]
    rw [components_join hrelative hne, Text.splitOn_of_notMem ha.noSlash,
      List.filterMap_cons_some hpart, List.filterMap_nil]
  place _ _ h := Disk.locate_join_name habsolute ha h

/-- Writing a file keeps what its siblings find: the directory that holds them stays, and the place
that changes has another name. -/
theorem find_sibling (habsolute : directory.isAbsolute = true) (ha : IsName a.toList)
    (hb : IsName b.toList) (hne : a ≠ b) {d d' : Disk} {text : String}
    (h : d.writeText (directory.join ⟨a⟩) text = .ok d') :
    d'.find (directory.join ⟨b⟩) = d.find (directory.join ⟨b⟩) := by
  have hkeeps := Disk.keeps_of_writeText h
  obtain ⟨l, e, hlocate, -, -⟩ := Disk.exists_of_writeText h
  obtain ⟨top, -, hwalk, hdir, rfl⟩ := Disk.exists_top_of_locate_join habsolute ha hlocate
  have hchild := childPath_asDirectory_absolute habsolute b.toList
  have hsame : d'.locate (directory.join ⟨b⟩) = d.locate (directory.join ⟨b⟩) := by
    rw [join_name (isAbsolute_ne_nil habsolute) hb.noSlash, Disk.locate_childPath d hchild hb,
      Disk.locate_childPath d' hchild hb, hwalk, Disk.walk_keeps hkeeps hwalk]
    simp only [Except.bind, Disk.walk_name _ top hb, hdir, hkeeps top hdir]
  unfold Disk.find
  rw [hsame]
  cases hother : d.locate (directory.join ⟨b⟩) with
  | error fault => rfl
  | ok other =>
    obtain ⟨top', -, hwalk', -, rfl⟩ := Disk.exists_top_of_locate_join habsolute hb hother
    have hplace : top ++ [a] ≠ top' ++ [b] := fun heq =>
      hne (List.singleton_injective (List.append_inj_right' heq rfl))
    have hentry := Disk.writeText_entry? h
      (fun hwritten => hplace (Except.ok.inj (hlocate.symm.trans hwritten)))
    simp only [bind, Except.bind, hentry]

theorem apart_join (habsolute : directory.isAbsolute = true) (ha : IsName a.toList)
    (hb : IsName b.toList) (hne : a ≠ b) :
    Apart (directory.join ⟨a⟩) (directory.join ⟨b⟩) where
  components := by
    rw [(inside_join habsolute ha).components, (inside_join habsolute hb).components]
    intro heq
    exact hne (Component.name.inj (List.singleton_injective (List.append_cancel_left heq)))
  first _ _ _ h := find_sibling habsolute ha hb hne h
  second _ _ _ h := find_sibling habsolute hb ha hne.symm h

end Path

namespace WorkDirectory

/-- What callers can rely on about the snippet files that they were given and the project files
beside them. -/
structure FilesApart (w : WorkDirectory) (files : List Path) : Prop where
  snippets : files.Pairwise Path.Apart
  projects : (files.map WorkFile.projectFor).Pairwise Path.Apart
  across : ∀ p ∈ files, ∀ q ∈ files, Path.Apart p (WorkFile.projectFor q)
  inside : ∀ p ∈ files,
    (∃ name, Path.Inside w.path p name) ∧ ∃ name, Path.Inside w.path (WorkFile.projectFor p) name

/-! ### Calls -/

/-- A call that has its number. -/
structure Call where
  worker : Nat
  number : UInt64
  dialect : Dialect

/-- The path that a call returns. -/
def Call.file (w : WorkDirectory) (c : Call) : Path := w.snippetPath c.number.toNat c.dialect

/-- The calls on a work directory: the number that comes next, the calls that have a number and did
not return yet, and those that returned. -/
structure Calls where
  next : UInt64
  pending : List Call
  returned : List Call

namespace Calls

def start : Calls := ⟨1, [], []⟩

/-- How many calls were made. -/
def count (c : Calls) : Nat := c.pending.length + c.returned.length

/-- The paths that were returned. -/
def files (w : WorkDirectory) (c : Calls) : List Path := c.returned.map (Call.file w)

/-- What can happen next: a worker without a pending call takes the next number, and the one after
the last is zero; or any pending call returns. -/
inductive Step (c : Calls) : Calls → Prop where
  | number (worker : Nat) (dialect : Dialect) (hidle : ∀ call ∈ c.pending, call.worker ≠ worker) :
      Step c ⟨c.next + 1, ⟨worker, c.next, dialect⟩ :: c.pending, c.returned⟩
  | finish (before after : List Call) {call : Call} (h : c.pending = before ++ call :: after) :
      Step c ⟨c.next, before ++ after, c.returned ++ [call]⟩

/-- Calls that come about in some interleaving. -/
def Reached (c : Calls) : Prop := Relation.ReflTransGen Step start c

/-- The numbers of the calls are those that follow each other from one on, as many as there are
calls. This holds also when they come round. -/
structure Numbered (c : Calls) : Prop where
  next : c.next = UInt64.ofNat c.count + 1
  given : ((c.pending ++ c.returned).map (·.number)).Perm
    ((List.range c.count).map fun k => UInt64.ofNat k + 1)

variable {c c' : Calls}

theorem start_numbered : Numbered start := ⟨rfl, .refl _⟩

theorem Step.numbered (h : Step c c') (hc : Numbered c) : Numbered c' := by
  cases h with
  | number worker dialect hidle =>
    have hcount : count ⟨c.next + 1, ⟨worker, c.next, dialect⟩ :: c.pending, c.returned⟩ =
        c.count + 1 := by
      simp only [count, List.length_cons]
      omega
    constructor
    case next => rw [hcount, UInt64.ofNat_add, hc.next]; rfl
    case given =>
      have hgiven : (List.range (c.count + 1)).map (fun k => UInt64.ofNat k + 1) =
          (List.range c.count).map (fun k => UInt64.ofNat k + 1) ++ [c.next] := by
        rw [List.range_succ, List.map_append, List.map_singleton, hc.next]
      rw [hcount, hgiven]
      exact (hc.given.cons c.next).trans (List.perm_append_singleton _ _).symm
  | @finish before after call hpending =>
    have hcount : count ⟨c.next, before ++ after, c.returned ++ [call]⟩ = c.count := by
      simp only [count, hpending, List.length_append, List.length_cons, List.length_nil]
      omega
    have hperm : (before ++ after ++ (c.returned ++ [call])).Perm (c.pending ++ c.returned) := by
      rw [hpending, ← List.append_assoc, List.append_assoc before (call :: after), List.cons_append]
      exact (List.perm_append_singleton _ _).trans
        (List.append_assoc before after c.returned ▸ List.perm_middle.symm)
    constructor
    case next => rw [hcount]; exact hc.next
    case given => rw [hcount]; exact (hperm.map _).trans hc.given

theorem Reached.numbered (h : Reached c) : Numbered c := by
  induction h with
  | refl => exact start_numbered
  | tail _ hstep ih => exact hstep.numbered ih

/-- Fewer numbers than 64 bits hold are all different. -/
theorem Numbered.nodup (h : Numbered c) (hcount : c.count < 2 ^ 64) :
    (c.returned.map (·.number)).Nodup := by
  have hgiven : ((List.range c.count).map fun k => UInt64.ofNat k + 1).Nodup := by
    refine List.Nodup.map_on (fun i hi j hj heq => ?_) List.nodup_range
    have hi := List.mem_range.mp hi
    have hj := List.mem_range.mp hj
    have hnat := congrArg UInt64.toNat ((UInt64.add_left_inj 1).mp heq)
    rwa [UInt64.toNat_ofNat_of_lt' (by simpa using hi.trans hcount),
      UInt64.toNat_ofNat_of_lt' (by simpa using hj.trans hcount)] at hnat
  exact (h.given.nodup_iff.mpr hgiven).sublist ((List.sublist_append_right _ _).map _)

end Calls

/-! ### The files of a work directory that was made -/

section Files

variable {w : WorkDirectory}

theorem projectFor_file (habsolute : w.path.isAbsolute = true) (c : Call) :
    WorkFile.projectFor (c.file w) = w.path.join ⟨WorkFile.projectName c.number.toNat⟩ :=
  WorkFile.projectFor_join habsolute c.number.toNat c.dialect

theorem apart_file (habsolute : w.path.isAbsolute = true) {a b : Call} (hne : a.number ≠ b.number) :
    Path.Apart (a.file w) (b.file w) := by
  refine Path.apart_join habsolute (WorkFile.isName_snippetName _ _)
    (WorkFile.isName_snippetName _ _) fun heq => ?_
  exact hne (UInt64.toNat.inj (WorkFile.snippetName_injective heq))

theorem apart_project (habsolute : w.path.isAbsolute = true) {a b : Call}
    (hne : a.number ≠ b.number) :
    Path.Apart (WorkFile.projectFor (a.file w)) (WorkFile.projectFor (b.file w)) := by
  rw [projectFor_file habsolute, projectFor_file habsolute]
  refine Path.apart_join habsolute (WorkFile.isName_projectName _) (WorkFile.isName_projectName _)
    fun heq => ?_
  exact hne (UInt64.toNat.inj (WorkFile.projectName_injective heq))

theorem apart_file_project (habsolute : w.path.isAbsolute = true) (a b : Call) :
    Path.Apart (a.file w) (WorkFile.projectFor (b.file w)) := by
  rw [projectFor_file habsolute]
  exact Path.apart_join habsolute (WorkFile.isName_snippetName _ _) (WorkFile.isName_projectName _)
    (WorkFile.snippetName_ne_projectName _ _ _)

theorem filesApart_of_nodup (habsolute : w.path.isAbsolute = true) {calls : List Call}
    (h : (calls.map (·.number)).Nodup) : FilesApart w (calls.map (Call.file w)) := by
  have hnumbers : calls.Pairwise fun a b => a.number ≠ b.number := List.pairwise_map.mp h
  constructor
  case snippets => exact hnumbers.map (Call.file w) fun a b hne => apart_file habsolute hne
  case projects =>
    rw [List.pairwise_map, List.pairwise_map]
    exact hnumbers.imp fun hne => apart_project habsolute hne
  case across =>
    intro p hp q hq
    obtain ⟨a, -, rfl⟩ := List.mem_map.mp hp
    obtain ⟨b, -, rfl⟩ := List.mem_map.mp hq
    exact apart_file_project habsolute a b
  case inside =>
    intro p hp
    obtain ⟨a, -, rfl⟩ := List.mem_map.mp hp
    refine ⟨⟨_, Path.inside_join habsolute (WorkFile.isName_snippetName _ _)⟩, ?_⟩
    rw [projectFor_file habsolute]
    exact ⟨_, Path.inside_join habsolute (WorkFile.isName_projectName _)⟩

end Files

end WorkDirectory

/-! ### The calls of a run -/

namespace WorkDirectory.Calls

/-- Calls that have all returned, and after which a number comes next. -/
structure UpTo (c : Calls) (next : Nat) : Prop where
  reached : c.Reached
  pending : c.pending = []
  next : next = c.count + 1

theorem start_upTo : UpTo start 1 := ⟨.refl, rfl, rfl⟩

/-- While numbers last, a worker that takes its number and returns at once gets the next one. -/
theorem UpTo.call {c : Calls} {next : Nat} (hc : c.UpTo next) (hlast : next < 2 ^ 64)
    (w : WorkDirectory) (worker : Nat) (dialect : Dialect) :
    ∃ c' : Calls, c'.UpTo (next + 1) ∧ c'.files w = c.files w ++ [w.snippetPath next dialect] := by
  have hnumber : c.next.toNat = next := by
    rw [hc.reached.numbered.next, ← UInt64.ofNat_one, ← UInt64.ofNat_add, ← hc.next]
    exact UInt64.toNat_ofNat_of_lt' hlast
  refine ⟨⟨c.next + 1, [], c.returned ++ [⟨worker, c.next, dialect⟩]⟩, ⟨?_, rfl, ?_⟩, ?_⟩
  · refine (hc.reached.tail (.number worker dialect ?_)).tail (.finish [] [] ?_)
    · rw [hc.pending]
      exact nofun
    · rw [hc.pending]
      rfl
  · rw [hc.next, Calls.count, Calls.count, hc.pending, List.length_append]
    rfl
  · rw [Calls.files, List.map_append, List.map_singleton, Call.file, hnumber]
    rfl

end WorkDirectory.Calls

open WorkDirectory (Call Calls)

namespace Workshop

/-- The paths that snippets are given one after the other. -/
def given (w : Workshop) : List Prepared → Shared → List Path
  | [], _ => []
  | s :: rest, shared => (w.takeFile s shared).1 :: w.given rest (w.compile s shared).2

theorem compile_nextId (w : Workshop) (s : Prepared) (shared : Shared) :
    (w.compile s shared).2.nextId = shared.nextId + 1 := by
  simp only [compile_eq, submit_nextId, write_nextId]
  rfl

theorem exists_upTo (w : Workshop) (snippets : List Prepared) (shared : Shared) {c : Calls}
    (hc : c.UpTo shared.nextId) (hlast : shared.nextId + snippets.length ≤ 2 ^ 64) :
    ∃ c' : Calls, c'.UpTo (shared.nextId + snippets.length) ∧
      c'.files w.directory = c.files w.directory ++ w.given snippets shared := by
  induction snippets generalizing shared c with
  | nil => exact ⟨c, hc, (List.append_nil _).symm⟩
  | cons s rest ih =>
    rw [List.length_cons] at hlast ⊢
    have hnext := w.compile_nextId s shared
    obtain ⟨called, hcalled, hfile⟩ := hc.call (by omega) w.directory 0 s.block.dialect
    rw [← hnext] at hcalled
    obtain ⟨c', hupTo, hfiles⟩ := ih _ hcalled (by omega)
    refine ⟨c', ?_, ?_⟩
    · rwa [hnext, Nat.add_assoc, Nat.add_comm 1] at hupTo
    · rw [hfiles, hfile, given, List.append_assoc]
      rfl

end Workshop

namespace Pool

/-- The path that an event gives to a worker, if it does. -/
def given? (w : Workshop) (p : Pool) : Event → Option Path
  | .step worker =>
    match p.workers[worker]? with
    | some (.taken job) => some (w.takeFile job.snippet p.shared).1
    | _ => none
  | .retry _ => none

/-- The paths that workers are given under a schedule, in order. -/
def given (w : Workshop) (p : Pool) : List Event → List Path
  | [] => []
  | e :: events => (p.given? w e).toList ++ given w (p.step w e) events

variable {w : Workshop} {p : Pool}

/-- An event makes one call, with the number that comes next, or none. -/
theorem step_given (w : Workshop) (p : Pool) (e : Event) :
    (p.given? w e = none ∧ (p.step w e).shared.nextId = p.shared.nextId) ∨
      ∃ worker dialect, e = .step worker ∧
        p.given? w e = some (w.directory.snippetPath p.shared.nextId dialect) ∧
        (p.step w e).shared.nextId = p.shared.nextId + 1 := by
  cases e with
  | retry worker => exact .inl ⟨rfl, rfl⟩
  | step worker =>
    cases hw : p.workers[worker]? with
    | none => exact .inl ⟨by simp only [given?, hw], by simp only [step, hw]⟩
    | some phase =>
      simp only [given?, step, hw]
      cases phase with
      | idle =>
        refine .inl ⟨rfl, ?_⟩
        cases hqueue : p.queue <;> simp only [advance, hqueue]
      | taken job => exact .inr ⟨worker, job.snippet.block.dialect, rfl, rfl, rfl⟩
      | named job file => exact .inl ⟨rfl, Workshop.write_nextId job.snippet file p.shared⟩
      | written job file fault =>
        exact .inl ⟨rfl, Workshop.submit_nextId w job.snippet file fault p.shared⟩
      | compiled job file outcome => exact .inl ⟨rfl, rfl⟩
      | stopped => exact .inl ⟨rfl, rfl⟩

theorem exists_upTo {count : Nat} (hcount : count < 2 ^ 64) {c : Calls} (hp : Numbered w count p)
    (hc : c.UpTo p.shared.nextId) (events : List Event) :
    ∃ c' : Calls, c'.UpTo (p.run w events).shared.nextId ∧
      c'.files w.directory = c.files w.directory ++ p.given w events := by
  induction events generalizing p c with
  | nil => exact ⟨c, hc, (List.append_nil _).symm⟩
  | cons e events ih =>
    have hstep : Numbered w count (p.step w e) := step_numbered hp (p.step_move w e)
    rcases p.step_given w e with ⟨hnone, hnext⟩ | ⟨worker, dialect, -, hsome, hnext⟩
    · obtain ⟨c', hupTo, hfiles⟩ := ih hstep (hnext ▸ hc)
      refine ⟨c', hupTo, ?_⟩
      rw [hfiles, given, hnone]
      rfl
    · -- The number that the worker takes is one of the snippets', so it is not the last one.
      have hcounted := hstep.counted
      obtain ⟨called, hcalled, hfile⟩ := hc.call (by omega) w.directory worker dialect
      obtain ⟨c', hupTo, hfiles⟩ := ih hstep (hnext ▸ hcalled)
      refine ⟨c', hupTo, ?_⟩
      rw [hfiles, hfile, given, hsome, List.append_assoc]
      rfl

end Pool

namespace Run

/-- The paths that a run is given while it compiles snippets in a work directory, in order. -/
def given (r : Run) (schedule : List Event) (snippets : List Prepared) (directory : WorkDirectory)
    (d : Disk) : List Path :=
  let workshop : Workshop := ⟨r.compiler, r.options, directory⟩
  let shared : Shared := ⟨d, 1, []⟩
  let workers := r.workers snippets.length
  if workers = 1 then workshop.given snippets shared
  else (Pool.start snippets workers shared).given workshop schedule

/-- Under every schedule, the paths that a run is given are those that some calls return. -/
theorem exists_calls (r : Run) (schedule : List Event) {snippets : List Prepared}
    (hcount : snippets.length < 2 ^ 64) (directory : WorkDirectory) (d : Disk) :
    ∃ c : Calls, c.Reached ∧ c.count ≤ snippets.length ∧
      c.files directory = r.given schedule snippets directory d := by
  unfold given
  dsimp only
  split
  · obtain ⟨c, hupTo, hfiles⟩ := Workshop.exists_upTo ⟨r.compiler, r.options, directory⟩ snippets
      ⟨d, 1, []⟩ Calls.start_upTo (by dsimp only; omega)
    have hnext := hupTo.next
    dsimp only at hnext
    exact ⟨c, hupTo.reached, by omega, hfiles⟩
  · have hstart := Pool.start_numbered ⟨r.compiler, r.options, directory⟩ snippets
      (r.workers snippets.length) d []
    obtain ⟨c, hupTo, hfiles⟩ := Pool.exists_upTo hcount hstart Calls.start_upTo schedule
    have hrun := Pool.run_induction (P := fun p _ => Pool.Numbered _ snippets.length p)
      (fun _ _ _ _ h hm => Pool.step_numbered h hm) [] hstart schedule
    have hcounted := hrun.counted
    have hnext := hupTo.next
    exact ⟨c, hupTo.reached, by omega, hfiles⟩

end Run

namespace WorkDirectory

variable {d home : Disk} {parent : Path} {suffix : String} {w : WorkDirectory}

/-- Whatever calls workers make on a work directory, and in whatever interleaving, fewer than
2 ^ 64 of them return paths of different files with different project files, right in the work
directory. So do the calls of every run that compiles fewer than 2 ^ 64 snippets there, with any
number of workers and under any schedule. -/
theorem calls_filesApart (h : create d parent suffix = (.ok w, home)) :
    (∀ c : Calls, c.Reached → c.count < 2 ^ 64 → FilesApart w (c.files w)) ∧
    ∀ (r : Run) (schedule : List Event) (snippets : List Prepared), snippets.length < 2 ^ 64 →
      FilesApart w (r.given schedule snippets w home) := by
  have habsolute := isAbsolute_of_createWith createIn_absolute h
  have hcalls : ∀ c : Calls, c.Reached → c.count < 2 ^ 64 → FilesApart w (c.files w) :=
    fun c hc hcount => filesApart_of_nodup habsolute (hc.numbered.nodup hcount)
  refine ⟨hcalls, fun r schedule snippets hcount => ?_⟩
  obtain ⟨c, hreached, hle, hfiles⟩ := r.exists_calls schedule hcount w home
  rw [← hfiles]
  exact hcalls c hreached (by omega)

def crossedTree : Disk := ⟨[(["p"], .directory)], []⟩

def crossedDirectory : WorkDirectory :=
  ⟨⟨"/p/compiled-docs-Ab12cD"⟩, ["p", "compiled-docs-Ab12cD"]⟩

/-- Two calls of which the later one returned first. -/
def crossedCalls : Calls := ⟨3, [], [⟨2, 2, .tsx⟩, ⟨1, 1, .ts⟩]⟩

theorem crossedCalls_reached : crossedCalls.Reached := by
  have hfirst : Calls.Step .start ⟨2, [⟨1, 1, .ts⟩], []⟩ := .number 1 .ts nofun
  have hsecond : Calls.Step ⟨2, [⟨1, 1, .ts⟩], []⟩ ⟨3, [⟨2, 2, .tsx⟩, ⟨1, 1, .ts⟩], []⟩ :=
    .number 2 .tsx (by simp)
  have hlater : Calls.Step ⟨3, [⟨2, 2, .tsx⟩, ⟨1, 1, .ts⟩], []⟩
      ⟨3, [⟨1, 1, .ts⟩], [⟨2, 2, .tsx⟩]⟩ := .finish [] _ rfl
  have hearlier : Calls.Step ⟨3, [⟨1, 1, .ts⟩], [⟨2, 2, .tsx⟩]⟩ crossedCalls :=
    .finish [] [] rfl
  exact (((Relation.ReflTransGen.single hfirst).tail hsecond).tail hlater).tail hearlier

theorem calls_filesApart_crossed :
    create crossedTree ⟨"/p"⟩ "Ab12cD" =
        (.ok crossedDirectory, crossedTree.put crossedDirectory.location .directory) ∧
      crossedCalls.Reached ∧ crossedCalls.count < 2 ^ 64 ∧
      crossedCalls.files crossedDirectory =
        [⟨"/p/compiled-docs-Ab12cD/block-2.tsx"⟩, ⟨"/p/compiled-docs-Ab12cD/block-1.ts"⟩] ∧
      FilesApart crossedDirectory (crossedCalls.files crossedDirectory) ∧
      Pool.twoSnippets.length < 2 ^ 64 ∧
      Run.demolition.given (Pool.roundRobin 2 2) Pool.twoSnippets crossedDirectory
          (crossedTree.put crossedDirectory.location .directory) =
        [⟨"/p/compiled-docs-Ab12cD/block-1.ts"⟩, ⟨"/p/compiled-docs-Ab12cD/block-2.tsx"⟩] ∧
      FilesApart crossedDirectory
        (Run.demolition.given (Pool.roundRobin 2 2) Pool.twoSnippets crossedDirectory
          (crossedTree.put crossedDirectory.location .directory)) := by
  have hcreate : create crossedTree ⟨"/p"⟩ "Ab12cD" =
      (.ok crossedDirectory, crossedTree.put crossedDirectory.location .directory) := rfl
  have hapart := calls_filesApart hcreate
  exact ⟨hcreate, crossedCalls_reached, by decide, rfl,
    hapart.1 _ crossedCalls_reached (by decide), by decide, rfl,
    hapart.2 _ _ _ (by decide)⟩

end WorkDirectory

end DocSnippets
