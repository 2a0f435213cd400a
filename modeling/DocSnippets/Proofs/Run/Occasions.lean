import DocSnippets.Proofs.Run.Placing
import DocSnippets.Proofs.Run.Rounds
import DocSnippets.Run

/-!
# Occasions of a run

The same run can be made with other numbers of workers, with other orders of their steps, in work
directories of other names, and in other trees. What is ordinary about an occasion: the name of the
work directory is new and the workers go on until they stop.
-/

namespace DocSnippets

/-- What can be different each time that the same is run: the greatest number of workers, the order
of their steps, the random part of the name of the work directory, and the tree. -/
structure Occasion where
  jobs : Nat
  schedule : Nat → Nat → List Event
  random : String
  disk : Disk

namespace Run

variable (r : Run) (files : List Path)

def on (o : Occasion) : RunReport :=
  { r with jobs := o.jobs }.executeWith o.schedule o.random o.disk files

def snippetCount (d : Disk) : Nat :=
  match r.prepare d files with
  | .ok snippets => snippets.length
  | .error _ => 0

def crew (o : Occasion) : Nat := { r with jobs := o.jobs }.workers (r.snippetCount files o.disk)

/-- An ordinary occasion. The random part of the name of the work directory is six letters and
digits, and nothing has that name. The work root does not look like a work directory. The workers go
on until they stop. -/
structure Ordinary (o : Occasion) : Prop where
  random : RandomPart o.random
  unused : WorkDirectory.Unused (o.disk.makeDirectories r.parent).2 r.parent o.random
  root : Unmarked (o.disk.absolute r.parent).text.toList
  ends : 1 < r.crew files o → Pool.Exhausts
    (o.schedule (r.snippetCount files o.disk) (r.crew files o))
    (r.snippetCount files o.disk) (r.crew files o)

variable {r files}

theorem snippetCount_eq {d : Disk} {snippets : List Prepared}
    (hprepare : r.prepare d files = .ok snippets) : r.snippetCount files d = snippets.length := by
  rw [snippetCount, hprepare]

theorem exists_prepare {d : Disk} (h : 0 < r.snippetCount files d) :
    ∃ snippets, r.prepare d files = .ok snippets := by
  unfold snippetCount at h
  cases hprepare : r.prepare d files with
  | error e =>
    rw [hprepare] at h
    cases h
  | ok snippets => exact ⟨snippets, rfl⟩

/-- Without a second job there is one worker. -/
theorem not_one_lt_crew {o : Occasion} (hjobs : o.jobs ≤ 1) : ¬ 1 < r.crew files o := by
  unfold crew workers
  dsimp only
  omega

/-- What a run results in, up to the results of its snippets. -/
theorem executeWith_results (r : Run) (schedule : Nat → Nat → List Event) (suffix : String)
    (d : Disk) (files : List Path) :
    (r.executeWith schedule suffix d files).results =
      match r.prepare d files with
      | .error e => .error e
      | .ok snippets =>
        if snippets = [] then .ok []
        else
          match (d.makeDirectories r.parent).1 with
          | some fault => .error (.workDirectory r.parent fault)
          | none =>
            match WorkDirectory.createIn (d.makeDirectories r.parent).2 r.parent suffix with
            | .error fault => .error (.workDirectory r.parent fault)
            | .ok (directory, home) => .ok (r.compile
                (schedule snippets.length (r.workers snippets.length))
                snippets directory home).1 := by
  unfold executeWith
  cases r.prepare d files with
  | error e => rfl
  | ok snippets =>
    cases snippets with
    | nil => rfl
    | cons s rest =>
      dsimp only
      rw [if_neg (List.cons_ne_nil s rest)]
      unfold WorkDirectory.create WorkDirectory.createWith
      obtain ⟨fault, made⟩ := d.makeDirectories r.parent
      cases fault with
      | some fault => rfl
      | none =>
        dsimp only
        cases WorkDirectory.createIn made r.parent suffix with
        | error fault => rfl
        | ok created => rfl

theorem on_results (o : Occasion) :
    (r.on files o).results =
      match r.prepare o.disk files with
      | .error e => .error e
      | .ok snippets =>
        if snippets = [] then .ok []
        else
          match (o.disk.makeDirectories r.parent).1 with
          | some fault => .error (.workDirectory r.parent fault)
          | none =>
            match WorkDirectory.createIn (o.disk.makeDirectories r.parent).2 r.parent o.random with
            | .error fault => .error (.workDirectory r.parent fault)
            | .ok (directory, home) => .ok ({ r with jobs := o.jobs }.compile
                (o.schedule snippets.length ({ r with jobs := o.jobs }.workers snippets.length))
                snippets directory home).1 :=
  executeWith_results { r with jobs := o.jobs } o.schedule o.random o.disk files

end Run

end DocSnippets
