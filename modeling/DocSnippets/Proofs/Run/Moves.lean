import DocSnippets.Run.Pool

/-!
# What a pool can do

One event changes at most one worker. `Move` lists the changes with all that they depend on, and
every invariant of a pool is a case analysis over it. The turns of a schedule record which snippets
came to be compiled, in which order and with which answer.
-/

namespace DocSnippets

/-- The turn of a snippet: it is submitted from its file in the tree as it is then, or fails because
its file could not be written. -/
structure Turn where
  job : Job
  file : Path
  fault : Option Disk.Fault
  disk : Disk

namespace Turn

def request (w : Workshop) (t : Turn) : Request := w.request t.job.snippet t.file

def answer (w : Workshop) (t : Turn) : Answer := (w.compiler (t.request w) t.disk).1

def outcome (w : Workshop) (t : Turn) : Outcome :=
  match t.fault with
  | some fault => .generic ("Failed to write " ++ t.file.text ++ ": " ++ fault.message)
  | none => (t.answer w).outcome

def result (w : Workshop) (t : Turn) : SnippetResult :=
  Workshop.result t.job.snippet t.file (t.outcome w)

def submission? (w : Workshop) (t : Turn) : Option Submission :=
  match t.fault with
  | some _ => none
  | none => some ⟨t.request w, t.disk⟩

end Turn

theorem Workshop.takeFile_fst (w : Workshop) (s : Prepared) (shared : Shared) :
    (w.takeFile s shared).1 = w.directory.snippetPath shared.nextId s.block.dialect := rfl

theorem Workshop.compile_eq (w : Workshop) (s : Prepared) (shared : Shared) :
    w.compile s shared =
      let named := w.takeFile s shared
      let written := Workshop.write s named.1 named.2
      let submitted := w.submit s named.1 written.1 written.2
      (Workshop.result s named.1 submitted.1, submitted.2) := by
  simp only [Workshop.compile]

theorem Workshop.submit_outcome (w : Workshop) (job : Job) (file : Path)
    (fault : Option Disk.Fault) (shared : Shared) :
    (w.submit job.snippet file fault shared).1 =
      Turn.outcome w ⟨job, file, fault, shared.disk⟩ := by
  unfold Workshop.submit Turn.outcome
  cases fault <;> rfl

theorem Workshop.submit_submitted (w : Workshop) (job : Job) (file : Path)
    (fault : Option Disk.Fault) (shared : Shared) :
    (w.submit job.snippet file fault shared).2.submitted =
      (Turn.submission? w ⟨job, file, fault, shared.disk⟩).toList ++ shared.submitted := by
  unfold Workshop.submit Turn.submission?
  cases fault <;> rfl

theorem Workshop.write_submitted (s : Prepared) (file : Path) (shared : Shared) :
    (write s file shared).2.submitted = shared.submitted := by
  unfold write
  split <;> rfl

theorem Workshop.write_nextId (s : Prepared) (file : Path) (shared : Shared) :
    (write s file shared).2.nextId = shared.nextId := by
  unfold write
  split <;> rfl

theorem Workshop.submit_nextId (w : Workshop) (s : Prepared) (file : Path)
    (fault : Option Disk.Fault) (shared : Shared) :
    (w.submit s file fault shared).2.nextId = shared.nextId := by
  unfold submit
  split <;> rfl

namespace Pool

/-- The turn that an event gives to a snippet, if any. -/
def turn? (p : Pool) : Event → Option Turn
  | .step worker =>
    match p.workers[worker]? with
    | some (.written job file fault) => some ⟨job, file, fault, p.shared.disk⟩
    | _ => none
  | .retry _ => none

def turns (w : Workshop) (p : Pool) : List Event → List Turn
  | [] => []
  | e :: events => (p.turn? e).toList ++ turns w (p.step w e) events

/-- What one event can do to a pool, with the turn it gives. -/
inductive Move (w : Workshop) (p : Pool) : Option Turn → Pool → Prop where
  | stay : Move w p none p
  | stop {worker} (hw : p.workers[worker]? = some .idle) (hq : p.queue = []) :
      Move w p none { p with workers := p.workers.set worker .stopped }
  | take {worker job queue} (hw : p.workers[worker]? = some .idle)
      (hq : p.queue = job :: queue) :
      Move w p none { p with queue, workers := p.workers.set worker (.taken job) }
  | name {worker job} (hw : p.workers[worker]? = some (.taken job)) :
      Move w p none
        { p with
          shared := (w.takeFile job.snippet p.shared).2
          workers := p.workers.set worker (.named job (w.takeFile job.snippet p.shared).1) }
  | write {worker job file} (hw : p.workers[worker]? = some (.named job file)) :
      Move w p none
        { p with
          shared := (Workshop.write job.snippet file p.shared).2
          workers := p.workers.set worker
            (.written job file (Workshop.write job.snippet file p.shared).1) }
  | submit {worker job file fault}
      (hw : p.workers[worker]? = some (.written job file fault)) :
      Move w p (some ⟨job, file, fault, p.shared.disk⟩)
        { p with
          shared := (w.submit job.snippet file fault p.shared).2
          workers := p.workers.set worker
            (.compiled job file (Turn.outcome w ⟨job, file, fault, p.shared.disk⟩)) }
  | store {worker job file outcome}
      (hw : p.workers[worker]? = some (.compiled job file outcome)) :
      Move w p none
        { p with
          slots := p.slots.set job.slot (some (Workshop.result job.snippet file outcome))
          workers := p.workers.set worker .idle }

theorem step_move (w : Workshop) (p : Pool) (e : Event) : Move w p (p.turn? e) (p.step w e) := by
  cases e with
  | retry worker => exact .stay
  | step worker =>
    cases hw : p.workers[worker]? with
    | none => simp only [turn?, step, hw, Move.stay]
    | some phase =>
      cases phase with
      | idle =>
        simp only [turn?, step, hw, advance]
        split
        · next hq => exact .stop hw hq
        · next job queue hq => exact .take hw hq
      | taken job => simpa only [turn?, step, hw, advance] using Move.name hw
      | named job file => simpa only [turn?, step, hw, advance] using Move.write hw
      | written job file fault =>
        simp only [turn?, step, hw, advance, Workshop.submit_outcome]
        exact .submit hw
      | compiled job file outcome => simpa only [turn?, step, hw, advance] using Move.store hw
      | stopped => simp only [turn?, step, hw, advance, Move.stay]

/-- What every move preserves holds at the end of a schedule, together with the turns so far. -/
theorem run_induction {w : Workshop} {P : Pool → List Turn → Prop}
    (hstep : ∀ p log t q, P p log → Move w p t q → P q (log ++ t.toList))
    {p : Pool} (log : List Turn) (h : P p log) (events : List Event) :
    P (p.run w events) (log ++ p.turns w events) := by
  induction events generalizing p log with
  | nil => simpa [run, turns] using h
  | cons e events ih =>
    have hnext := ih _ (hstep p log _ _ h (p.step_move w e))
    simpa [run, turns] using hnext

end Pool

end DocSnippets
