import DocSnippets.Run.Compilation

/-!
# Worker pools

Several workers take snippets from one queue. Each snippet has a slot for its result, so that
results come out in the order of the documentation, whichever worker takes which snippet. A worker
that finds the queue empty stops.
-/

namespace DocSnippets

structure Job where
  slot : Nat
  snippet : Prepared

inductive Phase where
  | idle
  | taken (job : Job)
  | named (job : Job) (file : Path)
  | written (job : Job) (file : Path) (fault : Option Disk.Fault)
  | compiled (job : Job) (file : Path) (outcome : Outcome)
  | stopped

/-- One step of a worker, or an attempt to take a job that has to be made again. -/
inductive Event where
  | step (worker : Nat)
  | retry (worker : Nat)
deriving DecidableEq, Repr

structure Pool where
  queue : List Job
  workers : List Phase
  slots : List (Option SnippetResult)
  shared : Shared

namespace Pool

/-- The pool before any step. -/
def start (snippets : List Prepared) (workers : Nat) (shared : Shared) : Pool where
  queue := snippets.mapIdx fun slot snippet => ⟨slot, snippet⟩
  workers := List.replicate workers .idle
  slots := snippets.map fun _ => none
  shared := shared

/-- The pool after a step of the worker with a number, whose phase is given. -/
def advance (w : Workshop) (p : Pool) (worker : Nat) : Phase → Pool
  | .idle =>
    match p.queue with
    | [] => { p with workers := p.workers.set worker .stopped }
    | job :: queue => { p with queue, workers := p.workers.set worker (.taken job) }
  | .taken job =>
    let (file, shared) := w.takeFile job.snippet p.shared
    { p with shared, workers := p.workers.set worker (.named job file) }
  | .named job file =>
    let (fault, shared) := Workshop.write job.snippet file p.shared
    { p with shared, workers := p.workers.set worker (.written job file fault) }
  | .written job file fault =>
    let (outcome, shared) := w.submit job.snippet file fault p.shared
    { p with shared, workers := p.workers.set worker (.compiled job file outcome) }
  | .compiled job file outcome =>
    { p with
      slots := p.slots.set job.slot (some (Workshop.result job.snippet file outcome))
      workers := p.workers.set worker .idle }
  | .stopped => p

def step (w : Workshop) (p : Pool) : Event → Pool
  | .step worker =>
    match p.workers[worker]? with
    | some phase => p.advance w worker phase
    | none => p
  | .retry _ => p

def run (w : Workshop) (p : Pool) (events : List Event) : Pool := events.foldl (step w) p

def isDone (p : Pool) : Bool :=
  p.workers.all fun phase => match phase with | .stopped => true | _ => false

def results (p : Pool) : List SnippetResult := p.slots.filterMap id

/-- The workers take their steps in turn. A snippet takes five steps, and a worker one more to stop.
-/
def roundRobin (snippets workers : Nat) : List Event :=
  (List.replicate (5 * snippets + 1) ((List.range workers).map Event.step)).flatten

end Pool

end DocSnippets
