import DocSnippets.Proofs.Run.Rounds
import DocSnippets.Proofs.Run.Uniform

/-!
# Workers that go on alone

A worker that is not interrupted compiles the snippets in the queue one after the other. So a worker
that has taken the first snippet can be overtaken by another one with all the others, and gets the
last number for it.
-/

namespace DocSnippets

namespace Pool

variable {w : Workshop} {p : Pool} {worker : Nat}

theorem run_cons (w : Workshop) (p : Pool) (e : Event) (events : List Event) :
    p.run w (e :: events) = (p.step w e).run w events :=
  List.foldl_cons

/-- A worker that has a job is done with it in four steps. -/
theorem run_taken {job : Job} (hw : p.workers[worker]? = some (.taken job)) :
    p.run w (List.replicate 4 (.step worker)) =
      { queue := p.queue
        workers := p.workers.set worker .idle
        slots := p.slots.set job.slot (some (w.compile job.snippet p.shared).1)
        shared := (w.compile job.snippet p.shared).2 } := by
  have hlt : worker < p.workers.length := (List.getElem?_eq_some_iff.mp hw).1
  have hset : ∀ a : Phase, (p.workers.set worker a)[worker]? = some a := fun a =>
    List.getElem?_set_self hlt
  simp only [List.replicate_succ, List.replicate_zero, run_cons, step, hw, advance, hset,
    List.set_set, Workshop.compile]
  rfl

/-- A worker that takes a job is done with it in five steps. -/
theorem run_job {job : Job} {queue : List Job} (hw : p.workers[worker]? = some .idle)
    (hq : p.queue = job :: queue) :
    p.run w (List.replicate 5 (.step worker)) =
      { queue
        workers := p.workers
        slots := p.slots.set job.slot (some (w.compile job.snippet p.shared).1)
        shared := (w.compile job.snippet p.shared).2 } := by
  obtain ⟨hlt, hidle⟩ := List.getElem?_eq_some_iff.mp hw
  have htaken : p.step w (.step worker) =
      { p with queue, workers := p.workers.set worker (.taken job) } := by
    simp only [step, hw, advance, hq]
  have hsame : p.workers.set worker .idle = p.workers := by
    rw [← hidle]
    exact List.set_getElem_self hlt
  rw [List.replicate_succ, run_cons, htaken, run_taken (List.getElem?_set_self hlt), List.set_set,
    hsame]

/-- A worker that goes on alone compiles what is in the queue. -/
theorem run_alone (hw : p.workers[worker]? = some .idle) :
    ∃ slots, slots.length = p.slots.length ∧
      p.run w (List.replicate (5 * p.queue.length) (.step worker)) =
        { queue := []
          workers := p.workers
          slots
          shared := (w.compileAll (p.queue.map Job.snippet) p.shared).2 } := by
  generalize hq : p.queue = queue
  induction queue generalizing p with
  | nil =>
    refine ⟨p.slots, rfl, ?_⟩
    obtain ⟨queue, workers, slots, shared⟩ := p
    obtain rfl : queue = [] := hq
    rfl
  | cons job queue ih =>
    have hfirst := run_job (w := w) hw hq
    obtain ⟨slots, hlength, hrest⟩ := ih
      (p := ⟨queue, p.workers, p.slots.set job.slot (some (w.compile job.snippet p.shared).1),
        (w.compile job.snippet p.shared).2⟩) hw rfl
    refine ⟨slots, by simpa using hlength, ?_⟩
    rw [List.length_cons, Nat.mul_succ, Nat.add_comm, List.replicate_add, run_append, hfirst, hrest]
    simp only [List.map_cons, Workshop.compileAll]

/-- Where nothing is left to do, nothing is stored any more. -/
theorem run_slots_of_load (hload : p.load = 0) (events : List Event) :
    (p.run w events).slots = p.slots := by
  induction events generalizing p with
  | nil => rfl
  | cons e events ih =>
    have hnext : (p.step w e).load = 0 := Nat.le_zero.mp (hload ▸ p.step_load w e)
    rw [run_cons, ih hnext]
    rcases move_load (p.step_move w e) with hless | hsame | ⟨other, -, -, hstop⟩
    · omega
    · rw [hsame]
    · rw [hstop]

/-- The first of two workers takes a snippet and waits until the other one has compiled all the
others; then both go on in turn. -/
def lateFirst (snippets : Nat) : List Event :=
  .step 0 :: (List.replicate (5 * (snippets - 1)) (.step 1) ++
    (List.replicate 4 (.step 0) ++ roundRobin snippets 2))

/-- A pool comes to rest when its workers take their steps in turn, whatever they did before. -/
theorem exhausts_append_roundRobin (before : List Event) (snippets : Nat) {workers : Nat}
    (hworkers : 0 < workers) :
    Exhausts (before ++ roundRobin snippets workers) snippets workers := by
  have hround : ∀ worker < workers, .step worker ∈ (List.range workers).map Event.step :=
    fun worker hlt => List.mem_map.mpr ⟨worker, List.mem_range.mpr hlt, rfl⟩
  have hflatten : before ++ roundRobin snippets workers =
      ((before ++ (List.range workers).map Event.step) ::
        List.replicate (5 * snippets) ((List.range workers).map Event.step)).flatten := by
    rw [roundRobin, List.replicate_succ, List.flatten_cons, List.flatten_cons, List.append_assoc]
  rw [hflatten]
  refine rounds_exhaust hworkers (fun round hmem worker hlt => ?_) (by simp)
  rcases List.mem_cons.mp hmem with rfl | hmem
  · exact List.mem_append_right _ (hround worker hlt)
  · rw [List.eq_of_mem_replicate hmem]
    exact hround worker hlt

theorem lateFirst_exhausts (snippets : Nat) : Exhausts (lateFirst snippets) snippets 2 := by
  have happend : lateFirst snippets =
      (.step 0 :: (List.replicate (5 * (snippets - 1)) (.step 1) ++ List.replicate 4 (.step 0))) ++
        roundRobin snippets 2 := by
    simp [lateFirst]
  rw [happend]
  exact exhausts_append_roundRobin _ snippets (by decide)

/-- The first snippet gets the last number. -/
theorem lateFirst_results {root : List Char} {suffix : String} {home : Disk}
    {reply : String → Dialect → CompilerOptions → Reply}
    (hmade : w.directory.Made root suffix home) (hconfined : w.compiler.Confined reply)
    (s : Prepared) (rest : List Prepared) :
    ((start (s :: rest) 2 ⟨home, 1, []⟩).run w (lateFirst (rest.length + 1))).results.head? =
      some (w.resultAt reply (rest.length + 1) s) := by
  have htaken : (start (s :: rest) 2 ⟨home, 1, []⟩).step w (.step 0) =
      { queue := rest.mapIdx fun slot snippet => ⟨slot + 1, snippet⟩
        workers := [.taken ⟨0, s⟩, .idle]
        slots := none :: rest.map fun _ => none
        shared := ⟨home, 1, []⟩ } := by
    simp only [start, List.mapIdx_cons, step]
    rfl
  have hsnippets : (rest.mapIdx fun slot snippet => (⟨slot + 1, snippet⟩ : Job)).map Job.snippet =
      rest := by
    refine List.ext_getElem (by simp) fun i hi hi' => ?_
    rw [List.getElem_map, List.getElem_mapIdx]
  obtain ⟨-, htidy, hcount⟩ :=
    Workshop.compileAll_numbered hmade hconfined rest (Tidy.start hmade [])
  obtain ⟨hresult, -, -⟩ := Workshop.compile_confined hmade hconfined s htidy
  have hheld : ([.taken ⟨0, s⟩, .idle] : List Phase)[0]? = some (.taken ⟨0, s⟩) := rfl
  have hidle : ([.taken ⟨0, s⟩, .idle] : List Phase)[1]? = some .idle := rfl
  obtain ⟨slots, hslots, hothers⟩ := run_alone (w := w)
    (p := ⟨rest.mapIdx fun slot snippet => ⟨slot + 1, snippet⟩, [.taken ⟨0, s⟩, .idle],
      none :: rest.map fun _ => none, ⟨home, 1, []⟩⟩) hidle
  dsimp only at hslots hothers
  rw [hsnippets, List.length_mapIdx] at hothers
  rw [lateFirst, run_cons, htaken, run_append, Nat.add_sub_cancel, hothers, run_append,
    run_taken hheld, results, run_slots_of_load (by rfl)]
  rw [hcount, Nat.add_comm] at hresult
  obtain ⟨slot, slots, rfl⟩ : ∃ slot more, slots = slot :: more := by
    rw [← List.length_pos_iff_exists_cons, hslots]
    exact Nat.succ_pos _
  dsimp only
  rw [hresult]
  rfl

end Pool

end DocSnippets
