import DocSnippets.Proofs.Run.Numbering

/-!
# Schedules that come to rest

In a round every worker is called at least once. What is left to do shrinks with each round until
nothing is left, and one more round stops all workers. So a pool comes to rest in a bounded number
of rounds, whatever else happens in them.
-/

namespace DocSnippets

theorem sum_map_set {α : Type} {l : List α} {i : Nat} {a b : α} (f : α → Nat)
    (h : l[i]? = some a) :
    ((l.set i b).map f).sum + f a = (l.map f).sum + f b := by
  induction l generalizing i with
  | nil => cases h
  | cons c l ih =>
    cases i with
    | zero =>
      obtain rfl : c = a := Option.some.inj h
      simp only [List.set_cons_zero, List.map_cons, List.sum_cons]
      omega
    | succ i =>
      have hrest := ih h
      simp only [List.set_cons_succ, List.map_cons, List.sum_cons]
      omega

/-- The steps that a worker has to take before it is idle or stopped. -/
def Phase.weight : Phase → Nat
  | .taken _ => 4
  | .named _ _ => 3
  | .written _ _ _ => 2
  | .compiled _ _ _ => 1
  | .idle => 0
  | .stopped => 0

namespace Pool

/-- The steps that have to be taken for the jobs that are left. -/
def load (p : Pool) : Nat := 5 * p.queue.length + (p.workers.map Phase.weight).sum

/-- A worker that has a job, or could take one. -/
def Busy (p : Pool) (worker : Nat) : Prop :=
  ∃ phase, p.workers[worker]? = some phase ∧
    (0 < phase.weight ∨ phase = .idle ∧ p.queue ≠ [])

/-- A worker that has stopped, if there is one with this number. -/
def HasStopped (p : Pool) (worker : Nat) : Prop :=
  ∀ phase, p.workers[worker]? = some phase → phase = .stopped

variable {w : Workshop} {p q : Pool} {t : Option Turn}

theorem load_set {worker : Nat} {a b : Phase} (hw : p.workers[worker]? = some a)
    {queue : List Job} (hless : 5 * queue.length + b.weight < 5 * p.queue.length + a.weight)
    (slots : List (Option SnippetResult)) (shared : Shared) :
    load ⟨queue, p.workers.set worker b, slots, shared⟩ < p.load := by
  have hsum := sum_map_set (b := b) Phase.weight hw
  unfold load
  dsimp only
  omega

/-- A move that takes no load off a pool at most stops a worker. -/
theorem move_load (hm : Move w p t q) :
    q.load < p.load ∨ q = p ∨ ∃ worker, p.workers[worker]? = some .idle ∧ p.queue = [] ∧
      q = { p with workers := p.workers.set worker .stopped } := by
  cases hm with
  | stay => exact Or.inr (Or.inl rfl)
  | stop hw hq => exact Or.inr (Or.inr ⟨_, hw, hq, rfl⟩)
  | take hw hq =>
    refine Or.inl (load_set hw ?_ _ _)
    rw [hq, List.length_cons]
    simp only [Phase.weight]
    omega
  | name hw => exact Or.inl (load_set hw (by simp only [Phase.weight]; omega) _ _)
  | write hw => exact Or.inl (load_set hw (by simp only [Phase.weight]; omega) _ _)
  | submit hw => exact Or.inl (load_set hw (by simp only [Phase.weight]; omega) _ _)
  | store hw => exact Or.inl (load_set hw (by simp only [Phase.weight]; omega) _ _)

theorem load_stop {worker : Nat} (hw : p.workers[worker]? = some .idle) :
    load { p with workers := p.workers.set worker .stopped } = p.load := by
  have hsum := sum_map_set (b := .stopped) Phase.weight hw
  simp only [Phase.weight] at hsum
  unfold load
  dsimp only
  omega

theorem step_load (w : Workshop) (p : Pool) (e : Event) : (p.step w e).load ≤ p.load := by
  rcases move_load (p.step_move w e) with hless | hsame | ⟨worker, hw, -, hstop⟩
  · exact Nat.le_of_lt hless
  · exact Nat.le_of_eq (congrArg load hsame)
  · exact Nat.le_of_eq ((congrArg load hstop).trans (load_stop hw))

theorem run_load (w : Workshop) (p : Pool) (events : List Event) :
    (p.run w events).load ≤ p.load := by
  induction events generalizing p with
  | nil => exact Nat.le_refl _
  | cons e events ih => exact Nat.le_trans (ih (p.step w e)) (p.step_load w e)

theorem step_busy {worker : Nat} (h : Busy p worker) :
    (p.step w (.step worker)).load < p.load := by
  obtain ⟨phase, hw, hbusy⟩ := h
  simp only [step, hw]
  cases phase with
  | idle =>
    rcases hbusy with hpos | ⟨-, hq⟩
    · cases hpos
    · obtain ⟨job, queue, hq⟩ := List.exists_cons_of_ne_nil hq
      simp only [advance, hq]
      refine load_set hw ?_ _ _
      rw [hq, List.length_cons]
      simp only [Phase.weight]
      omega
  | taken job => exact load_set hw (by simp only [Phase.weight]; omega) _ _
  | named job file =>
    simp only [advance]
    exact load_set hw (by simp only [Phase.weight]; omega) _ _
  | written job file fault =>
    simp only [advance]
    exact load_set hw (by simp only [Phase.weight]; omega) _ _
  | compiled job file outcome => exact load_set hw (by simp only [Phase.weight]; omega) _ _
  | stopped =>
    rcases hbusy with hpos | ⟨hidle, -⟩
    · cases hpos
    · cases hidle

theorem Busy.keep {worker : Nat} (h : Busy p worker) (e : Event) :
    (p.step w e).load < p.load ∨ Busy (p.step w e) worker := by
  rcases move_load (p.step_move w e) with hless | hsame | ⟨other, hother, hqueue, hstop⟩
  · exact Or.inl hless
  · rw [hsame]
    exact Or.inr h
  · obtain ⟨phase, hw, hbusy⟩ := h
    have hpos : 0 < phase.weight := hbusy.resolve_right fun hidle => hidle.2 hqueue
    have hne : other ≠ worker := by
      rintro rfl
      obtain rfl : phase = .idle := Option.some.inj (hw.symm.trans hother)
      cases hpos
    rw [hstop]
    refine Or.inr ⟨phase, ?_, Or.inl hpos⟩
    rw [List.getElem?_set_ne hne]
    exact hw

theorem run_busy {worker : Nat} (h : Busy p worker) {events : List Event}
    (hmem : .step worker ∈ events) : (p.run w events).load < p.load := by
  induction events generalizing p with
  | nil => cases hmem
  | cons e events ih =>
    have hrest : (p.run w (e :: events)).load ≤ (p.step w e).load := run_load w (p.step w e) events
    rcases List.mem_cons.mp hmem with rfl | hmem
    · exact Nat.lt_of_le_of_lt hrest (step_busy h)
    · rcases h.keep (w := w) e with hless | hbusy
      · exact Nat.lt_of_le_of_lt hrest hless
      · exact Nat.lt_of_lt_of_le (ih hbusy hmem) (p.step_load w e)

theorem Placed.exists_busy {snippets : List Prepared} (h : Placed snippets p)
    (hcrew : 0 < p.workers.length) (hload : 0 < p.load) :
    ∃ worker < p.workers.length, Busy p worker := by
  by_cases hheld : 0 < (p.workers.map Phase.weight).sum
  · obtain ⟨weight, hweight, hpos⟩ := List.sum_pos_iff_exists_pos_nat.mp hheld
    obtain ⟨phase, hmem, rfl⟩ := List.mem_map.mp hweight
    obtain ⟨worker, hlt, hw⟩ := List.getElem_of_mem hmem
    exact ⟨worker, hlt, phase, List.getElem?_eq_some_iff.mpr ⟨hlt, hw⟩, Or.inl hpos⟩
  · -- No worker has a job, so one is in the queue, and the first worker can take it.
    have hqueue : p.queue ≠ [] := by
      intro hnil
      rw [load, hnil] at hload
      exact hheld (by simpa using hload)
    have hmem := List.getElem_mem hcrew
    have hzero : p.workers[0].weight = 0 := Nat.eq_zero_of_not_pos fun hpos =>
      hheld (List.sum_pos_iff_exists_pos_nat.mpr ⟨_, List.mem_map_of_mem hmem, hpos⟩)
    refine ⟨0, hcrew, p.workers[0], List.getElem?_eq_getElem hcrew, Or.inr ⟨?_, hqueue⟩⟩
    generalize p.workers[0] = phase at hmem hzero ⊢
    cases phase with
    | idle => rfl
    | stopped => exact absurd (h.stopped hmem) hqueue
    | taken job => cases hzero
    | named job file => cases hzero
    | written job file fault => cases hzero
    | compiled job file outcome => cases hzero

theorem step_hasStopped (hload : p.load = 0) (worker : Nat) :
    HasStopped (p.step w (.step worker)) worker := by
  have hbusy : ¬ Busy p worker := fun h => by
    have hless := step_busy (w := w) h
    omega
  have hqueue : p.queue = [] := by
    rw [load] at hload
    exact List.eq_nil_of_length_eq_zero (by omega)
  intro phase hphase
  cases hw : p.workers[worker]? with
  | none =>
    simp only [step, hw] at hphase
    cases hphase
  | some before =>
    have hzero : before.weight = 0 := Nat.eq_zero_of_not_pos fun hpos =>
      hbusy ⟨before, hw, Or.inl hpos⟩
    cases before with
    | idle =>
      simp only [step, hw, advance, hqueue] at hphase
      rcases getElem?_set_eq_some hphase with ⟨-, hstopped⟩ | ⟨hne, -⟩
      · exact hstopped
      · exact absurd rfl hne
    | stopped =>
      simp only [step, hw, advance] at hphase
      exact (Option.some.inj hphase).symm
    | taken job => cases hzero
    | named job file => cases hzero
    | written job file fault => cases hzero
    | compiled job file outcome => cases hzero

theorem HasStopped.keep {worker : Nat} (h : HasStopped p worker) (hload : p.load = 0)
    (e : Event) : HasStopped (p.step w e) worker := by
  rcases move_load (p.step_move w e) with hless | hsame | ⟨other, -, -, hstop⟩
  · omega
  · rw [hsame]
    exact h
  · rw [hstop]
    intro phase hphase
    rcases getElem?_set_eq_some hphase with ⟨-, hstopped⟩ | ⟨-, hphase⟩
    · exact hstopped
    · exact h phase hphase

theorem run_hasStopped (hload : p.load = 0) {worker : Nat} {events : List Event}
    (h : HasStopped p worker ∨ .step worker ∈ events) : HasStopped (p.run w events) worker := by
  induction events generalizing p with
  | nil => exact h.resolve_right List.not_mem_nil
  | cons e events ih =>
    have hnext : (p.step w e).load = 0 := Nat.le_zero.mp (hload ▸ p.step_load w e)
    refine ih hnext ?_
    rcases h with hstopped | hmem
    · exact Or.inl (hstopped.keep hload e)
    · rcases List.mem_cons.mp hmem with rfl | hmem
      · exact Or.inl (step_hasStopped hload worker)
      · exact Or.inr hmem

theorem run_append (w : Workshop) (p : Pool) (before after : List Event) :
    p.run w (before ++ after) = (p.run w before).run w after :=
  List.foldl_append

/-- In each round every worker is called. -/
def Rounds (workers : Nat) (rounds : List (List Event)) : Prop :=
  ∀ round ∈ rounds, ∀ worker < workers, .step worker ∈ round

/-- Each round takes load off while there is some. -/
theorem rounds_load (w : Workshop) (snippets : List Prepared) {workers : Nat}
    (hworkers : 0 < workers) (shared : Shared) {rounds : List (List Event)}
    (h : Rounds workers rounds) :
    ((start snippets workers shared).run w rounds.flatten).load ≤
      5 * snippets.length - rounds.length := by
  induction rounds using List.reverseRecOn with
  | nil => simp [run, load, start, Phase.weight]
  | append_singleton rounds round ih =>
    have hbefore := ih fun r hround => h r (List.mem_append_left _ hround)
    have hplaced := run_placed w snippets workers shared rounds.flatten
    have hcrew := run_workers_length w (start snippets workers shared) rounds.flatten
    rw [List.flatten_append, List.flatten_singleton, run_append, List.length_append,
      List.length_singleton]
    generalize (start snippets workers shared).run w rounds.flatten = p at hbefore hplaced hcrew
    have hlength : p.workers.length = workers := by simpa [start] using hcrew
    have hless := run_load w p round
    by_cases hload : 0 < p.load
    · obtain ⟨worker, hlt, hbusy⟩ := hplaced.exists_busy (hlength ▸ hworkers) hload
      have hround := h round (by simp) worker (hlength ▸ hlt)
      have htaken := run_busy (w := w) hbusy hround
      omega
    · omega

/-- A schedule that brings a pool to rest, whatever is compiled. -/
def Exhausts (events : List Event) (snippets workers : Nat) : Prop :=
  ∀ (w : Workshop) (l : List Prepared) (shared : Shared), l.length = snippets →
    ((start l workers shared).run w events).isDone = true

/-- A pool comes to rest in one round more than there are steps to take. -/
theorem rounds_exhaust {snippets workers : Nat} (hworkers : 0 < workers)
    {rounds : List (List Event)} (h : Rounds workers rounds)
    (hmany : 5 * snippets < rounds.length) : Exhausts rounds.flatten snippets workers := by
  rintro w l shared rfl
  have hcrew := run_workers_length w (start l workers shared) rounds.flatten
  rcases List.eq_nil_or_concat rounds with rfl | ⟨front, last, rfl⟩
  · cases hmany
  rw [List.concat_eq_append] at h hmany hcrew ⊢
  have hfront : Rounds workers front := fun round hround => h round (List.mem_append_left _ hround)
  have hload := rounds_load w l hworkers shared hfront
  rw [List.length_append, List.length_singleton] at hmany
  rw [List.flatten_append, List.flatten_singleton, run_append] at hcrew ⊢
  have hzero : ((start l workers shared).run w front.flatten).load = 0 := by omega
  refine List.all_eq_true.mpr fun phase hmem => ?_
  obtain ⟨worker, hlt, hw⟩ := List.getElem_of_mem hmem
  have hworker : worker < workers := by
    rw [hcrew] at hlt
    simpa [start] using hlt
  have hstopped := run_hasStopped (w := w) hzero (Or.inr (h last (by simp) worker hworker))
  rw [hstopped phase (List.getElem?_eq_some_iff.mpr ⟨hlt, hw⟩)]

theorem roundRobin_exhausts (snippets : Nat) {workers : Nat} (hworkers : 0 < workers) :
    Exhausts (roundRobin snippets workers) snippets workers := by
  refine rounds_exhaust hworkers (fun round hround worker hlt => ?_) ?_
  · rw [List.eq_of_mem_replicate hround]
    exact List.mem_map.mpr ⟨worker, List.mem_range.mpr hlt, rfl⟩
  · rw [List.length_replicate]
    exact Nat.lt_succ_self _

end Pool

end DocSnippets
