import DocSnippets.Proofs.Run.Placement
import Mathlib.Data.List.Nodup

/-!
# Delivery

When all workers of a pool have stopped, each snippet has had exactly one turn, and the result in
its place is the one of that turn. This holds for every schedule and every compiler, whatever it does to
the tree and however its calls end.
-/

namespace DocSnippets

def Phase.hasOutcome (slot : Nat) : Phase → Bool
  | .compiled job _ _ => job.slot = slot
  | _ => false

namespace Pool

/-- The turns so far account for every outcome that a worker holds and for every result. -/
structure Recorded (w : Workshop) (snippets : List Prepared) (before : List Submission) (p : Pool)
    (log : List Turn) : Prop where
  submitted : p.shared.submitted = (log.filterMap (Turn.submission? w)).reverse ++ before
  jobs : ∀ t ∈ log, snippets[t.job.slot]? = some t.job.snippet
  once : ∀ slot, log.countP (·.job.slot = slot) =
    p.workers.countP (Phase.hasOutcome slot) + (filled p.slots slot).toNat
  compiled : ∀ job file outcome, .compiled job file outcome ∈ p.workers →
    ∃ t ∈ log, t.job = job ∧ t.file = file ∧ t.outcome w = outcome
  stored : ∀ slot r, p.slots[slot]? = some (some r) → ∃ t ∈ log, t.job.slot = slot ∧ t.result w = r

theorem start_recorded (w : Workshop) (snippets : List Prepared) (workers : Nat)
    (shared : Shared) :
    Recorded w snippets shared.submitted (start snippets workers shared) [] where
  submitted := rfl
  jobs t ht := by cases ht
  once slot := by
    rw [start_filled]
    simp [start, List.countP_replicate, Phase.hasOutcome]
  compiled job file outcome h := by
    have := List.eq_of_mem_replicate h
    cases this
  stored slot r h := by
    have hempty := start_filled snippets workers shared slot
    rw [filled, h] at hempty
    cases hempty

namespace Recorded

variable {w : Workshop} {snippets : List Prepared} {before : List Submission} {p : Pool}
  {log : List Turn} {worker : Nat} {a b : Phase}

theorem keep (h : Recorded w snippets before p log) (hw : p.workers[worker]? = some a)
    (ha : ∀ slot, a.hasOutcome slot = false) (hb : ∀ slot, b.hasOutcome slot = false)
    {shared : Shared} (hs : shared.submitted = p.shared.submitted) (queue : List Job) :
    Recorded w snippets before
      { p with queue, shared, workers := p.workers.set worker b } log where
  submitted := hs.trans h.submitted
  jobs := h.jobs
  once slot := by
    have hcount := countP_set_add (P := Phase.hasOutcome slot) (b := b) hw
    rw [ha, hb, Nat.add_right_cancel_iff] at hcount
    rw [h.once slot, hcount]
  compiled job file outcome hmem := by
    rcases List.mem_or_eq_of_mem_set hmem with hmem | rfl
    · exact h.compiled job file outcome hmem
    · simpa [Phase.hasOutcome] using hb job.slot
  stored := h.stored

end Recorded

theorem step_recorded {w : Workshop} {snippets : List Prepared} {before : List Submission}
    {p q : Pool} {log : List Turn} {t : Option Turn} (hp : Placed snippets p)
    (h : Recorded w snippets before p log) (hm : Move w p t q) :
    Recorded w snippets before q (log ++ t.toList) := by
  cases hm with
  | stay => simpa using h
  | stop hw =>
    rw [Option.toList_none, List.append_nil]
    exact h.keep hw (fun _ => rfl) (fun _ => by rfl) (by rfl) _
  | take hw =>
    rw [Option.toList_none, List.append_nil]
    exact h.keep hw (fun _ => rfl) (fun _ => by rfl) (by rfl) _
  | name hw =>
    rw [Option.toList_none, List.append_nil]
    exact h.keep hw (fun _ => rfl) (fun _ => by rfl) (by rfl) _
  | write hw =>
    rw [Option.toList_none, List.append_nil]
    exact h.keep hw (fun _ => rfl) (fun _ => by rfl) (Workshop.write_submitted _ _ _) _
  | @submit worker job file fault hw =>
    refine ⟨?_, fun t ht => ?_, fun slot => ?_, fun j f o hmem => ?_, fun slot r hr => ?_⟩
    · rw [Workshop.submit_submitted, h.submitted]
      cases fault <;> simp [Turn.submission?]
    · rcases List.mem_append.mp ht with ht | ht
      · exact h.jobs t ht
      · obtain rfl := List.mem_singleton.mp ht
        exact hp.held _ (List.mem_of_getElem? hw) job rfl
    · have hcount := countP_set_add (P := Phase.hasOutcome slot)
        (b := .compiled job file (Turn.outcome w ⟨job, file, fault, p.shared.disk⟩)) hw
      simp only [Phase.hasOutcome, Bool.toNat_false, Nat.add_zero] at hcount
      rw [List.countP_append, h.once slot, hcount]
      cases hslot : decide (job.slot = slot) <;> simp [hslot]
      omega
    · rcases List.mem_or_eq_of_mem_set hmem with hmem | heq
      · obtain ⟨t, ht, hrest⟩ := h.compiled j f o hmem
        exact ⟨t, List.mem_append_left _ ht, hrest⟩
      · cases heq
        exact ⟨_, List.mem_append_right _ (List.mem_singleton_self _), rfl, rfl, rfl⟩
    · obtain ⟨t, ht, hrest⟩ := h.stored slot r hr
      exact ⟨t, List.mem_append_left _ ht, hrest⟩
  | @store worker job file outcome hw =>
    obtain ⟨hlt, -, hempty⟩ := hp.held_once hw rfl
    simp only [Option.toList_none, List.append_nil]
    refine ⟨h.submitted, h.jobs, fun slot => ?_, fun j f o hmem => ?_, fun slot r hr => ?_⟩
    · have hcount := countP_set_add (P := Phase.hasOutcome slot) (b := .idle) hw
      rw [filled_set _ (hp.length ▸ hlt), h.once slot]
      simp only [Phase.hasOutcome, Bool.toNat_false, Nat.add_zero] at hcount
      by_cases hslot : slot = job.slot
      · subst hslot
        simp [hempty] at hcount ⊢
        omega
      · simp [hslot, Ne.symm hslot] at hcount ⊢
        omega
    · rcases List.mem_or_eq_of_mem_set hmem with hmem | heq
      · exact h.compiled j f o hmem
      · cases heq
    · by_cases hslot : slot = job.slot
      · subst hslot
        rw [List.getElem?_set_self (hp.length ▸ hlt), Option.some.injEq, Option.some.injEq] at hr
        obtain ⟨t, ht, rfl, rfl, rfl⟩ := h.compiled job file outcome (List.mem_of_getElem? hw)
        exact ⟨t, ht, rfl, hr⟩
      · rw [List.getElem?_set_ne (Ne.symm hslot)] at hr
        exact h.stored slot r hr

theorem run_recorded (w : Workshop) (snippets : List Prepared) (workers : Nat) (shared : Shared)
    (events : List Event) :
    Recorded w snippets shared.submitted ((start snippets workers shared).run w events)
      ((start snippets workers shared).turns w events) := by
  have h := run_induction
    (P := fun p log => Placed snippets p ∧ Recorded w snippets shared.submitted p log)
    (fun _ _ _ _ h hm => ⟨step_placed h.1 hm, step_recorded h.1 h.2 hm⟩) []
    ⟨start_placed snippets workers shared, start_recorded w snippets workers shared⟩ events
  simpa using h.2

namespace Recorded

variable {w : Workshop} {snippets : List Prepared} {before : List Submission} {p : Pool}
  {log : List Turn}

theorem count_turns (h : Recorded w snippets before p log) (hp : Placed snippets p)
    (hdone : p.isDone = true) (hslots : p.slots = p.results.map some) (slot : Nat) :
    (log.map (·.job.slot)).count slot = (List.range snippets.length).count slot := by
  have hnone : p.workers.countP (Phase.hasOutcome slot) = 0 := by
    rw [List.countP_eq_zero]
    intro phase hmem
    simp [done_stopped hdone phase hmem, Phase.hasOutcome]
  have honce := h.once slot
  have hlen := hp.length
  rw [hnone, filled, hslots] at honce
  rw [hslots, List.length_map] at hlen
  have hcount : (log.map (·.job.slot)).count slot = log.countP (·.job.slot = slot) := by
    rw [List.count_eq_countP, List.countP_map]
    rfl
  rw [hcount, honce, List.count_range, ← hlen]
  by_cases hlt : slot < p.results.length <;> simp [hlt]

/-- With one turn for each snippet, a result can only come from the turn of its own snippet. -/
theorem own_result (h : Recorded w snippets before p log)
    (hnodup : (log.map (·.job.slot)).Nodup) (hp : Placed snippets p)
    (hslots : p.slots = p.results.map some) {t : Turn} (ht : t ∈ log) :
    p.results[t.job.slot]? = some (t.result w) := by
  have hlt : t.job.slot < p.results.length := by
    have hlen := hp.length
    rw [hslots, List.length_map] at hlen
    exact hlen ▸ (List.getElem?_eq_some_iff.mp (h.jobs t ht)).1
  have hslot : p.slots[t.job.slot]? = some (some p.results[t.job.slot]) := by
    rw [hslots, List.getElem?_map, List.getElem?_eq_getElem hlt]
    rfl
  obtain ⟨u, hu, hslotu, hresult⟩ := h.stored _ _ hslot
  obtain rfl : u = t := List.inj_on_of_nodup_map hnodup hu ht hslotu
  rw [List.getElem?_eq_getElem hlt, hresult]

end Recorded

/-- What a pool has delivered with its turns. The results follow the order of the snippets,
whichever worker had which snippet, and a breakdown of the compiler is an error of the snippet at
hand. -/
structure Delivered (w : Workshop) (snippets : List Prepared) (before : List Submission)
    (turns : List Turn) (p : Pool) : Prop where
  /-- One result for each snippet, with its file, index and source in its place. -/
  identity : p.results.map (fun r => (r.file, r.index, r.snippet)) =
    snippets.map fun s => (s.block.file, s.block.index, s.block.source)
  /-- Each snippet has exactly one turn. -/
  once : (turns.map (·.job.slot)).Perm (List.range snippets.length)
  /-- What was submitted is what the turns say, so no snippet was submitted twice. -/
  submitted : p.shared.submitted = (turns.filterMap (Turn.submission? w)).reverse ++ before
  /-- The result in each place comes from the turn of the snippet there, and from no other. -/
  own : ∀ t ∈ turns, snippets[t.job.slot]? = some t.job.snippet ∧
    p.results[t.job.slot]? = some (t.result w)
  panicked : ∀ t ∈ turns, t.fault = none → ∀ text, t.answer w = .panicked text →
    ∃ message, (Answer.panicked text).outcome = .generic message ∧
      p.results[t.job.slot]? = some
        { file := t.job.snippet.block.file
          index := t.job.snippet.block.index
          snippet := t.job.snippet.block.source
          lines := []
          failure := some
            ⟨Mapped.genericMessage message (Scrubber.ofSnippet t.file t.job.snippet.block), []⟩ }

/-- Whatever the schedule, a pool that has come to rest has delivered. -/
theorem rest_delivered (w : Workshop) (snippets : List Prepared) {workers : Nat}
    (hworkers : 0 < workers) (shared : Shared) (events : List Event)
    (hdone : ((start snippets workers shared).run w events).isDone = true) :
    Delivered w snippets shared.submitted ((start snippets workers shared).turns w events)
      ((start snippets workers shared).run w events) := by
  have hplaced := run_placed w snippets workers shared events
  have hrecord := run_recorded w snippets workers shared events
  have hslots := done_results hworkers hdone
  have honce := List.perm_iff_count.mpr (hrecord.count_turns hplaced hdone hslots)
  have hown := fun t ht =>
    hrecord.own_result (honce.nodup_iff.mpr List.nodup_range) hplaced hslots (t := t) ht
  refine ⟨?_, honce, hrecord.submitted, fun t ht => ⟨hrecord.jobs t ht, hown t ht⟩, ?_⟩
  · apply List.ext_getElem?
    intro i
    rw [List.getElem?_map, List.getElem?_map]
    by_cases hi : i < snippets.length
    · -- The turn of the snippet in this place says what its result is.
      have hmem := honce.mem_iff.mpr (List.mem_range.mpr hi)
      obtain ⟨t, ht, rfl⟩ := List.mem_map.mp hmem
      rw [hown t ht, hrecord.jobs t ht]
      rfl
    · have hlen := hplaced.length
      rw [hslots, List.length_map] at hlen
      rw [List.getElem?_eq_none (by omega), List.getElem?_eq_none (by omega)]
      rfl
  · intro t ht hwritten text hanswer
    have houtcome : t.outcome w = (Answer.panicked text).outcome := by
      rw [Turn.outcome, hwritten, hanswer]
    cases text <;> exact ⟨_, rfl, by rw [hown t ht, Turn.result, houtcome]; rfl⟩

/-- A compiler that breaks down on one snippet and removes the whole tree. -/
def fragileWorkshop : Workshop where
  compiler r d := if r.source = "lost" then (.panicked (some "gone"), Disk.empty) else
    (.finished .success, d)
  options := .default
  directory := ⟨⟨"/w"⟩, ["w"]⟩

def twoSnippets : List Prepared :=
  [⟨⟨⟨"a.md"⟩, 1, "lost", .ts⟩, "lost", .module⟩, ⟨⟨⟨"a.md"⟩, 2, "kept", .tsx⟩, "kept", .module⟩]

theorem rest_delivered_after_breakdown :
    0 < 2 ∧
      ((start twoSnippets 2 ⟨⟨[(["w"], .directory)], []⟩, 1, []⟩).run fragileWorkshop
        (.retry 1 :: roundRobin 2 2)).isDone = true ∧
      Delivered fragileWorkshop twoSnippets []
        ((start twoSnippets 2 ⟨⟨[(["w"], .directory)], []⟩, 1, []⟩).turns fragileWorkshop
          (.retry 1 :: roundRobin 2 2))
        ((start twoSnippets 2 ⟨⟨[(["w"], .directory)], []⟩, 1, []⟩).run fragileWorkshop
          (.retry 1 :: roundRobin 2 2)) :=
  have hdone : ((start twoSnippets 2 ⟨⟨[(["w"], .directory)], []⟩, 1, []⟩).run fragileWorkshop
      (.retry 1 :: roundRobin 2 2)).isDone = true := by decide
  ⟨by decide, hdone, rest_delivered fragileWorkshop twoSnippets (by decide) _ _ hdone⟩

end Pool

end DocSnippets
