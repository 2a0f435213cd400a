import DocSnippets.Proofs.Run.Moves
import Mathlib.Data.List.Induction

/-!
# Where the jobs of a pool are

Each job is in exactly one place: in the queue, with one worker, or in its slot as a result. The
places are counted, so that a move is an exchange of one place for another.
-/

namespace DocSnippets

/-- Replacing one element changes the count of a class by what the two elements contribute. -/
theorem countP_set_add {α : Type} {P : α → Bool} {l : List α} {i : Nat} {a b : α}
    (h : l[i]? = some a) :
    (l.set i b).countP P + (P a).toNat = l.countP P + (P b).toNat := by
  obtain ⟨hi, hget⟩ := List.getElem?_eq_some_iff.mp h
  have hpos : P a = true → 0 < l.countP P := fun hp =>
    List.countP_pos_iff.mpr ⟨a, hget ▸ List.getElem_mem hi, hp⟩
  rw [List.countP_set hi, hget]
  cases ha : P a with
  | false => cases P b <;> simp
  | true =>
    have := hpos ha
    cases P b <;> simp <;> omega

namespace Phase

def job? : Phase → Option Job
  | .idle => none
  | .taken job => some job
  | .named job _ => some job
  | .written job _ _ => some job
  | .compiled job _ _ => some job
  | .stopped => none

def holds (slot : Nat) (phase : Phase) : Bool := phase.job?.any (·.slot = slot)

end Phase

namespace Pool

def filled (slots : List (Option SnippetResult)) (slot : Nat) : Bool :=
  slots[slot]?.any Option.isSome

/-- In how many places the job of a slot is. -/
def places (p : Pool) (slot : Nat) : Nat :=
  p.queue.countP (·.slot = slot) + p.workers.countP (Phase.holds slot) + (filled p.slots slot).toNat

/-- Every job is the snippet of its slot and is in exactly one place; a worker stops only when no
job is left to take. -/
structure Placed (snippets : List Prepared) (p : Pool) : Prop where
  length : p.slots.length = snippets.length
  places : ∀ slot, p.places slot = if slot < snippets.length then 1 else 0
  queued : ∀ job ∈ p.queue, snippets[job.slot]? = some job.snippet
  held : ∀ phase ∈ p.workers, ∀ job, phase.job? = some job →
    snippets[job.slot]? = some job.snippet
  stopped : .stopped ∈ p.workers → p.queue = []

theorem filled_set {slots : List (Option SnippetResult)} {slot : Nat} (r : SnippetResult)
    (hlt : slot < slots.length) (i : Nat) :
    filled (slots.set slot (some r)) i = if i = slot then true else filled slots i := by
  by_cases h : i = slot
  · subst h
    simp [filled, hlt]
  · simp [filled, h, Ne.symm h]

theorem countP_mapIdx_slot (snippets : List Prepared) (slot : Nat) :
    (snippets.mapIdx fun i s => (⟨i, s⟩ : Job)).countP (·.slot = slot) =
      if slot < snippets.length then 1 else 0 := by
  induction snippets using List.reverseRecOn with
  | nil => simp
  | append_singleton l s ih =>
    rw [List.mapIdx_append, List.countP_append, ih]
    by_cases h : slot = l.length
    · subst h
      simp
    · simp [Ne.symm h]
      grind

theorem start_filled (snippets : List Prepared) (workers : Nat) (shared : Shared) (slot : Nat) :
    filled (start snippets workers shared).slots slot = false := by
  simp only [filled, start, List.getElem?_map]
  cases snippets[slot]? <;> rfl

theorem start_placed (snippets : List Prepared) (workers : Nat) (shared : Shared) :
    Placed snippets (start snippets workers shared) where
  length := by simp [start]
  places slot := by
    have hheld : (start snippets workers shared).workers.countP (Phase.holds slot) = 0 := by
      simp [start, Phase.holds, Phase.job?, List.countP_replicate]
    rw [Pool.places, start_filled, hheld]
    exact countP_mapIdx_slot snippets slot
  queued job hjob := by
    obtain ⟨i, hi, rfl⟩ := List.mem_mapIdx.mp hjob
    simp
  held phase hp job hj := by
    rw [List.eq_of_mem_replicate hp] at hj
    cases hj
  stopped h := by
    have := List.eq_of_mem_replicate h
    cases this

namespace Placed

variable {snippets : List Prepared} {p : Pool} {worker : Nat} {a b : Phase}

theorem held_once (h : Placed snippets p) {job : Job} (hw : p.workers[worker]? = some a)
    (hj : a.job? = some job) :
    job.slot < snippets.length ∧ p.workers.countP (Phase.holds job.slot) = 1 ∧
      filled p.slots job.slot = false := by
  have hmem : a ∈ p.workers := List.mem_of_getElem? hw
  have hlt : job.slot < snippets.length :=
    (List.getElem?_eq_some_iff.mp (h.held a hmem job hj)).1
  have hpos : 0 < p.workers.countP (Phase.holds job.slot) :=
    List.countP_pos_iff.mpr ⟨a, hmem, by simp [Phase.holds, hj]⟩
  have hone := h.places job.slot
  rw [if_pos hlt, Pool.places] at hone
  refine ⟨hlt, by omega, ?_⟩
  cases hf : filled p.slots job.slot with
  | false => rfl
  | true => rw [hf, Bool.toNat_true] at hone; omega

/-- A worker may go on with what it holds, whatever becomes of the tree. -/
theorem keep (h : Placed snippets p) (hw : p.workers[worker]? = some a)
    (hsame : b.job? = a.job?) (hgo : b ≠ .stopped) (shared : Shared) :
    Placed snippets { p with shared, workers := p.workers.set worker b } where
  length := h.length
  places slot := by
    have hcount := countP_set_add (P := Phase.holds slot) (b := b) hw
    have hholds : a.holds slot = b.holds slot := by simp only [Phase.holds, hsame]
    rw [hholds, Nat.add_right_cancel_iff] at hcount
    rw [← h.places slot, Pool.places, Pool.places, hcount]
  queued := h.queued
  held phase hp job hj := by
    rcases List.mem_or_eq_of_mem_set hp with hp | rfl
    · exact h.held phase hp job hj
    · exact h.held a (List.mem_of_getElem? hw) job (hsame ▸ hj)
  stopped hs := by
    rcases List.mem_or_eq_of_mem_set hs with hs | hs
    · exact h.stopped hs
    · exact absurd hs.symm hgo

end Placed

theorem step_placed {w : Workshop} {snippets : List Prepared} {p q : Pool} {t : Option Turn}
    (h : Placed snippets p) (hm : Move w p t q) : Placed snippets q := by
  cases hm with
  | stay => exact h
  | stop hw hq =>
    refine ⟨h.length, fun slot => ?_, h.queued, fun phase hp job hj => ?_, fun _ => hq⟩
    · have hcount := countP_set_add (P := Phase.holds slot) (b := .stopped) hw
      rw [← h.places slot, places, places]
      simpa [Phase.holds, Phase.job?, filled] using hcount
    · rcases List.mem_or_eq_of_mem_set hp with hp | rfl
      · exact h.held phase hp job hj
      · cases hj
  | @take worker job queue hw hq =>
    refine ⟨h.length, fun slot => ?_, fun j hj => h.queued j (hq ▸ List.mem_cons_of_mem job hj),
      fun phase hp j hj => ?_, fun hs => ?_⟩
    · have hcount := countP_set_add (P := Phase.holds slot) (b := .taken job) hw
      have hplaces := h.places slot
      simp only [places, filled, hq, List.countP_cons] at hplaces ⊢
      simp only [Phase.holds, Phase.job?, Option.any_none, Option.any_some, Bool.toNat_false]
        at hcount hplaces ⊢
      cases hslot : decide (job.slot = slot) <;> simp [hslot] at hcount hplaces ⊢ <;> omega
    · rcases List.mem_or_eq_of_mem_set hp with hp | rfl
      · exact h.held phase hp j hj
      · obtain rfl : job = j := Option.some.inj hj
        exact h.queued job (hq ▸ List.mem_cons_self)
    · -- A worker that has stopped would have left no job to take.
      rcases List.mem_or_eq_of_mem_set hs with hs | hs
      · have := h.stopped hs
        rw [hq] at this
        cases this
      · cases hs
  | name hw => exact h.keep hw (by rfl) (by simp) _
  | write hw => exact h.keep hw (by rfl) (by simp) _
  | submit hw => exact h.keep hw (by rfl) (by simp) _
  | @store worker job file outcome hw =>
    obtain ⟨hlt, hone, hempty⟩ := h.held_once hw rfl
    refine ⟨by simpa using h.length, fun slot => ?_, h.queued, fun phase hp j hj => ?_,
      fun hs => ?_⟩
    · have hcount := countP_set_add (P := Phase.holds slot) (b := .idle) hw
      have hplaces := h.places slot
      simp only [places] at hplaces ⊢
      rw [filled_set _ (h.length ▸ hlt)]
      simp only [Phase.holds, Phase.job?, Option.any_none, Option.any_some, Bool.toNat_false]
        at hcount hplaces ⊢
      by_cases hslot : slot = job.slot
      · subst hslot
        simp [hempty] at hcount hplaces ⊢
        omega
      · simp [hslot, Ne.symm hslot] at hcount hplaces ⊢
        omega
    · rcases List.mem_or_eq_of_mem_set hp with hp | rfl
      · exact h.held phase hp j hj
      · cases hj
    · rcases List.mem_or_eq_of_mem_set hs with hs | hs
      · exact h.stopped hs
      · cases hs

theorem run_placed (w : Workshop) (snippets : List Prepared) (workers : Nat) (shared : Shared)
    (events : List Event) :
    Placed snippets ((start snippets workers shared).run w events) :=
  run_induction (P := fun p _ => Placed snippets p) (fun _ _ _ _ h hm => step_placed h hm) []
    (start_placed snippets workers shared) events

theorem run_workers_length (w : Workshop) (p : Pool) (events : List Event) :
    (p.run w events).workers.length = p.workers.length := by
  refine run_induction (P := fun q _ => q.workers.length = p.workers.length) ?_ [] rfl
    events
  intro q log t q' h hm
  cases hm <;> simpa using h

theorem done_stopped {p : Pool} (hdone : p.isDone = true) :
    ∀ phase ∈ p.workers, phase = .stopped := by
  intro phase hp
  have := List.all_eq_true.mp hdone phase hp
  cases phase <;> simp_all

/-- When all workers have stopped, no job is left in the queue or with a worker. -/
theorem Placed.done_filled {snippets : List Prepared} {p : Pool} (h : Placed snippets p)
    (hcrew : 0 < p.workers.length) (hdone : p.isDone = true) {slot : Nat}
    (hlt : slot < snippets.length) : ∃ r, p.slots[slot]? = some (some r) := by
  have hstopped := done_stopped hdone
  have hqueue : p.queue = [] := by
    have hmem := List.getElem_mem hcrew
    exact h.stopped (hstopped _ hmem ▸ hmem)
  have hheld : p.workers.countP (Phase.holds slot) = 0 := by
    rw [List.countP_eq_zero]
    intro phase hp
    simp [hstopped phase hp, Phase.holds, Phase.job?]
  have hone := h.places slot
  rw [Pool.places, hqueue, hheld, if_pos hlt] at hone
  cases hs : p.slots[slot]? with
  | none => simp [filled, hs] at hone
  | some r =>
    cases r with
    | none => simp [filled, hs] at hone
    | some r => exact ⟨r, rfl⟩

theorem slots_eq_map_results {p : Pool}
    (h : ∀ slot < p.slots.length, ∃ r, p.slots[slot]? = some (some r)) :
    p.slots = p.results.map some := by
  have hall : ∀ x ∈ p.slots, ∃ r, x = some r := by
    intro x hx
    obtain ⟨i, hi, rfl⟩ := List.getElem_of_mem hx
    obtain ⟨r, hr⟩ := h i hi
    exact ⟨r, (List.getElem?_eq_some_iff.mp hr).2⟩
  unfold results
  generalize p.slots = slots at hall
  induction slots with
  | nil => rfl
  | cons x slots ih =>
    obtain ⟨r, rfl⟩ := hall x List.mem_cons_self
    simp only [List.filterMap_cons, id_eq, List.map_cons, List.cons.injEq, true_and]
    exact ih fun y hy => hall y (List.mem_cons_of_mem _ hy)

theorem done_results {w : Workshop} {snippets : List Prepared} {workers : Nat} {shared : Shared}
    {events : List Event} (hworkers : 0 < workers)
    (hdone : ((start snippets workers shared).run w events).isDone = true) :
    ((start snippets workers shared).run w events).slots =
      ((start snippets workers shared).run w events).results.map some := by
  have hplaced := run_placed w snippets workers shared events
  refine slots_eq_map_results fun slot hslot => hplaced.done_filled ?_ hdone ?_
  · rw [run_workers_length]
    simpa [start] using hworkers
  · rwa [← hplaced.length]

end Pool

end DocSnippets
