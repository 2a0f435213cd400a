import DocSnippets.Proofs.Run.Moves
import DocSnippets.Proofs.Run.Placement
import DocSnippets.Proofs.Run.Placing

/-!
# The numbers of a pool

Every worker that has a file has it under a number of its own, which was given once. As many numbers
are given as there are snippets at most.
-/

namespace DocSnippets

namespace Phase

/-- The file that a worker is about to write or to submit, with its job. -/
def file? : Phase → Option (Job × Path)
  | .named job file => some (job, file)
  | .written job file _ => some (job, file)
  | _ => none

def isTaken : Phase → Bool
  | .taken _ => true
  | _ => false

end Phase

theorem getElem?_set_eq_some {α : Type} {l : List α} {i j : Nat} {a b : α}
    (h : (l.set i a)[j]? = some b) : (j = i ∧ b = a) ∨ (j ≠ i ∧ l[j]? = some b) := by
  by_cases hij : j = i
  · subst hij
    have hlt : j < (l.set j a).length := (List.getElem?_eq_some_iff.mp h).1
    rw [List.length_set] at hlt
    rw [List.getElem?_set_self hlt] at h
    exact Or.inl ⟨rfl, (Option.some.inj h).symm⟩
  · rw [List.getElem?_set_ne (Ne.symm hij)] at h
    exact Or.inr ⟨hij, h⟩

namespace Pool

def Holds (w : Workshop) (p : Pool) (worker id : Nat) : Prop :=
  ∃ phase job, p.workers[worker]? = some phase ∧
    phase.file? = some (job, w.directory.snippetPath id job.snippet.block.dialect)

/-- The numbers that workers have were given, and no two workers have the same. -/
structure Numbered (w : Workshop) (count : Nat) (p : Pool) : Prop where
  positive : 0 < p.shared.nextId
  counted : p.shared.nextId + p.queue.length + p.workers.countP Phase.isTaken = count + 1
  given : ∀ (worker : Nat) (phase : Phase) (job : Job) (file : Path),
    p.workers[worker]? = some phase → phase.file? = some (job, file) →
      ∃ id, 0 < id ∧ id < p.shared.nextId ∧
        file = w.directory.snippetPath id job.snippet.block.dialect
  apart : ∀ i j id, Holds w p i id → Holds w p j id → i = j

variable {w : Workshop} {count : Nat} {p : Pool}

theorem Holds.given {worker id : Nat} (h : Numbered w count p) (hid : Holds w p worker id) :
    0 < id ∧ id < p.shared.nextId := by
  obtain ⟨phase, job, hw, hfile⟩ := hid
  obtain ⟨id', hpos, hlt, heq⟩ := h.given worker phase job _ hw hfile
  obtain rfl := WorkDirectory.snippetPath_injective heq
  exact ⟨hpos, hlt⟩

theorem start_numbered (w : Workshop) (snippets : List Prepared) (workers : Nat) (d : Disk)
    (submitted : List Submission) :
    Numbered w snippets.length (start snippets workers ⟨d, 1, submitted⟩) where
  positive := Nat.zero_lt_one
  counted := by
    simp [start, List.countP_replicate, Phase.isTaken, Nat.add_comm]
  given worker phase job file hw hfile := by
    have hidle := List.eq_of_mem_replicate (List.mem_of_getElem? hw)
    rw [hidle] at hfile
    cases hfile
  apart i j id hi := by
    obtain ⟨phase, job, hw, hfile⟩ := hi
    have hidle := List.eq_of_mem_replicate (List.mem_of_getElem? hw)
    rw [hidle] at hfile
    cases hfile

namespace Numbered

theorem keep (h : Numbered w count p) {worker : Nat} {a b : Phase}
    (hw : p.workers[worker]? = some a) (hfile : ∀ f, b.file? = some f → a.file? = some f)
    {queue : List Job} {shared : Shared} (hnext : p.shared.nextId ≤ shared.nextId)
    (hcount : shared.nextId + queue.length + b.isTaken.toNat =
      p.shared.nextId + p.queue.length + a.isTaken.toNat)
    (slots : List (Option SnippetResult)) :
    Numbered w count ⟨queue, p.workers.set worker b, slots, shared⟩ := by
  have hold : ∀ i id, Holds w ⟨queue, p.workers.set worker b, slots, shared⟩ i id →
      Holds w p i id := by
    rintro i id ⟨phase, job, hphase, hf⟩
    rcases getElem?_set_eq_some hphase with ⟨rfl, rfl⟩ | ⟨-, hphase⟩
    · exact ⟨a, job, hw, hfile _ hf⟩
    · exact ⟨phase, job, hphase, hf⟩
  constructor
  case positive => exact Nat.lt_of_lt_of_le h.positive hnext
  case counted =>
    have htaken := countP_set_add (P := Phase.isTaken) (b := b) hw
    have hcounted := h.counted
    dsimp only
    omega
  case given =>
    intro i phase job file hphase hf
    have hsource : ∃ phase, p.workers[i]? = some phase ∧ phase.file? = some (job, file) := by
      rcases getElem?_set_eq_some hphase with ⟨rfl, rfl⟩ | ⟨-, hphase⟩
      · exact ⟨a, hw, hfile _ hf⟩
      · exact ⟨phase, hphase, hf⟩
    obtain ⟨phase, hphase, hf⟩ := hsource
    obtain ⟨id, hpos, hlt, heq⟩ := h.given i phase job file hphase hf
    exact ⟨id, hpos, Nat.lt_of_lt_of_le hlt hnext, heq⟩
  case apart => exact fun i j id hi hj => h.apart i j id (hold i id hi) (hold j id hj)

/-- A worker that has a job gets a new number for it. -/
theorem name (h : Numbered w count p) {worker : Nat} {job : Job}
    (hw : p.workers[worker]? = some (.taken job)) :
    Numbered w count
      ⟨p.queue, p.workers.set worker (.named job (w.takeFile job.snippet p.shared).1), p.slots,
        (w.takeFile job.snippet p.shared).2⟩ := by
  -- The number that is given is above all numbers that workers have.
  have hnew : ∀ i id, Holds w
      ⟨p.queue, p.workers.set worker (.named job (w.takeFile job.snippet p.shared).1), p.slots,
        (w.takeFile job.snippet p.shared).2⟩ i id →
      (i = worker ∧ id = p.shared.nextId) ∨ (Holds w p i id ∧ id < p.shared.nextId) := by
    rintro i id ⟨phase, job', hphase, hf⟩
    rcases getElem?_set_eq_some hphase with ⟨rfl, rfl⟩ | ⟨-, hphase⟩
    · obtain ⟨rfl, hpath⟩ := Prod.mk.inj (Option.some.inj hf)
      exact Or.inl ⟨rfl, (WorkDirectory.snippetPath_injective hpath).symm⟩
    · have hold : Holds w p i id := ⟨phase, job', hphase, hf⟩
      exact Or.inr ⟨hold, (hold.given h).2⟩
  constructor
  case positive => exact Nat.succ_pos _
  case counted =>
    have htaken := countP_set_add (P := Phase.isTaken)
      (b := .named job (w.takeFile job.snippet p.shared).1) hw
    have hcounted := h.counted
    simp only [Phase.isTaken, Bool.toNat_true, Bool.toNat_false] at htaken
    simp only [Workshop.takeFile] at htaken ⊢
    omega
  case given =>
    intro i phase job' file hphase hf
    rcases getElem?_set_eq_some hphase with ⟨rfl, rfl⟩ | ⟨-, hphase⟩
    · obtain ⟨rfl, rfl⟩ := Prod.mk.inj (Option.some.inj hf)
      exact ⟨p.shared.nextId, h.positive, Nat.lt_succ_self _, rfl⟩
    · obtain ⟨id, hpos, hlt, heq⟩ := h.given i phase job' file hphase hf
      exact ⟨id, hpos, Nat.lt_succ_of_lt hlt, heq⟩
  case apart =>
    intro i j id hi hj
    rcases hnew i id hi with ⟨rfl, rfl⟩ | ⟨hi, hlt⟩
    · rcases hnew j _ hj with ⟨rfl, -⟩ | ⟨-, hlt⟩
      · rfl
      · exact absurd hlt (Nat.lt_irrefl _)
    · rcases hnew j id hj with ⟨rfl, rfl⟩ | ⟨hj, -⟩
      · exact absurd hlt (Nat.lt_irrefl _)
      · exact h.apart i j id hi hj

end Numbered

theorem step_numbered {q : Pool} {t : Option Turn} (h : Numbered w count p) (hm : Move w p t q) :
    Numbered w count q := by
  cases hm with
  | stay => exact h
  | stop hw hq =>
    exact h.keep (b := .stopped) hw (fun f hf => by cases hf) (Nat.le_refl _) rfl _
  | take hw hq =>
    refine h.keep hw (fun f hf => by cases hf) (Nat.le_refl _) ?_ _
    rw [hq]
    simp [Phase.isTaken, Nat.add_assoc]
  | @write worker job file hw =>
    refine h.keep (b := .written job file (Workshop.write job.snippet file p.shared).1) hw
      (fun f hf => hf) ?_ ?_ _
    · rw [Workshop.write_nextId]
    · simp only [Workshop.write_nextId, Phase.isTaken]
  | submit hw =>
    refine h.keep hw (fun f hf => by cases hf) ?_ ?_ _
    · rw [Workshop.submit_nextId]
    · simp only [Workshop.submit_nextId, Phase.isTaken]
  | store hw =>
    exact h.keep (b := .idle) hw (fun f hf => by cases hf) (Nat.le_refl _) rfl _
  | name hw => exact h.name hw

end Pool

end DocSnippets
