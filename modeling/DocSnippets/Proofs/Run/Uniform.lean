import DocSnippets.Proofs.Run.Delivery
import DocSnippets.Proofs.Run.Numbering
import DocSnippets.Proofs.Run.Tidy

/-!
# Uniform results

With a confined compiler the result for a snippet is the one of some number, whichever way the
snippets are compiled. When no number shows in a result, a pool that has come to rest has the same
results as compiling the snippets one after the other.
-/

namespace DocSnippets

open Disk (Keeps)

/-- A job has a file under one of the first numbers, and the fault that goes with it. -/
def Workshop.Filed (w : Workshop) (count : Nat) (job : Job) (file : Path)
    (fault : Option Disk.Fault) : Prop :=
  ∃ id, 0 < id ∧ id ≤ count ∧ file = w.directory.snippetPath id job.snippet.block.dialect ∧
    fault = w.directory.faultOf id job.snippet.block.dialect

/-- The results under the first numbers are those of a function of the snippets. -/
def Workshop.Uniform (w : Workshop) (reply : String → Dialect → CompilerOptions → Reply)
    (snippets : List Prepared) (f : Prepared → SnippetResult) : Prop :=
  ∀ id, 0 < id → id ≤ snippets.length → ∀ s ∈ snippets, w.resultAt reply id s = f s

variable {w : Workshop} {root : List Char} {suffix : String} {home : Disk}
  {reply : String → Dialect → CompilerOptions → Reply}

namespace Workshop

theorem Filed.result_eq {count : Nat} {t : Turn} (hconfined : w.compiler.Confined reply)
    (h : w.Filed count t.job t.file t.fault) :
    ∃ id, 0 < id ∧ id ≤ count ∧ t.result w = w.resultAt reply id t.job.snippet := by
  obtain ⟨id, hpos, hle, hfile, hfault⟩ := h
  refine ⟨id, hpos, hle, ?_⟩
  have houtcome : t.outcome w =
      ((replyTo reply w.options t.job.snippet t.fault).answer t.file).outcome := by
    rw [← submit_confined hconfined _ _ _ ⟨t.disk, 0, []⟩, submit_outcome]
  rw [Turn.result, resultAt, houtcome, hfile, hfault]

theorem compile_confined (hmade : w.directory.Made root suffix home)
    (hconfined : w.compiler.Confined reply) (s : Prepared) {shared : Shared}
    (htidy : Tidy w.directory home (fun _ => False) shared) :
    (w.compile s shared).1 = w.resultAt reply shared.nextId s ∧
      Tidy w.directory home (fun _ => False) (w.compile s shared).2 ∧
      (w.compile s shared).2.nextId = shared.nextId + 1 := by
  obtain ⟨hfault, hwritten⟩ := (htidy.takeFile s).write hmade (Or.inr rfl) s
  have hfreed : Tidy w.directory home (fun _ => False) _ := hwritten.mono fun _ hnone => hnone.elim
  have hgiven : shared.nextId <
      (write s (w.directory.snippetPath shared.nextId s.block.dialect)
        (w.takeFile s shared).2).2.nextId := by
    rw [write_nextId]
    exact Nat.lt_succ_self _
  have hsubmitted := hfreed.submit hmade hconfined hgiven id s
    (w.directory.faultOf shared.nextId s.block.dialect)
  rw [compile_eq]
  dsimp only
  rw [takeFile_fst, hfault, submit_confined hconfined, submit_nextId, write_nextId]
  exact ⟨rfl, hsubmitted, rfl⟩

/-- Snippets that are compiled one after the other get the next numbers in their order. -/
theorem compileAll_numbered (hmade : w.directory.Made root suffix home)
    (hconfined : w.compiler.Confined reply) (snippets : List Prepared) {shared : Shared}
    (htidy : Tidy w.directory home (fun _ => False) shared) :
    (w.compileAll snippets shared).1 =
        snippets.mapIdx (fun i s => w.resultAt reply (shared.nextId + i) s) ∧
      Tidy w.directory home (fun _ => False) (w.compileAll snippets shared).2 ∧
      (w.compileAll snippets shared).2.nextId = shared.nextId + snippets.length := by
  induction snippets generalizing shared with
  | nil => exact ⟨rfl, htidy, rfl⟩
  | cons s rest ih =>
    obtain ⟨hresult, hnext, hid⟩ := compile_confined hmade hconfined s htidy
    obtain ⟨hresults, hlast, hcount⟩ := ih hnext
    simp only [compileAll]
    refine ⟨?_, hlast, ?_⟩
    · rw [hresults, hresult, hid, List.mapIdx_cons]
      simp only [Nat.add_zero, Nat.add_assoc, Nat.add_comm 1]
    · rw [hcount, hid, List.length_cons]
      omega

theorem compileAll_confined (hmade : w.directory.Made root suffix home)
    (hconfined : w.compiler.Confined reply) {f : Prepared → SnippetResult}
    {snippets : List Prepared} {shared : Shared}
    (htidy : Tidy w.directory home (fun _ => False) shared)
    (huniform : ∀ id, shared.nextId ≤ id → id < shared.nextId + snippets.length →
      ∀ s ∈ snippets, w.resultAt reply id s = f s) :
    (w.compileAll snippets shared).1 = snippets.map f := by
  rw [(compileAll_numbered hmade hconfined snippets htidy).1]
  refine List.ext_getElem (by simp) fun i hi hi' => ?_
  rw [List.length_map] at hi'
  rw [List.getElem_mapIdx, List.getElem_map]
  exact huniform _ (Nat.le_add_right _ _) (by omega) _ (List.getElem_mem hi')

end Workshop

namespace Pool

def Awaits (w : Workshop) (p : Pool) (id : Nat) : Prop :=
  ∃ (worker : Nat) (job : Job), p.workers[worker]? =
    some (.named job (w.directory.snippetPath id job.snippet.block.dialect))

/-- The files still to be written can be written, and every turn is in a file under a number. -/
structure Orderly (w : Workshop) (home : Disk) (count : Nat) (p : Pool) (log : List Turn) :
    Prop where
  numbered : Numbered w count p
  tidy : Tidy w.directory home (Awaits w p) p.shared
  written : ∀ job file fault, .written job file fault ∈ p.workers → w.Filed count job file fault
  turns : ∀ t ∈ log, w.Filed count t.job t.file t.fault

theorem start_orderly (hmade : w.directory.Made root suffix home) (snippets : List Prepared)
    (workers : Nat) (submitted : List Submission) :
    Orderly w home snippets.length (start snippets workers ⟨home, 1, submitted⟩) [] where
  numbered := start_numbered w snippets workers home submitted
  tidy := by
    refine (Tidy.start hmade submitted).mono fun id hawaits => ?_
    obtain ⟨worker, job, hw⟩ := hawaits
    cases List.eq_of_mem_replicate (List.mem_of_getElem? hw)
  written job file fault hmem := by cases List.eq_of_mem_replicate hmem
  turns t ht := by cases ht

namespace Orderly

variable {count : Nat} {p : Pool} {log : List Turn} {worker : Nat} {a b : Phase}

/-- A worker that gets no new file leaves no more files to be written than before. -/
theorem tidy_set {shared : Shared} (h : Tidy w.directory home (Awaits w p) shared)
    (hb : ∀ job file, b ≠ .named job file) {queue : List Job}
    {slots : List (Option SnippetResult)} :
    Tidy w.directory home (Awaits w ⟨queue, p.workers.set worker b, slots, shared⟩) shared := by
  refine h.mono fun id hawaits => ?_
  obtain ⟨other, job, hother⟩ := hawaits
  rcases getElem?_set_eq_some hother with ⟨-, hnamed⟩ | ⟨-, hother⟩
  · exact absurd hnamed.symm (hb job _)
  · exact Or.inl ⟨other, job, hother⟩

theorem written_of_set (h : Orderly w home count p log)
    (hb : ∀ job file fault, b = .written job file fault → w.Filed count job file fault) :
    ∀ job file fault, .written job file fault ∈ p.workers.set worker b →
      w.Filed count job file fault := by
  intro job file fault hmem
  rcases List.mem_or_eq_of_mem_set hmem with hmem | heq
  · exact h.written job file fault hmem
  · exact hb job file fault heq.symm

end Orderly

theorem step_orderly {count : Nat} {p q : Pool} {log : List Turn} {t : Option Turn}
    (hmade : w.directory.Made root suffix home) (hconfined : w.compiler.Confined reply)
    (h : Orderly w home count p log) (hm : Move w p t q) :
    Orderly w home count q (log ++ t.toList) := by
  have hnumbered := step_numbered h.numbered hm
  cases hm with
  | stay => simpa using h
  | stop hw =>
    rw [Option.toList_none, List.append_nil]
    exact ⟨hnumbered, Orderly.tidy_set h.tidy (by simp), h.written_of_set (by simp), h.turns⟩
  | take hw =>
    rw [Option.toList_none, List.append_nil]
    exact ⟨hnumbered, Orderly.tidy_set h.tidy (by simp), h.written_of_set (by simp), h.turns⟩
  | store hw =>
    rw [Option.toList_none, List.append_nil]
    exact ⟨hnumbered, Orderly.tidy_set h.tidy (by simp), h.written_of_set (by simp), h.turns⟩
  | @name worker job hw =>
    rw [Option.toList_none, List.append_nil]
    refine ⟨hnumbered, (h.tidy.takeFile job.snippet).mono fun id hawaits => ?_,
      h.written_of_set (by simp), h.turns⟩
    obtain ⟨other, job', hother⟩ := hawaits
    rcases getElem?_set_eq_some hother with ⟨-, hnamed⟩ | ⟨-, hother⟩
    · obtain ⟨rfl, hpath⟩ := Phase.named.inj hnamed
      rw [Workshop.takeFile_fst] at hpath
      exact Or.inl (Or.inr (WorkDirectory.snippetPath_injective hpath))
    · exact Or.inl (Or.inl ⟨other, job', hother⟩)
  | @write worker job file hw =>
    obtain ⟨id, hpos, hlt, rfl⟩ := h.numbered.given worker _ job file hw rfl
    have hle : id ≤ count := by
      have hcounted := h.numbered.counted
      omega
    obtain ⟨hfault, htidy⟩ := h.tidy.write hmade ⟨worker, job, hw⟩ job.snippet
    rw [Option.toList_none, List.append_nil]
    generalize Workshop.write job.snippet _ p.shared = written at hnumbered hfault htidy ⊢
    refine ⟨hnumbered, Orderly.tidy_set htidy (by simp), h.written_of_set ?_, h.turns⟩
    intro job' file fault heq
    obtain ⟨rfl, rfl, rfl⟩ := Phase.written.inj heq
    exact ⟨id, hpos, hle, rfl, hfault⟩
  | @submit worker job file fault hw =>
    have hfiled := h.written job file fault (List.mem_of_getElem? hw)
    obtain ⟨id, -, -, rfl, -⟩ := id hfiled
    have hholds : Holds w p worker id := ⟨_, job, hw, rfl⟩
    -- The number belongs to this worker, so no other one waits to write its file.
    have hdone : ¬ Awaits w p id := by
      rintro ⟨other, job', hother⟩
      obtain rfl := h.numbered.apart other worker id ⟨_, job', hother, rfl⟩ hholds
      rw [hw] at hother
      cases hother
    have htidy :=
      h.tidy.submit hmade hconfined (hholds.given h.numbered).2 hdone job.snippet fault
    refine ⟨hnumbered, Orderly.tidy_set htidy (by simp), h.written_of_set (by simp), fun t ht => ?_⟩
    rcases List.mem_append.mp ht with ht | ht
    · exact h.turns t ht
    · obtain rfl := List.mem_singleton.mp ht
      exact hfiled

theorem run_orderly (hmade : w.directory.Made root suffix home)
    (hconfined : w.compiler.Confined reply) (snippets : List Prepared) (workers : Nat)
    (submitted : List Submission) (events : List Event) :
    Orderly w home snippets.length
      ((start snippets workers ⟨home, 1, submitted⟩).run w events)
      ((start snippets workers ⟨home, 1, submitted⟩).turns w events) := by
  simpa using run_induction (P := Orderly w home snippets.length)
    (fun _ _ _ _ h hm => step_orderly hmade hconfined h hm) []
    (start_orderly hmade snippets workers submitted) events

theorem rest_results (hmade : w.directory.Made root suffix home)
    (hconfined : w.compiler.Confined reply) {snippets : List Prepared}
    {f : Prepared → SnippetResult} (huniform : w.Uniform reply snippets f) {workers : Nat}
    (hworkers : 0 < workers) {events : List Event}
    (hdone : ((start snippets workers ⟨home, 1, []⟩).run w events).isDone = true) :
    ((start snippets workers ⟨home, 1, []⟩).run w events).results = snippets.map f := by
  have hplaced := run_placed w snippets workers ⟨home, 1, []⟩ events
  have hrecord := run_recorded w snippets workers ⟨home, 1, []⟩ events
  have horderly := run_orderly hmade hconfined snippets workers [] events
  have hslots := done_results hworkers hdone
  have hlength := hplaced.length
  rw [hslots, List.length_map] at hlength
  refine List.ext_getElem (by rw [hlength, List.length_map]) fun slot hslot hmap => ?_
  have hstored : ((start snippets workers ⟨home, 1, []⟩).run w events).slots[slot]? =
      some (some (((start snippets workers ⟨home, 1, []⟩).run w events).results[slot])) := by
    rw [hslots, List.getElem?_map, List.getElem?_eq_getElem hslot, Option.map_some]
  obtain ⟨t, ht, rfl, hresult⟩ := hrecord.stored slot _ hstored
  obtain ⟨id, hpos, hle, hat⟩ := (horderly.turns t ht).result_eq hconfined
  have hsnippet := hrecord.jobs t ht
  have hmem : t.job.snippet ∈ snippets := List.mem_of_getElem? hsnippet
  obtain ⟨hlt, hget⟩ := List.getElem?_eq_some_iff.mp hsnippet
  rw [← hresult, hat, huniform id hpos hle _ hmem, List.getElem_map, hget]

end Pool

end DocSnippets
