import TaskEngine.Engine.Summary
import TaskEngine.Pool.Threads

/-!
# TaskEngine.Engine.Collect — `collect_samples` during a run

`collect_samples` is the check of `joined_` under the mutex and the merge of the buffers, wherever a
`summary` makes it.  It merges only past the join, when no worker can append any more, so every merge
gives the same samples, one for each envelope that was popped (`join_discipline`).
-/

namespace TaskEngine

open Interleaving

namespace Engine

variable {W : ℕ} {ι : Type}

section Collect

/-- The samples read by a step. -/
def Event.collected : Event W → List (List Sample)
  | .collect samples => [samples]
  | _ => []

attribute [simp] Event.collected.eq_1

/-- What the calls of `collect_samples` have returned. -/
abbrev collections (log : List (Thread W ι × Event W)) : List (List Sample) :=
  collect Event.collected log

variable [DecidableEq ι] [Fintype ι] {capacity : ℕ} {c d : System W ι}
  {log : List (Thread W ι × Event W)}

omit [Fintype ι] in
theorem merged_step (hW : 0 < W) (h : Run (rules capacity) init log d)
    {l : Thread W ι × Event W} (hs : Step (rules capacity) d l c) (hj : d.shared.pool.joined = true) :
    c.shared.pool.joined = true ∧ c.shared.pool.merged = d.shared.pool.merged := by
  have hstill := ThreadPool.joined_still hW (pool_run_init h) hj (pool_run (.single hs))
  refine ⟨hstill.joined, ?_⟩
  rw [ThreadPool.merged, ThreadPool.merged,
    show c.shared.pool.samples = d.shared.pool.samples from hstill.samples]

/-- What has been collected is what the buffers hold, and the workers are joined. -/
theorem collections_eq (hW : 0 < W) (h : Run (rules capacity) init log c) :
    ∀ samples ∈ collections log, c.shared.pool.joined = true ∧ samples = c.shared.pool.merged := by
  refine h.induct (I := fun log d => ∀ samples ∈ collections log,
    d.shared.pool.joined = true ∧ samples = d.shared.pool.merged) (by simp) ?_
  intro log d t ev m p hrun ih hr samples hs
  have hstep : Step (rules capacity) d (t, ev) ⟨m, Function.update d.pc t p⟩ := .mk hr
  rw [collections, collect_append, List.mem_append] at hs
  -- what was collected before is what the buffers still hold, and what this step collects it reads there
  rcases hs with hs | hs
  · obtain ⟨hj, rfl⟩ := ih samples hs
    obtain ⟨hj', hm⟩ := merged_step hW hrun hstep hj
    exact ⟨hj', hm.symm⟩
  · cases ev with
    | collect samples' =>
      obtain rfl : samples = samples' := by simpa using hs
      rcases t with w | i
      · cases (hr : WorkerRule w _ _ _ _ _)
      · have hknow := SummaryPc.knows hW hrun i
        generalize hp : d.pc (.inr i) = q at hr
        cases (hr : ClientRule capacity i _ _ _ _ _) with
        | sum h =>
          have hq := hknow _ hp
          cases h with
          | collect => exact ⟨hq.2, rfl⟩
          | collect_last => exact ⟨hq.2, rfl⟩
    | _ => simp [Event.collected] at hs

end Collect

end Engine

end TaskEngine
