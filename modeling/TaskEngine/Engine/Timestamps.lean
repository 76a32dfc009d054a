import TaskEngine.Engine.Collect
import TaskEngine.Metrics.Reference
import TaskEngine.Pool.Timestamps

/-!
# TaskEngine.Engine.Timestamps — what a run reports of its instants

The threads of an engine are ordered as those of its pool, and by `shutdown_mutex_` in `summary`.  With a
clock that does not decrease along this order, every result, every sample and every summary is as it should
be (`causal_timestamps`).
-/

namespace TaskEngine

open Interleaving

namespace Engine

variable {W : ℕ} {ι : Type}

/-! ## The order of the threads -/

section Clock

def Event.acquires : Event W → List (ThreadPool.SyncObject W)
  | .pool ev => ev.acquires
  | .check _ => [.shutdown_mutex]
  | _ => []

def Event.releases (t : Thread W ι) : Event W → List (ThreadPool.SyncObject W)
  | .pool ev => ev.releases t
  | .check _ => [.shutdown_mutex]
  | _ => []

def Event.readings : Event W → List TimePoint
  | .pool ev => ev.readings
  | _ => []

/-- The order of the threads of an engine and their readings of `steady_clock`. -/
def clock : Sync (Thread W ι) (Event W) (ThreadPool.SyncObject W) TimePoint where
  acquires l := l.2.acquires
  releases l := l.2.releases l.1
  reads l := l.2.readings

theorem clock_sees : (clock (W := W) (ι := ι)).Sees ThreadPool.clock Event.pool? where
  acquires _ ev ev' h := by cases ev <;> cases h; exact fun _ => id
  releases _ ev ev' h := by cases ev <;> cases h; exact fun _ => id
  reads _ ev ev' h := by cases ev <;> cases h; exact fun _ => id

theorem pool_monotone {log : List (Thread W ι × Event W)} (h : clock.Monotone log) :
    ThreadPool.clock.Monotone (poolLog log) :=
  h.seen clock_sees

end Clock

/-! ## Summaries -/

section Summaries

/-- The summary returned by a step. -/
def Event.summarized? : Event W → List RunSummary
  | .summarized (.ok s) => [s]
  | _ => []

/-- The summaries returned. -/
abbrev summaries (log : List (Thread W ι × Event W)) : List RunSummary := collect Event.summarized? log

/-- The summary is one of samples collected in the log. -/
def Collected (log : List (Thread W ι × Event W)) (s : RunSummary) : Prop :=
  ∃ samples ∈ collections log, ∃ rejected, s = summarize samples rejected

/-- What a client in `summary` has collected. -/
def ClientPc.Collects (log : List (Thread W ι × Event W)) : ClientPc → Prop
  | .summing (.collected samples) => samples ∈ collections log
  | .summing (.done (.ok s)) => Collected log s
  | _ => True

theorem Collected.snoc {log : List (Thread W ι × Event W)} {s : RunSummary} (h : Collected log s)
    (l : Thread W ι × Event W) : Collected (log ++ [l]) s := by
  obtain ⟨samples, hs, rejected, rfl⟩ := h
  exact ⟨samples, by simp [hs], rejected, rfl⟩

theorem ClientPc.Collects.snoc {log : List (Thread W ι × Event W)} {p : ClientPc} (h : p.Collects log)
    (l : Thread W ι × Event W) : p.Collects (log ++ [l]) := by
  unfold ClientPc.Collects at h ⊢
  split at h
  · simp [h]
  · exact h.snoc l
  · trivial

variable [DecidableEq ι] {capacity : ℕ} {c : System W ι} {log : List (Thread W ι × Event W)}

/-- A summary returned is one of samples collected. -/
def collectOutline (capacity : ℕ) : Outline (rules (W := W) (ι := ι) capacity) where
  Global log _ := ∀ s ∈ summaries log, Collected log s
  At
    | .inl _, _, _, _ => True
    | .inr _, p, log, _ => ClientPc.Collects log p
  own log t m p ev m' p' hg hat h := by
    have hold : ev.summarized? = [] → ∀ s ∈ summaries (log ++ [(t, ev)]), Collected (log ++ [(t, ev)]) s :=
      fun hev s hs => (hg s (by simpa [hev] using hs)).snoc _
    rcases t with w | i
    · cases (h : WorkerRule w _ _ _ _ _) with
      | pool _ => exact ⟨hold rfl, trivial⟩
    · cases (h : ClientRule capacity i _ _ _ _ _) with
      | sum h =>
        cases h with
        | collect => exact ⟨hold rfl, by simp [ClientPc.Collects]⟩
        | collect_last => exact ⟨hold rfl, m.pool.merged, by simp, _, rfl⟩
        | @load samples =>
          have hmem : samples ∈ collections log := hat
          exact ⟨hold rfl, samples, by simp [hmem], _, rfl⟩
        | _ => exact ⟨hold rfl, trivial⟩
      | @summarized result =>
        refine ⟨?_, trivial⟩
        cases result with
        | error e => exact hold rfl
        | ok s =>
          intro s' hs'
          rcases List.mem_append.mp (by simpa [Event.summarized?] using hs' : s' ∈ summaries log ++ [s]) with
            hs' | hs'
          · exact (hg s' hs').snoc _
          · rw [List.mem_singleton.mp hs']
            exact Collected.snoc hat _
      | _ => exact ⟨hold rfl, trivial⟩
  others log t _ _ ev _ _ _ _ _ u q _ hq := by
    rcases u with w | i
    · trivial
    · exact ClientPc.Collects.snoc hq _

/-- **A summary returned** is one of the samples that the buffers hold. -/
theorem summaries_eq [Fintype ι] (hW : 0 < W) (h : Run (rules capacity) init log c) :
    ∀ s ∈ summaries log, ∃ rejected, s = summarize c.shared.pool.merged rejected := by
  intro s hs
  have hall := (collectOutline capacity).run h
    ⟨fun _ hl => absurd hl List.not_mem_nil, fun t => by rcases t with w | i <;> exact trivial⟩
  obtain ⟨samples, hsamples, rejected, rfl⟩ : Collected log s := hall.1 s hs
  exact ⟨rejected, by rw [(collections_eq hW h samples hsamples).2]⟩

end Summaries

/-! ## Instants in order -/

section Causal

variable [DecidableEq ι] [Fintype ι] {capacity : ℕ} {c : System W ι} {log : List (Thread W ι × Event W)}

omit [Fintype ι] in
theorem merged_causal (h : Run (rules capacity) init log c) (hclock : clock.Monotone log) :
    ∀ s ∈ c.shared.pool.merged, s.timings.Causal := by
  intro s hs
  obtain ⟨w, -, hs⟩ := List.mem_flatMap.mp hs
  exact (ThreadPool.timed (pool_run_init h) (pool_monotone hclock)).1.samples w s hs

/-- **Causal timestamps.**  With a clock whose readings never decrease along the order of the threads: every
result delivered and every sample recorded has its instants in order, so none of its durations is negative;
a `Rejected` result has no execution window; what one `shutdown_now` has rejected shares one instant; and
where the exact sums fit, no figure of a summary returned is negative. -/
theorem causal_timestamps (hW : 0 < W) (h : Run (rules capacity) init log c) (hclock : clock.Monotone log) :
    (∀ r, .value r ∈ c.shared.pool.promises →
      r.timings.submitted ≤ r.timings.dequeued ∧ r.timings.dequeued ≤ r.timings.finished ∧
      (∀ kind : Measurement, 0 ≤ kind.of r.timings) ∧
      (r.state = .Rejected → r.timings.dequeued = r.timings.finished ∧ r.timings.execution_time = 0)) ∧
    (∀ w, ∀ s ∈ c.shared.pool.samples w,
      s.timings.submitted ≤ s.timings.dequeued ∧ s.timings.dequeued ≤ s.timings.finished ∧
      ∀ kind : Measurement, 0 ≤ kind.of s.timings) ∧
    (∀ t es, (t, .pool (.count es)) ∈ log → ∃ finished, ∀ e ∈ es,
      c.shared.pool.promises[e.promise]? = some (.value (e.rejection finished))) ∧
    ∀ s ∈ summaries log, (∀ kind : Measurement, (kind.values c.shared.pool.merged).sum < 2 ^ 63) →
      ∀ kind, (s.stats kind).Nonneg := by
  have hpool := pool_run_init h
  have htimed := (ThreadPool.timed hpool (pool_monotone hclock)).1
  refine ⟨?_, ?_, ?_, ?_⟩
  · intro r hr
    obtain ⟨hcausal, hrejected⟩ := ThreadPool.causal_of_value hpool (pool_monotone hclock) hr
    refine ⟨hcausal.dequeued, hcausal.finished, fun kind => kind.of_nonneg hcausal, fun hst => ⟨hrejected hst, ?_⟩⟩
    rw [TaskTimings.execution_time, hrejected hst, sub_self]
  · intro w s hs
    have hcausal := htimed.samples w s hs
    exact ⟨hcausal.dequeued, hcausal.finished, fun kind => kind.of_nonneg hcausal⟩
  · intro t es hl
    exact ThreadPool.rejected_together hW hpool (mem_poolLog.mpr hl)
  · intro s hs hsum kind
    obtain ⟨rejected, rfl⟩ := summaries_eq hW h s hs
    rw [summarize_stats]
    exact stats_from_nonneg (kind.values_nonneg (merged_causal h hclock)) (hsum kind)

/-- In the run of the abort, the task abandoned has no execution window, and the summary taken after it has
no negative figure. -/
theorem causal_timestamps_summaryRun :
    (∃ finished, summaryRun.2.shared.pool.promises[1]? =
      some (.value (TaskEnvelope.rejection ⟨2, ⟨.returns⟩, 6, 1⟩ finished))) ∧
    ∀ kind, ((summarize summaryRun.2.shared.pool.merged 2).stats kind).Nonneg := by
  have hs : Step (rules 1) summaryRun.2
      (.inr 0, .summarized (.ok (summarize summaryRun.2.shared.pool.merged 2)))
      ⟨summaryRun.2.shared, Function.update summaryRun.2.pc (.inr 0) (.pool .idle)⟩ :=
    .mk (show ClientRule 1 0 summaryRun.2.shared
      (.summing (.done (.ok (summarize summaryRun.2.shared.pool.merged 2)))) _ summaryRun.2.shared
      (.pool .idle) from .summarized)
  have hall := causal_timestamps (by decide)
    ((play_run act_sound rfl : Run (rules 1) init summaryRun.1 summaryRun.2).tail hs)
    (Sync.monotone_of_pairwise (by decide))
  obtain ⟨finished, hf⟩ := hall.2.2.1 (.inr 1) [⟨2, ⟨.returns⟩, 6, 1⟩]
    (List.mem_of_getElem? (i := 20) rfl)
  refine ⟨⟨finished, hf _ (List.mem_singleton.mpr rfl)⟩,
    hall.2.2.2 _ ?_ fun kind => by cases kind <;> decide⟩
  exact (mem_collect _).mpr ⟨_, List.mem_append_right _ (List.mem_singleton.mpr rfl), List.mem_singleton.mpr rfl⟩

end Causal

end Engine

end TaskEngine
