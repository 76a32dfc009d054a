import Mathlib.Data.List.Sort
import TaskEngine.Core.Task

/-!
# TaskEngine.Metrics.RunSummary — what a run did

`run_summary.cpp`: the nearest-rank percentile, the distribution of one duration, and `summarize`, a
function of the samples and of the rejection count.  `std::size_t` wraps at `2 ^ 64`; a sum of
durations past the signed 64-bit range, which the source leaves undefined, wraps too.
-/

namespace TaskEngine

/-! ## Distributions -/

section Stats

structure DurationStats where
  count : ℕ
  min : Duration
  p50 : Duration
  p95 : Duration
  max : Duration
  total : Duration
  deriving DecidableEq

/-- `DurationStats{}`. -/
def DurationStats.zero : DurationStats := ⟨0, 0, 0, 0, 0, 0⟩

/-- Zero for an empty sample, else the truncated quotient; the count is cast to a signed 64-bit
count. -/
def DurationStats.mean (stats : DurationStats) : Duration :=
  if stats.count = 0 then 0 else stats.total.tdiv (Int.bmod stats.count (2 ^ 64))

/-- Index of the `percent`-th percentile of `n` sorted values, counting from zero. -/
def nearest_rank_index (percent n : ℕ) : ℕ :=
  if n = 0 then 0
  else
    let rank := (percent * n + 99) % 2 ^ 64 / 100
    let clamped := min (max rank 1) n
    clamped - 1

/-- `total += value`, on 64-bit counts. -/
def Duration.add (total value : Duration) : Duration := Int.bmod (total + value) (2 ^ 64)

/-- `stats_from`. -/
def stats_from (values : List Duration) : DurationStats :=
  let sorted := values.insertionSort (· ≤ ·)
  match sorted with
  | [] => .zero
  | first :: _ =>
    { count := values.length
      min := first
      max := sorted.getLastD 0
      p50 := sorted.getD (nearest_rank_index 50 values.length) 0
      p95 := sorted.getD (nearest_rank_index 95 values.length) 0
      total := sorted.foldl Duration.add 0 }

end Stats

/-! ## Summaries -/

section Summaries

structure RunSummary where
  total : ℕ
  succeeded : ℕ
  failed : ℕ
  rejected : ℕ
  queue_wait : DurationStats
  execution_time : DurationStats
  total_latency : DurationStats
  deriving DecidableEq

/-- The `switch` of the loop of `summarize`. -/
def RunSummary.tally (summary : RunSummary) (sample : Sample) : RunSummary :=
  match sample.state with
  | .Succeeded => { summary with succeeded := (summary.succeeded + 1) % 2 ^ 64 }
  | .Failed => { summary with failed := (summary.failed + 1) % 2 ^ 64 }
  | .Rejected => { summary with rejected := (summary.rejected + 1) % 2 ^ 64 }
  | .Queued | .Running => summary

def summarize (samples : List Sample) (rejected : ℕ) : RunSummary :=
  let start : RunSummary := ⟨(samples.length + rejected) % 2 ^ 64, 0, 0, rejected, .zero, .zero, .zero⟩
  { samples.foldl RunSummary.tally start with
    queue_wait := stats_from (samples.map fun sample => sample.timings.queue_wait)
    execution_time := stats_from (samples.map fun sample => sample.timings.execution_time)
    total_latency := stats_from (samples.map fun sample => sample.timings.total_latency) }

/-- The counts of a summary are values of `std::size_t`. -/
structure RunSummary.Fits (summary : RunSummary) : Prop where
  succeeded : summary.succeeded < 2 ^ 64
  failed : summary.failed < 2 ^ 64
  rejected : summary.rejected < 2 ^ 64

theorem RunSummary.Fits.tally {summary : RunSummary} (h : summary.Fits) (sample : Sample) :
    (summary.tally sample).Fits := by
  have hmod : ∀ n : ℕ, n % 2 ^ 64 < 2 ^ 64 := fun n => Nat.mod_lt _ (Nat.two_pow_pos 64)
  unfold RunSummary.tally
  split
  · exact ⟨hmod _, h.failed, h.rejected⟩
  · exact ⟨h.succeeded, hmod _, h.rejected⟩
  · exact ⟨h.succeeded, h.failed, hmod _⟩
  · exact h
  · exact h

theorem RunSummary.Fits.tally_eq {summary : RunSummary} (h : summary.Fits) (sample : Sample) :
    (summary.tally sample).total = summary.total ∧
    (summary.tally sample).succeeded =
      (summary.succeeded + if sample.state = .Succeeded then 1 else 0) % 2 ^ 64 ∧
    (summary.tally sample).failed =
      (summary.failed + if sample.state = .Failed then 1 else 0) % 2 ^ 64 ∧
    (summary.tally sample).rejected =
      (summary.rejected + if sample.state = .Rejected then 1 else 0) % 2 ^ 64 := by
  have hs := Nat.mod_eq_of_lt h.succeeded
  have hf := Nat.mod_eq_of_lt h.failed
  have hr := Nat.mod_eq_of_lt h.rejected
  unfold RunSummary.tally
  cases sample.state <;> simp only [reduceCtorEq, if_false, if_true, Nat.add_zero, hs, hf, hr, and_self]

/-- The loop of `summarize` adds to each count the samples of its state, modulo `2 ^ 64`. -/
theorem foldl_tally (samples : List Sample) {summary : RunSummary} (h : summary.Fits) :
    (samples.foldl RunSummary.tally summary).total = summary.total ∧
    (samples.foldl RunSummary.tally summary).succeeded =
      (summary.succeeded + samples.countP (fun s => s.state = .Succeeded)) % 2 ^ 64 ∧
    (samples.foldl RunSummary.tally summary).failed =
      (summary.failed + samples.countP (fun s => s.state = .Failed)) % 2 ^ 64 ∧
    (samples.foldl RunSummary.tally summary).rejected =
      (summary.rejected + samples.countP (fun s => s.state = .Rejected)) % 2 ^ 64 := by
  induction samples generalizing summary with
  | nil =>
    exact ⟨rfl, (Nat.mod_eq_of_lt h.succeeded).symm, (Nat.mod_eq_of_lt h.failed).symm,
      (Nat.mod_eq_of_lt h.rejected).symm⟩
  | cons sample samples ih =>
    obtain ⟨t1, t2, t3, t4⟩ := h.tally_eq sample
    obtain ⟨h1, h2, h3, h4⟩ := ih (h.tally sample)
    have hadd : ∀ a x c : ℕ, ((a + x) % 2 ^ 64 + c) % 2 ^ 64 = (a + (c + x)) % 2 ^ 64 := by
      intro a x c
      rw [Nat.mod_add_mod, Nat.add_assoc, Nat.add_comm x c]
    simp only [List.foldl_cons, List.countP_cons, decide_eq_true_eq]
    exact ⟨h1.trans t1, by rw [h2, t2, hadd], by rw [h3, t3, hadd], by rw [h4, t4, hadd]⟩

/-- **The counts of a summary**: the samples of each state, with the rejection count given. -/
theorem summarize_counts (samples : List Sample) {rejected : ℕ} (hr : rejected < 2 ^ 64) :
    (summarize samples rejected).total = (samples.length + rejected) % 2 ^ 64 ∧
    (summarize samples rejected).succeeded = samples.countP (fun s => s.state = .Succeeded) % 2 ^ 64 ∧
    (summarize samples rejected).failed = samples.countP (fun s => s.state = .Failed) % 2 ^ 64 ∧
    (summarize samples rejected).rejected =
      (rejected + samples.countP (fun s => s.state = .Rejected)) % 2 ^ 64 := by
  have hfits : RunSummary.Fits
      ⟨(samples.length + rejected) % 2 ^ 64, 0, 0, rejected, .zero, .zero, .zero⟩ :=
    ⟨Nat.two_pow_pos 64, Nat.two_pow_pos 64, hr⟩
  simpa [summarize] using foldl_tally samples hfits

end Summaries

end TaskEngine
