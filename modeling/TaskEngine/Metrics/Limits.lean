import Mathlib.Algebra.Order.Floor.Div
import TaskEngine.Metrics.Reference

/-!
# TaskEngine.Metrics.Limits — where the 64-bit arithmetic of a summary is exact

The rank of a percentile is computed from `percent * n + 99` in `std::size_t`, and a total is added up in
a signed 64-bit count, the type of one duration.  Both wrap, and nothing checks it.
`nearest_rank_index_exact` and `totals_exact_iff` say for which inputs the figures are right all the same.
-/

namespace TaskEngine

/-! ## The rank -/

section Rank

/-- The rank by its definition, over unbounded integers: the rounded-up percentage, clamped, less 1. -/
def nearestRank (percent n : ℕ) : ℕ := min (max ((percent * n) ⌈/⌉ 100) 1) n - 1

/-- `percent * n + 99` does not wrap, or wraps to a value that is clamped to `n` all the same. -/
def RankFits (percent n : ℕ) : Prop :=
  percent * n + 99 < 2 ^ 64 ∨ 100 * n ≤ (percent * n + 99) % 2 ^ 64

variable {percent percent' n n' : ℕ}

theorem nearestRank_eq (percent n : ℕ) :
    nearestRank percent n = min (max ((percent * n + 99) / 100) 1) n - 1 := rfl

theorem nearestRank_mono (hp : percent ≤ percent') (hn : n ≤ n') :
    nearestRank percent n ≤ nearestRank percent' n' := by
  have hrank : (percent * n + 99) / 100 ≤ (percent' * n' + 99) / 100 :=
    Nat.div_le_div_right (Nat.add_le_add_right (Nat.mul_le_mul hp hn) 99)
  rw [nearestRank_eq, nearestRank_eq]
  omega

/-- From 100 per cent on, the rank is the last. -/
theorem nearestRank_of_le (hp : 100 ≤ percent) : nearestRank percent n = n - 1 := by
  have := Nat.mul_le_mul_right n hp
  rw [nearestRank_eq]
  omega

theorem nearest_rank_index_lt (hn : 1 ≤ n) : nearest_rank_index percent n < n := by
  rw [nearest_rank_index, if_neg (by omega)]
  dsimp only
  omega

/-- The index is the rank exactly where the product fits. -/
theorem nearest_rank_index_eq_iff (hp : percent < 2 ^ 32) (hn : 1 ≤ n) :
    nearest_rank_index percent n = nearestRank percent n ↔ RankFits percent n := by
  have hone : n = 1 → percent * n < 2 ^ 32 := by
    rintro rfl
    omega
  rw [nearestRank_eq, nearest_rank_index, if_neg (by omega), RankFits]
  generalize percent * n = product at *
  dsimp only
  omega

/-- **The percentile index**: below `n` always, and the nearest rank exactly where `RankFits`; there it
grows with the percentage and with `n`, and is the last index from 100 per cent on. -/
theorem nearest_rank_index_exact (hp : percent < 2 ^ 32) (hn : 1 ≤ n) :
    (nearest_rank_index percent n = nearestRank percent n ↔ RankFits percent n) ∧
    nearest_rank_index percent n < n ∧
    (∀ percent', percent ≤ percent' → percent' < 2 ^ 32 → RankFits percent n → RankFits percent' n →
      nearest_rank_index percent n ≤ nearest_rank_index percent' n) ∧
    (∀ n', n ≤ n' → RankFits percent n → RankFits percent n' →
      nearest_rank_index percent n ≤ nearest_rank_index percent n') ∧
    (100 ≤ percent → (nearest_rank_index percent n = n - 1 ↔ RankFits percent n)) := by
  refine ⟨nearest_rank_index_eq_iff hp hn, nearest_rank_index_lt hn, ?_, ?_, ?_⟩
  · intro percent' hle hp' hr hr'
    rw [(nearest_rank_index_eq_iff hp hn).mpr hr, (nearest_rank_index_eq_iff hp' hn).mpr hr']
    exact nearestRank_mono hle le_rfl
  · intro n' hle hr hr'
    rw [(nearest_rank_index_eq_iff hp hn).mpr hr, (nearest_rank_index_eq_iff hp (hn.trans hle)).mpr hr']
    exact nearestRank_mono le_rfl hle
  · intro h100
    rw [← nearest_rank_index_eq_iff hp hn, nearestRank_of_le h100]

theorem nearest_rank_index_exact_hundred : nearest_rank_index 95 100 = nearestRank 95 100 :=
  (nearest_rank_index_exact (by decide) (by decide)).1.mpr (.inl (by decide))

/-- Of `2 ^ 60` values the last is not the 100th percentile, and the 95th percentile stands behind it. -/
theorem nearest_rank_index_wraps :
    nearest_rank_index 95 (2 ^ 60) ≠ nearestRank 95 (2 ^ 60) ∧
    nearest_rank_index 100 (2 ^ 60) ≠ 2 ^ 60 - 1 ∧
    nearest_rank_index 100 (2 ^ 60) < nearest_rank_index 95 (2 ^ 60) ∧
    nearest_rank_index 100 (2 ^ 60) < nearest_rank_index 100 (2 ^ 57) := by
  decide

end Rank

/-! ## Totals -/

section Totals

/-- No running total of `stats_from`, which adds up the sorted values, leaves the signed 64-bit range. -/
def AddsExactly (values : List Duration) : Prop :=
  ∀ front, front <+: values.insertionSort (· ≤ ·) → -2 ^ 63 ≤ front.sum ∧ front.sum < 2 ^ 63

/-- The total is added up without overflow, it is the exact sum, and the mean lies between the extremes. -/
structure TotalExact (stats : DurationStats) (values : List Duration) : Prop where
  adds : AddsExactly values
  total : stats.total = values.sum
  mean : values ≠ [] → stats.min ≤ stats.mean ∧ stats.mean ≤ stats.max

/-- Of durations that are not negative, the last running total is the largest. -/
theorem addsExactly_iff {values : List Duration} (h : ∀ x ∈ values, 0 ≤ x) :
    AddsExactly values ↔ values.sum < 2 ^ 63 := by
  have hperm := values.perm_insertionSort (· ≤ ·)
  constructor
  · intro hadds
    rw [← hperm.sum_eq]
    exact (hadds _ List.prefix_rfl).2
  · intro hsum front hfront
    exact (representable_of_nonneg h hsum).perm hperm.symm _
      (Multiset.coe_le.mpr hfront.sublist.subperm)

theorem totalExact_iff {values : List Duration} (h : ∀ x ∈ values, 0 ≤ x) (hn : values.length < 2 ^ 63) :
    TotalExact (stats_from values) values ↔ values.sum < 2 ^ 63 := by
  rw [← addsExactly_iff h]
  constructor
  · intro hexact
    exact hexact.adds
  · intro hadds
    have htotal := stats_from_total (representable_of_nonneg h ((addsExactly_iff h).mp hadds))
    refine ⟨hadds, htotal, ?_⟩
    intro hv
    apply DurationStats.mean_between (stats_from_count values) htotal hv hn
    · exact fun x hx => (stats_from_min hv).2 hx
    · exact fun x hx => (stats_from_max hv).2 hx

variable {samples : List Sample}

/-- The latencies add up to more than the waits and the execution times. -/
theorem sum_le_latency (h : ∀ s ∈ samples, s.timings.Causal) (kind : Measurement) :
    (kind.values samples).sum ≤ (Measurement.total_latency.values samples).sum := by
  have hw := List.sum_nonneg (Measurement.queue_wait.values_nonneg h)
  have he := List.sum_nonneg (Measurement.execution_time.values_nonneg h)
  rw [sum_latency]
  cases kind with
  | queue_wait => exact le_add_of_nonneg_right he
  | execution_time => exact le_add_of_nonneg_left hw
  | total_latency => exact (sum_latency samples).le

/-- **The totals of a summary are exact** as long as the latencies add up to less than `2 ^ 63`, however
small each of them is.  A `std::vector` has fewer than `2 ^ 63` elements. -/
theorem totals_exact_iff (h : ∀ s ∈ samples, s.timings.Causal) (hn : samples.length < 2 ^ 63) (rejected : ℕ) :
    (∀ kind : Measurement, TotalExact ((summarize samples rejected).stats kind) (kind.values samples)) ↔
      (Measurement.total_latency.values samples).sum < 2 ^ 63 := by
  have hexact : ∀ kind : Measurement,
      TotalExact ((summarize samples rejected).stats kind) (kind.values samples) ↔
        (kind.values samples).sum < 2 ^ 63 := by
    intro kind
    rw [summarize_stats]
    exact totalExact_iff (kind.values_nonneg h) (by simpa [Measurement.values] using hn)
  simp only [hexact]
  constructor
  · intro hall
    exact hall .total_latency
  · intro hsum kind
    exact (sum_le_latency h kind).trans_lt hsum

theorem totals_exact_twoSamples :
    TotalExact ((summarize twoSamples 1).stats .total_latency)
      (Measurement.total_latency.values twoSamples) :=
  (totals_exact_iff (by decide) (by decide) 1).mpr (by decide) .total_latency

theorem stats_from_replicate {n : ℕ} (hn : 0 < n) (value : Duration) :
    (stats_from (List.replicate n value)).count = n ∧ (stats_from (List.replicate n value)).min = value ∧
    (stats_from (List.replicate n value)).total = Int.bmod (n * value) (2 ^ 64) := by
  have hne : List.replicate n value ≠ [] := by
    rw [ne_eq, List.replicate_eq_nil_iff]
    exact hn.ne'
  refine ⟨?_, (List.mem_replicate.mp (stats_from_min hne).1).2, ?_⟩
  · rw [stats_from_count, List.length_replicate]
  · rw [stats_from_total_eq, List.sum_replicate, nsmul_eq_mul]

/-- `n` tasks that have each waited for a hundred seconds. -/
def longWaits (n : ℕ) : List Sample :=
  (List.range n).map fun i => ⟨i + 1, .Succeeded, ⟨0, 10 ^ 11, 10 ^ 11⟩⟩

theorem longWaits_waits (n : ℕ) :
    Measurement.queue_wait.values (longWaits n) = List.replicate n (10 ^ 11) := by
  simp only [Measurement.values, longWaits, List.map_map, Function.comp_def, Measurement.of,
    TaskTimings.queue_wait, sub_zero, List.map_const', List.length_range]

theorem longWaits_causal (n : ℕ) : ∀ s ∈ longWaits n, s.timings.Causal ∧ ∀ kind,
    0 ≤ Measurement.of s.timings kind ∧ Measurement.of s.timings kind < 2 ^ 63 := by
  intro s hs
  obtain ⟨i, -, rfl⟩ := List.mem_map.mp hs
  refine ⟨⟨by norm_num, by norm_num⟩, ?_⟩
  intro kind
  cases kind <;>
    norm_num [Measurement.of, TaskTimings.queue_wait, TaskTimings.execution_time, TaskTimings.total_latency]

theorem longWaits_stats {n : ℕ} (hn : 0 < n) :
    (summarize (longWaits n) 0).queue_wait.count = n ∧
    (summarize (longWaits n) 0).queue_wait.min = 10 ^ 11 ∧
    (summarize (longWaits n) 0).queue_wait.total = Int.bmod (n * 10 ^ 11) (2 ^ 64) ∧
    (Measurement.queue_wait.values (longWaits n)).sum = n * 10 ^ 11 := by
  have hstats : (summarize (longWaits n) 0).queue_wait = stats_from (List.replicate n (10 ^ 11)) := by
    rw [← longWaits_waits]
    exact summarize_stats _ _ .queue_wait
  obtain ⟨hcount, hmin, htotal⟩ := stats_from_replicate hn (10 ^ 11)
  rw [hstats, longWaits_waits, List.sum_replicate, nsmul_eq_mul]
  exact ⟨hcount, hmin, htotal, rfl⟩

/-- **A hundred million of them overflow**: the total is negative, and so is the mean. -/
theorem totals_overflow :
    (∀ s ∈ longWaits 100000000, s.timings.Causal ∧ ∀ kind,
      0 ≤ Measurement.of s.timings kind ∧ Measurement.of s.timings kind < 2 ^ 63) ∧
    ¬ AddsExactly (Measurement.queue_wait.values (longWaits 100000000)) ∧
    (summarize (longWaits 100000000) 0).queue_wait.total ≠
      (Measurement.queue_wait.values (longWaits 100000000)).sum ∧
    (summarize (longWaits 100000000) 0).queue_wait.mean <
      (summarize (longWaits 100000000) 0).queue_wait.min := by
  obtain ⟨hcount, hmin, htotal, hsum⟩ := longWaits_stats (show 0 < 100000000 by decide)
  have hnonneg := Measurement.queue_wait.values_nonneg fun s hs => (longWaits_causal 100000000 s hs).1
  have hwrap : Int.bmod (((100000000 : ℕ) : ℤ) * 10 ^ 11) (2 ^ 64) = -8446744073709551616 := by decide
  have hcast : Int.bmod ((100000000 : ℕ) : ℤ) (2 ^ 64) = 100000000 := by decide
  rw [hwrap] at htotal
  refine ⟨longWaits_causal _, ?_, ?_, ?_⟩
  · rw [addsExactly_iff hnonneg, hsum]
    norm_num
  · rw [htotal, hsum]
    norm_num
  · rw [DurationStats.mean, hcount, if_neg (by decide), hcast, htotal, hmin]
    decide

end Totals

end TaskEngine
