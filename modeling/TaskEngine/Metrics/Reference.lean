import Mathlib.Data.List.GetD
import TaskEngine.Metrics.RunSummary
import TaskEngine.Statistics.NearestRank

/-!
# TaskEngine.Metrics.Reference — a summary against its definition by counting

`summarize` depends only on the multiset of the samples, and its distributions are the nearest-rank
ones, as long as no count and no sum of durations leaves its type (`summarize_reference`).
-/

namespace TaskEngine

open NearestRank

/-! ## The rank -/

section Rank

/-- Where nothing wraps, the index is the rounded-up percentage of `n`, clamped to `1, …, n`, less 1. -/
theorem nearest_rank_index_eq {percent n : ℕ} (hn : 0 < n) (hfit : percent * n + 99 < 2 ^ 64) :
    nearest_rank_index percent n = min (max ((percent * n + 99) / 100) 1) n - 1 := by
  rw [nearest_rank_index, if_neg hn.ne', Nat.mod_eq_of_lt hfit]

/-- A percentage has its rank within the list. -/
theorem nearest_rank_index_spec {percent n : ℕ} (hn : 0 < n) (hp : percent ≤ 100)
    (hfit : percent * n + 99 < 2 ^ 64) : nearest_rank_index percent n < n ∧
      nearest_rank_index percent n + 1 = max ((percent * n + 99) / 100) 1 := by
  have := Nat.mul_le_mul_right n hp
  rw [nearest_rank_index_eq hn hfit]
  omega

end Rank

/-! ## Sums -/

section Sums

/-- Every sub-multiset of the durations has a sum within the signed 64-bit range. -/
def Representable (values : List Duration) : Prop :=
  ∀ s ≤ (values : Multiset Duration), -2 ^ 63 ≤ s.sum ∧ s.sum < 2 ^ 63

theorem Representable.perm {values values' : List Duration} (h : Representable values)
    (hp : values.Perm values') : Representable values' := by
  unfold Representable
  rw [← Multiset.coe_eq_coe.mpr hp]
  exact h

/-- Of durations that are not negative, only the sum of all has to fit. -/
theorem representable_of_nonneg {values : List Duration} (h : ∀ x ∈ values, 0 ≤ x)
    (hsum : values.sum < 2 ^ 63) : Representable values := by
  intro s hs
  obtain ⟨rest, hrest⟩ := Multiset.le_iff_exists_add.mp hs
  have hmem : ∀ x ∈ s + rest, 0 ≤ x := fun x hx => h x (by rwa [← hrest] at hx)
  have hs0 : 0 ≤ s.sum := Multiset.sum_nonneg fun x hx => hmem x (Multiset.mem_add.mpr (.inl hx))
  have hr0 : 0 ≤ rest.sum := Multiset.sum_nonneg fun x hx => hmem x (Multiset.mem_add.mpr (.inr hx))
  have hall : values.sum = s.sum + rest.sum := by
    rw [← Multiset.sum_add, ← hrest, Multiset.sum_coe]
  refine ⟨le_trans (by norm_num) hs0, lt_of_le_of_lt ?_ hsum⟩
  rw [hall]
  exact le_add_of_nonneg_right hr0

/-- The running sum is the exact sum, wrapped once: on the way it may wrap as it likes. -/
theorem foldl_add_eq (values : List Duration) (a : Duration) :
    values.foldl Duration.add (Int.bmod a (2 ^ 64)) = Int.bmod (a + values.sum) (2 ^ 64) := by
  induction values generalizing a with
  | nil => simp
  | cons value values ih =>
    have hadd : Duration.add (Int.bmod a (2 ^ 64)) value = Int.bmod (a + value) (2 ^ 64) :=
      Int.bmod_add_bmod
    rw [List.foldl_cons, hadd, ih, List.sum_cons, add_assoc]

/-- A sum within the signed 64-bit range is not wrapped. -/
theorem bmod_of_fits {x : ℤ} (h : -2 ^ 63 ≤ x ∧ x < 2 ^ 63) : Int.bmod x (2 ^ 64) = x :=
  Int.bmod_eq_of_le (by have := h.1; omega) (by have := h.2; omega)

end Sums

/-! ## Distributions -/

section Distributions

/-- `stats` is the distribution of `values`, each figure by its definition. -/
structure DurationStats.Describes (stats : DurationStats) (values : List Duration) : Prop where
  count : stats.count = values.length
  total : stats.total = values.sum
  min : values ≠ [] → IsLeast {x | x ∈ values} stats.min
  p50 : values ≠ [] → IsPercentile 50 values stats.p50
  p95 : values ≠ [] → IsPercentile 95 values stats.p95
  max : values ≠ [] → IsGreatest {x | x ∈ values} stats.max

theorem stats_from_sorted {values : List Duration} (hv : values ≠ []) :
    ∃ (sorted : List Duration) (hne : sorted ≠ []), sorted.Perm values ∧ sorted.Pairwise (· ≤ ·) ∧
      stats_from values =
        { count := values.length
          min := sorted.head hne
          max := sorted.getLast hne
          p50 := sorted.getD (nearest_rank_index 50 values.length) 0
          p95 := sorted.getD (nearest_rank_index 95 values.length) 0
          total := sorted.foldl Duration.add 0 } := by
  have hperm := values.perm_insertionSort (· ≤ ·)
  have hne : values.insertionSort (· ≤ ·) ≠ [] := fun h => hv (List.perm_nil.mp (h ▸ hperm).symm)
  refine ⟨_, hne, hperm, List.pairwise_insertionSort _ _, ?_⟩
  unfold stats_from
  match values.insertionSort (· ≤ ·), hne with
  | first :: rest, _ => simp [List.getLastD_eq_getLast?, List.getLast?_eq_some_getLast]

theorem stats_from_total_eq (values : List Duration) :
    (stats_from values).total = Int.bmod values.sum (2 ^ 64) := by
  by_cases hv : values = []
  · subst hv
    rfl
  obtain ⟨sorted, hne, hperm, -, heq⟩ := stats_from_sorted hv
  have hfold := foldl_add_eq sorted 0
  rw [heq, ← hperm.sum_eq]
  rwa [zero_add, Int.zero_bmod] at hfold

theorem stats_from_total {values : List Duration} (hsum : Representable values) :
    (stats_from values).total = values.sum := by
  rw [stats_from_total_eq]
  exact bmod_of_fits (hsum _ le_rfl)

theorem stats_from_count (values : List Duration) : (stats_from values).count = values.length := by
  by_cases hv : values = []
  · subst hv
    rfl
  obtain ⟨sorted, hne, -, -, heq⟩ := stats_from_sorted hv
  rw [heq]

theorem stats_from_min {values : List Duration} (hv : values ≠ []) :
    IsLeast {x | x ∈ values} (stats_from values).min := by
  obtain ⟨sorted, hne, hperm, hpair, heq⟩ := stats_from_sorted hv
  rw [heq]
  refine ⟨hperm.mem_iff.mp (List.head_mem hne), ?_⟩
  intro x hx
  obtain ⟨j, hj, rfl⟩ := List.getElem_of_mem (hperm.mem_iff.mpr hx)
  rw [List.head_eq_getElem]
  exact (List.sortedLE_iff_pairwise.mpr hpair).getElem_le_getElem_of_le (Nat.zero_le j)

theorem stats_from_max {values : List Duration} (hv : values ≠ []) :
    IsGreatest {x | x ∈ values} (stats_from values).max := by
  obtain ⟨sorted, hne, hperm, hpair, heq⟩ := stats_from_sorted hv
  rw [heq]
  refine ⟨hperm.mem_iff.mp (List.getLast_mem hne), ?_⟩
  intro x hx
  obtain ⟨j, hj, rfl⟩ := List.getElem_of_mem (hperm.mem_iff.mpr hx)
  rw [List.getLast_eq_getElem]
  exact (List.sortedLE_iff_pairwise.mpr hpair).getElem_le_getElem_of_le (by omega)

/-- No figure is negative. -/
structure DurationStats.Nonneg (stats : DurationStats) : Prop where
  min : 0 ≤ stats.min
  p50 : 0 ≤ stats.p50
  p95 : 0 ≤ stats.p95
  max : 0 ≤ stats.max
  total : 0 ≤ stats.total

/-- Durations that are not negative have no negative figure, as long as their sum fits. -/
theorem stats_from_nonneg {values : List Duration} (h : ∀ x ∈ values, 0 ≤ x) (hsum : values.sum < 2 ^ 63) :
    (stats_from values).Nonneg := by
  by_cases hv : values = []
  · subst hv
    exact ⟨le_rfl, le_rfl, le_rfl, le_rfl, le_rfl⟩
  have htotal : 0 ≤ (stats_from values).total := by
    rw [stats_from_total (representable_of_nonneg h hsum)]
    exact List.sum_nonneg h
  obtain ⟨sorted, hne, hperm, -, heq⟩ := stats_from_sorted hv
  have hmem : ∀ x ∈ sorted, 0 ≤ x := fun x hx => h x (hperm.mem_iff.mp hx)
  have hget : ∀ n, 0 ≤ sorted.getD n 0 := by
    intro n
    rw [List.getD_eq_getElem?_getD]
    cases hn : sorted[n]? with
    | none => exact le_rfl
    | some x => exact hmem x (List.mem_of_getElem? hn)
  rw [heq] at htotal ⊢
  exact ⟨hmem _ (List.head_mem hne), hget _, hget _, hmem _ (List.getLast_mem hne), htotal⟩

/-- The distribution does not depend on the order. -/
theorem stats_from_perm {values values' : List Duration} (h : values.Perm values') :
    stats_from values = stats_from values' := by
  have hsort : values.insertionSort (· ≤ ·) = values'.insertionSort (· ≤ ·) :=
    ((values.perm_insertionSort _).trans (h.trans (values'.perm_insertionSort _).symm)).eq_of_pairwise'
      (List.pairwise_insertionSort _ _) (List.pairwise_insertionSort _ _)
  unfold stats_from
  rw [hsort, h.length_eq]

/-- **`stats_from` computes the nearest-rank distribution.** -/
theorem stats_from_describes {values : List Duration} (hn : 95 * values.length + 99 < 2 ^ 64)
    (hsum : Representable values) : (stats_from values).Describes values := by
  by_cases hv : values = []
  · subst hv
    exact ⟨rfl, rfl, fun h => absurd rfl h, fun h => absurd rfl h, fun h => absurd rfl h,
      fun h => absurd rfl h⟩
  obtain ⟨sorted, hne, hperm, hpair, heq⟩ := stats_from_sorted hv
  have hpos : 0 < values.length := List.length_pos_iff.mpr hv
  have hrank : ∀ percent, percent ≤ 95 →
      IsPercentile percent values (sorted.getD (nearest_rank_index percent values.length) 0) := by
    intro percent hp
    obtain ⟨hlt, hindex⟩ := nearest_rank_index_spec hpos (hp.trans (by omega))
      (show percent * values.length + 99 < 2 ^ 64 by
        have := Nat.mul_le_mul_right values.length hp
        omega)
    rw [List.getD_eq_getElem _ _ (by rwa [hperm.length_eq])]
    exact isPercentile_getElem hpair hperm _ hindex
  refine ⟨stats_from_count values, stats_from_total hsum, stats_from_min, ?_, ?_, stats_from_max⟩
  · rw [heq]
    exact fun _ => hrank 50 (by omega)
  · rw [heq]
    exact fun _ => hrank 95 le_rfl

variable {stats : DurationStats} {values : List Duration}

theorem DurationStats.Describes.ordered (h : stats.Describes values) (hv : values ≠ []) :
    stats.min ≤ stats.p50 ∧ stats.p50 ≤ stats.p95 ∧ stats.p95 ≤ stats.max :=
  ⟨(h.min hv).2 (h.p50 hv).mem, (h.p50 hv).mono (h.p95 hv) (by omega),
    (h.max hv).2 (h.p95 hv).mem⟩

/-- An exact total over a count that fits has its mean between any bounds of the values. -/
theorem DurationStats.mean_between (hcount : stats.count = values.length) (htotal : stats.total = values.sum)
    (hv : values ≠ []) (hn : values.length < 2 ^ 63) {lo hi : Duration} (hlo : ∀ x ∈ values, lo ≤ x)
    (hhi : ∀ x ∈ values, x ≤ hi) : lo ≤ stats.mean ∧ stats.mean ≤ hi := by
  have hpos : 0 < values.length := List.length_pos_iff.mpr hv
  have hcast : Int.bmod values.length (2 ^ 64) = values.length := bmod_of_fits (by omega)
  have hlow : lo * values.length ≤ values.sum := by
    have := List.card_nsmul_le_sum values lo hlo
    rwa [nsmul_eq_mul, mul_comm] at this
  have hhigh : values.sum ≤ hi * values.length := by
    have := List.sum_le_card_nsmul values hi hhi
    rwa [nsmul_eq_mul, mul_comm] at this
  have hlen : (0 : ℤ) < values.length := by exact_mod_cast hpos
  rw [DurationStats.mean, hcount, if_neg hpos.ne', hcast, htotal]
  constructor
  · calc lo = (lo * values.length).tdiv values.length := (Int.mul_tdiv_cancel _ hlen.ne').symm
      _ ≤ _ := Int.tdiv_le_tdiv hlen hlow
  · calc values.sum.tdiv values.length ≤ (hi * values.length).tdiv values.length :=
          Int.tdiv_le_tdiv hlen hhigh
      _ = _ := Int.mul_tdiv_cancel _ hlen.ne'

theorem DurationStats.Describes.mean (h : stats.Describes values) (hv : values ≠ [])
    (hn : 95 * values.length + 99 < 2 ^ 64) : stats.min ≤ stats.mean ∧ stats.mean ≤ stats.max := by
  apply DurationStats.mean_between h.count h.total hv (by omega)
  · exact fun x hx => (h.min hv).2 hx
  · exact fun x hx => (h.max hv).2 hx

end Distributions

/-! ## Summaries -/

section Summaries

/-- The three durations of which a summary has the distribution. -/
inductive Measurement
  | queue_wait
  | execution_time
  | total_latency

def Measurement.of (timings : TaskTimings) : Measurement → Duration
  | .queue_wait => timings.queue_wait
  | .execution_time => timings.execution_time
  | .total_latency => timings.total_latency

/-- Instants in order have no negative duration between them. -/
theorem Measurement.of_nonneg (kind : Measurement) {timings : TaskTimings} (h : timings.Causal) :
    0 ≤ kind.of timings := by
  obtain ⟨hd, hf⟩ := h
  cases kind with
  | queue_wait => exact sub_nonneg.mpr hd
  | execution_time => exact sub_nonneg.mpr hf
  | total_latency => exact sub_nonneg.mpr (hd.trans hf)

/-- The durations of one kind. -/
def Measurement.values (kind : Measurement) (samples : List Sample) : List Duration :=
  samples.map fun sample => kind.of sample.timings

theorem Measurement.values_nonneg (kind : Measurement) {samples : List Sample}
    (h : ∀ s ∈ samples, s.timings.Causal) : ∀ x ∈ kind.values samples, 0 ≤ x := by
  intro x hx
  obtain ⟨s, hs, rfl⟩ := List.mem_map.mp hx
  exact kind.of_nonneg (h s hs)

def RunSummary.stats (summary : RunSummary) : Measurement → DurationStats
  | .queue_wait => summary.queue_wait
  | .execution_time => summary.execution_time
  | .total_latency => summary.total_latency

theorem summarize_stats (samples : List Sample) (rejected : ℕ) (kind : Measurement) :
    (summarize samples rejected).stats kind = stats_from (kind.values samples) := by
  cases kind <;> rfl

attribute [ext] RunSummary

variable {samples samples' : List Sample} {rejected : ℕ}

theorem summarize_perm (hr : rejected < 2 ^ 64) (h : samples'.Perm samples) :
    summarize samples' rejected = summarize samples rejected := by
  obtain ⟨h1, h2, h3, h4⟩ := summarize_counts samples hr
  obtain ⟨h1', h2', h3', h4'⟩ := summarize_counts samples' hr
  have hstats : ∀ kind, (summarize samples' rejected).stats kind = (summarize samples rejected).stats kind :=
    fun kind => by rw [summarize_stats, summarize_stats]; exact stats_from_perm (h.map _)
  refine RunSummary.ext ?_ ?_ ?_ ?_ (hstats .queue_wait) (hstats .execution_time)
    (hstats .total_latency)
  · rw [h1, h1', h.length_eq]
  · rw [h2, h2', h.countP_eq]
  · rw [h3, h3', h.countP_eq]
  · rw [h4, h4', h.countP_eq]

/-- The samples of the three terminal states are all samples. -/
theorem countP_terminal (h : ∀ s ∈ samples, is_terminal s.state = true) :
    samples.countP (fun s => s.state = .Succeeded) + samples.countP (fun s => s.state = .Failed) +
      samples.countP (fun s => s.state = .Rejected) = samples.length := by
  induction samples with
  | nil => rfl
  | cons s samples ih =>
    have hs := h s (by simp)
    have := ih fun s' hs' => h s' (by simp [hs'])
    simp only [List.countP_cons, List.length_cons]
    cases hst : s.state <;> simp [hst, is_terminal] at hs ⊢ <;> omega

theorem sum_latency (samples : List Sample) :
    (Measurement.total_latency.values samples).sum =
      (Measurement.queue_wait.values samples).sum + (Measurement.execution_time.values samples).sum := by
  induction samples with
  | nil => rfl
  | cons s samples ih =>
    simp only [Measurement.values, List.map_cons, List.sum_cons] at ih ⊢
    rw [ih]
    simp only [Measurement.of, TaskTimings.total_latency, TaskTimings.queue_wait,
      TaskTimings.execution_time]
    ring

/-- **A summary is a function of the multiset of samples, and the nearest-rank reference**: every
count is that of the samples in the state, every figure of a distribution meets its definition, and
the usual orders hold between them. -/
theorem summarize_reference (hstate : ∀ s ∈ samples, is_terminal s.state = true)
    (hn : 95 * samples.length + 99 < 2 ^ 64) (hr : samples.length + rejected < 2 ^ 64)
    (hsum : ∀ kind : Measurement, Representable (kind.values samples)) :
    (∀ samples' : List Sample, samples'.Perm samples →
      summarize samples' rejected = summarize samples rejected) ∧
    (summarize samples rejected).succeeded = samples.countP (fun s => s.state = .Succeeded) ∧
    (summarize samples rejected).failed = samples.countP (fun s => s.state = .Failed) ∧
    (summarize samples rejected).rejected =
      rejected + samples.countP (fun s => s.state = .Rejected) ∧
    (summarize samples rejected).succeeded + (summarize samples rejected).failed +
      (summarize samples rejected).rejected = (summarize samples rejected).total ∧
    (summarize samples rejected).total = samples.length + rejected ∧
    (∀ kind : Measurement,
      ((summarize samples rejected).stats kind).Describes (kind.values samples) ∧
      (samples ≠ [] →
        ((summarize samples rejected).stats kind).min ≤ ((summarize samples rejected).stats kind).p50 ∧
        ((summarize samples rejected).stats kind).p50 ≤ ((summarize samples rejected).stats kind).p95 ∧
        ((summarize samples rejected).stats kind).p95 ≤ ((summarize samples rejected).stats kind).max ∧
        ((summarize samples rejected).stats kind).min ≤ ((summarize samples rejected).stats kind).mean ∧
        ((summarize samples rejected).stats kind).mean ≤ ((summarize samples rejected).stats kind).max)) ∧
    (summarize samples rejected).total_latency.total =
      (summarize samples rejected).queue_wait.total +
        (summarize samples rejected).execution_time.total := by
  have hcounts := countP_terminal hstate
  obtain ⟨h1, h2, h3, h4⟩ := summarize_counts samples (show rejected < 2 ^ 64 by omega)
  rw [Nat.mod_eq_of_lt (by omega)] at h1 h2 h3 h4
  have hdesc : ∀ kind : Measurement,
      ((summarize samples rejected).stats kind).Describes (kind.values samples) := fun kind => by
    rw [summarize_stats]
    exact stats_from_describes (by simpa [Measurement.values] using hn) (hsum kind)
  refine ⟨fun samples' h => summarize_perm (by omega) h, h2, h3, h4, by omega, h1,
    fun kind => ⟨hdesc kind, ?_⟩, ?_⟩
  · intro hne
    have hv : kind.values samples ≠ [] := by simpa [Measurement.values] using hne
    obtain ⟨ho1, ho2, ho3⟩ := (hdesc kind).ordered hv
    exact ⟨ho1, ho2, ho3, (hdesc kind).mean hv (by simpa [Measurement.values] using hn)⟩
  · calc (summarize samples rejected).total_latency.total
        = (Measurement.total_latency.values samples).sum := (hdesc .total_latency).total
      _ = _ := by
        rw [sum_latency, ← (hdesc .queue_wait).total, ← (hdesc .execution_time).total]
        rfl

/-- A success, a failure and one rejection. -/
def twoSamples : List Sample := [⟨1, .Succeeded, ⟨0, 3, 5⟩⟩, ⟨2, .Failed, ⟨1, 4, 9⟩⟩]

theorem summarize_reference_twoSamples :
    (summarize twoSamples 1).total = 3 ∧ (summarize twoSamples 1).total_latency.total =
      (summarize twoSamples 1).queue_wait.total + (summarize twoSamples 1).execution_time.total := by
  have h := @summarize_reference twoSamples 1 (by decide) (by decide)
    (by decide) fun kind => representable_of_nonneg (by cases kind <;> decide) (by cases kind <;> decide)
  exact ⟨h.2.2.2.2.2.1, h.2.2.2.2.2.2.2⟩

end Summaries

end TaskEngine
