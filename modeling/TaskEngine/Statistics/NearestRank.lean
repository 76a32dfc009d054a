import Mathlib.Data.List.Sort
import Mathlib.Order.Bounds.Basic
import Mathlib.Tactic

/-!
# TaskEngine.Statistics.NearestRank — nearest-rank percentiles

A percentile by counting: the least value of a list with enough of the list at or below it.  The
definition does not sort; in a sorted list it is the value at a rank (`isPercentile_getElem`).
-/

namespace NearestRank

variable {α : Type} [LinearOrder α]

/-- The least value of the list with at least `rank` of its values at or below it. -/
def IsRank (rank : ℕ) (values : List α) (v : α) : Prop :=
  IsLeast {x | x ∈ values ∧ rank ≤ values.countP (· ≤ x)} v

/-- The least value of the list with at least `percent` per cent of its values at or below it. -/
def IsPercentile (percent : ℕ) (values : List α) (v : α) : Prop :=
  IsLeast {x | x ∈ values ∧ percent * values.length ≤ 100 * values.countP (· ≤ x)} v

variable {values values' : List α} {v w : α} {percent percent' rank k : ℕ}

/-! ## Counting in sorted lists -/

/-- In a sorted list the values up to a position are at or below the value there. -/
theorem lt_countP_getElem (hs : values.Pairwise (· ≤ ·)) (hk : k < values.length) :
    k < values.countP (· ≤ values[k]) := by
  have hall : ∀ x ∈ values.take (k + 1), x ≤ values[k] := by
    intro x hx
    obtain ⟨j, hj, rfl⟩ := List.mem_take_iff_getElem.mp hx
    rcases Nat.lt_or_ge j k with h | h
    · exact List.pairwise_iff_getElem.mp hs j k _ hk h
    · exact le_of_eq (getElem_congr rfl (by omega) _)
  have hcount : (values.take (k + 1)).countP (· ≤ values[k]) = k + 1 := by
    rw [List.countP_eq_length.mpr fun x hx => by simpa using hall x hx, List.length_take]
    omega
  have := (List.take_sublist (k + 1) values).countP_le (p := (· ≤ values[k]))
  omega

/-- In a sorted list what is below the value at a position stands before it. -/
theorem countP_le_of_lt (hs : values.Pairwise (· ≤ ·)) (hk : k < values.length) {x : α}
    (hx : x < values[k]) : values.countP (· ≤ x) ≤ k := by
  have hnone : (values.drop k).countP (· ≤ x) = 0 := by
    rw [List.countP_eq_zero]
    intro y hy
    obtain ⟨j, hj, rfl⟩ := List.mem_drop_iff_getElem.mp hy
    have hle : values[k] ≤ values[k + j] := by
      rcases Nat.eq_zero_or_pos j with rfl | h
      · exact le_rfl
      · exact List.pairwise_iff_getElem.mp hs k (k + j) hk (by omega) (by omega)
    simpa using lt_of_lt_of_le hx hle
  calc values.countP (· ≤ x) = (values.take k).countP (· ≤ x) + (values.drop k).countP (· ≤ x) := by
        rw [← List.countP_append, List.take_append_drop]
    _ ≤ (values.take k).length := by rw [hnone]; exact List.countP_le_length
    _ ≤ k := List.length_take_le _ _

theorem isRank_getElem (hs : values.Pairwise (· ≤ ·)) (hk : k < values.length) :
    IsRank (k + 1) values values[k] := by
  refine ⟨⟨List.getElem_mem hk, lt_countP_getElem hs hk⟩, ?_⟩
  rintro x ⟨-, hx⟩
  by_contra hlt
  have := countP_le_of_lt hs hk (not_le.mp hlt)
  omega

/-! ## Percentiles -/

theorem IsPercentile.perm (h : IsPercentile percent values v) (hp : values.Perm values') :
    IsPercentile percent values' v := by
  have hset : {x | x ∈ values' ∧ percent * values'.length ≤ 100 * values'.countP (· ≤ x)} =
      {x | x ∈ values ∧ percent * values.length ≤ 100 * values.countP (· ≤ x)} := by
    ext x
    simp only [Set.mem_ofPred_eq, hp.mem_iff, hp.length_eq, hp.countP_eq]
  rw [IsPercentile, hset]
  exact h

theorem IsPercentile.mem (h : IsPercentile percent values v) : v ∈ values := h.1.1

theorem IsPercentile.mono (h : IsPercentile percent values v) (h' : IsPercentile percent' values w)
    (hp : percent ≤ percent') : v ≤ w :=
  h.2 ⟨h'.1.1, (Nat.mul_le_mul_right _ hp).trans h'.1.2⟩

/-- The percentile is the value whose rank is the percentage of the length, rounded up, and at
least 1. -/
theorem isPercentile_of_isRank (hr : rank = max ((percent * values.length + 99) / 100) 1)
    (h : IsRank rank values v) : IsPercentile percent values v := by
  have hset : {x | x ∈ values ∧ percent * values.length ≤ 100 * values.countP (· ≤ x)} =
      {x | x ∈ values ∧ rank ≤ values.countP (· ≤ x)} := by
    ext x
    simp only [Set.mem_ofPred_eq, and_congr_right_iff]
    intro hx
    have hpos : 0 < values.countP (· ≤ x) := List.countP_pos_iff.mpr ⟨x, hx, by simp⟩
    omega
  rw [IsPercentile, hset]
  exact h

/-- **Nearest rank**: the percentile of a list is in its sorted form at the rank less 1. -/
theorem isPercentile_getElem (hs : values.Pairwise (· ≤ ·)) (hp : values.Perm values')
    (hk : k < values.length) (hr : k + 1 = max ((percent * values'.length + 99) / 100) 1) :
    IsPercentile percent values' values[k] :=
  (isPercentile_of_isRank (hp.length_eq ▸ hr) (isRank_getElem hs hk)).perm hp

end NearestRank
