import Mathlib.Algebra.Order.BigOperators.Group.List
import Mathlib.Tactic

/-!
# TaskEngine.Statistics.Intervals — intervals that follow one another

Elements of a list with a start and an end, where none starts before an earlier one has ended.  Of such a
list at most one is open at any instant (`countP_open_le_one`), and together they are no longer than what
they lie in (`sum_le_span`).
-/

namespace Intervals

variable {α β : Type} {start stop : β → α} {l : List β}

/-- Each has ended before the later ones start. -/
def Successive [LE α] (start stop : β → α) (l : List β) : Prop := l.Pairwise fun u v => stop u ≤ start v

theorem countP_open_le_one [LinearOrder α] (h : Successive start stop l) (x : α) :
    l.countP (fun u => start u ≤ x ∧ x < stop u) ≤ 1 := by
  induction l with
  | nil => simp
  | cons u l ih =>
    obtain ⟨hu, hl⟩ := List.pairwise_cons.mp h
    by_cases hopen : start u ≤ x ∧ x < stop u
    · have hrest : l.countP (fun u => start u ≤ x ∧ x < stop u) = 0 := by
        apply List.countP_eq_zero.mpr
        intro v hv hopen'
        have hv' := of_decide_eq_true hopen'
        exact absurd (hopen.2.trans_le ((hu v hv).trans hv'.1)) (lt_irrefl x)
      rw [List.countP_cons, hrest, if_pos (decide_eq_true hopen)]
    · simpa [List.countP_cons, hopen] using ih hl

variable [AddCommGroup α] [LinearOrder α] [IsOrderedAddMonoid α] {lo hi : α}

theorem sum_le_span (h : Successive start stop l) (hlo : ∀ u ∈ l, lo ≤ start u) (hhi : ∀ u ∈ l, stop u ≤ hi)
    (hle : lo ≤ hi) : (l.map fun u => stop u - start u).sum ≤ hi - lo := by
  induction l generalizing lo with
  | nil => simpa using hle
  | cons u l ih =>
    obtain ⟨hu, hl⟩ := List.pairwise_cons.mp h
    have hrest := ih hl hu (fun v hv => hhi v (List.mem_cons_of_mem _ hv)) (hhi u List.mem_cons_self)
    rw [List.map_cons, List.sum_cons]
    calc stop u - start u + (l.map fun u => stop u - start u).sum
        ≤ stop u - start u + (hi - stop u) := add_le_add_right hrest _
      _ = hi - start u := by abel
      _ ≤ hi - lo := sub_le_sub_left (hlo u List.mem_cons_self) hi

end Intervals
