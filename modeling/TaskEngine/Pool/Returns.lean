import TaskEngine.Pool.Modes

/-!
# TaskEngine.Pool.Returns — the submissions that have returned, and where they are counted

A `submit` that has returned was either inserted in the queue or refused and counted.  Past the join
it is recorded, or counted as refused, or was drained; a drained one is counted by its `shutdown_now`,
which may still be about to do so.  `counted_once_iff` says when the samples, together with the
rejection count as it was at some earlier point, have it exactly once.
-/

namespace TaskEngine

open Interleaving

namespace ThreadPool

variable {W : ℕ} {ι : Type}

/-! ## Accepted submissions -/

section Accepted

/-- The envelope whose `submit` returns `true`. -/
def Event.accepted : Event W → List TaskEnvelope
  | .accept e => [e]
  | _ => []

/-- The envelope whose `submit` returns. -/
def Event.returned : Event W → List TaskEnvelope
  | .accept e | .refuse e => [e]
  | _ => []

/-- The envelope that a `submit` has inserted. -/
def ClientPc.inserted : ClientPc → Multiset TaskEnvelope
  | .pushing (.notifying e) | .pushing (.done e) => {e}
  | _ => 0

attribute [simp] Event.accepted.eq_1 Event.accepted.eq_2 Event.returned.eq_1 Event.returned.eq_2
  Event.returned.eq_3 ClientPc.inserted.eq_1 ClientPc.inserted.eq_2 ClientPc.inserted.eq_3

abbrev accepted (log : List (Thread W ι × Event W)) : List TaskEnvelope := collect Event.accepted log

/-- The envelopes whose `submit` has returned. -/
abbrev returned (log : List (Thread W ι × Event W)) : List TaskEnvelope := collect Event.returned log

theorem Event.mem_returned {ev : Event W} {e : TaskEnvelope} :
    e ∈ ev.returned ↔ e ∈ ev.accepted ∨ e ∈ ev.refusal .count := by
  cases ev <;> simp

theorem mem_returned {log : List (Thread W ι × Event W)} {e : TaskEnvelope} :
    e ∈ returned log ↔ e ∈ accepted log ∨ e ∈ refusals .count log := by
  simp only [returned, accepted, refusals, mem_collect, Event.mem_returned, and_or_left, exists_or]

variable [DecidableEq ι]

/-- From the insertion to the return. -/
def accepting (capacity : ℕ) : Ledger (rules (W := W) (ι := ι) capacity) (Multiset TaskEnvelope) where
  hand
    | .inl _, _ => 0
    | .inr _, p => ClientPc.inserted p
  store _ := 0
  inflow ev := ev.pushed
  outflow ev := ev.accepted
  balance t _ _ _ _ _ h := by
    rcases t with w | i
    · cases (h : WorkerRule w _ _ _ _ _) with
      | pop h => simp [h.flow.2.1]
      | _ => simp
    · cases (h : ClientRule capacity i _ _ _ _ _) with
      | push h =>
        cases h with
        | enter h => cases BlockingQueue.pushSection_cases h <;> simp
        | resume _ h => cases BlockingQueue.pushSection_cases h <;> simp
        | _ => simp
      | close h => simp [h.flow.1]
      | drain h => simp [h.flow.2.1]
      | join h => cases h <;> simp
      | _ => simp

variable [Fintype ι] {capacity : ℕ} {c d : System W ι} {log l₁ l₂ : List (Thread W ι × Event W)}

theorem accepted_le (h : Run (rules capacity) init log c) :
    (accepted log : Multiset TaskEnvelope) ≤ pushed log := by
  have hb := (accepting capacity).run h
  simp only [Ledger.hands, Ledger.income, Ledger.expense, accepting, sum_map_coe, init,
    Fintype.sum_sum_type, Finset.sum_const_zero, zero_add, add_zero, ClientPc.inserted.eq_3] at hb
  exact hb ▸ le_add_self

end Accepted

/-! ## Counting them -/

section Counting

variable [DecidableEq ι] [Fintype ι] {capacity : ℕ} {c d : System W ι}
  {l₁ l₂ : List (Thread W ι × Event W)} {e : TaskEnvelope}

/-- Past the join: a submission that had returned when the rejection count was taken at `d` is in the
samples and that count once, unless its `shutdown_now` had drained and not counted it by then, or was
still to drain it. -/
theorem counted_once_iff (hW : 0 < W) (h₁ : Run (rules capacity) init l₁ d)
    (h₂ : Run (rules capacity) d l₂ c) (hj : c.shared.joined = true) (he : e ∈ returned l₁) :
    (reached .record (l₁ ++ l₂)).count e + (refusals .count l₁).count e +
        (discards .count l₁).count e = 1 ↔
      e ∉ discardingAll .count d ∧ e ∉ drained l₂ := by
  have h := h₁.trans h₂
  have hrecord : (reached .record (l₁ ++ l₂)).count e = (popped (l₁ ++ l₂)).count e := by
    have hr := reached_of_exited h (exited_of_joined hW h hj).2 .record
    rw [← Multiset.coe_count, hr, Multiset.coe_count]
  have hdecided := List.nodup_iff_count_le_one.mp (decided_nodup h) e
  have hdiscard := congrArg (Multiset.count e) (discarding_from_init .count h₁)
  have hrefused := Multiset.count_le_of_le e (refusals_le .count h₁)
  simp only [popped, drained, refused, refusals, discards, collect_append, List.count_append,
    Multiset.count_add, Multiset.coe_count] at hrecord hdecided hdiscard hrefused
  -- when its `submit` had returned it was accepted, or refused and counted
  have hdec : 1 ≤ (popped (l₁ ++ l₂)).count e + (drained (l₁ ++ l₂)).count e ∨
      1 ≤ (refusals .count l₁).count e := by
    rcases mem_returned.mp he with he | he
    · have hp : e ∈ pushed (l₁ ++ l₂) := by
        rw [pushed, collect_append]
        exact List.mem_append_left _ (Multiset.mem_of_le (accepted_le h₁) he)
      rw [← pushed_of_joined hW h hj, ← List.count_pos_iff, List.count_append] at hp
      exact .inl hp
    · exact .inr (List.count_pos_iff.mpr he)
  rw [← Multiset.count_eq_zero, ← List.count_eq_zero]
  simp only [popped, drained, refusals, discards, collect_append, List.count_append] at hdec ⊢
  omega

end Counting

end ThreadPool

end TaskEngine
