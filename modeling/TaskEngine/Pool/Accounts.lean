import TaskEngine.Metrics.RunSummary
import TaskEngine.Pool.Modes

/-!
# TaskEngine.Pool.Accounts — the two accounts of a run agree

When no call is under way and every worker has exited, the futures on one side, and the samples with
the rejection counter on the other, tell the same of every submission (`futures_eq`): a future that
was run has its sample, with the same id and state, and the others are the rejections counted.
-/

namespace TaskEngine

open Interleaving

namespace ThreadPool

variable {W : ℕ} {ι : Type}

/-- What the futures that have a result tell, in the order of the submissions. -/
def futures (m : ThreadPool W ι) : List (TaskId × TaskState × String) :=
  m.promises.filterMap Promise.delivery

section Settled

variable [DecidableEq ι] [Fintype ι] {capacity : ℕ} {c : System W ι}
  {log : List (Thread W ι × Event W)}

/-- Every submission was popped, drained or refused. -/
theorem submitted_settled (hW : 0 < W) (h : Run (rules capacity) init log c)
    (hi : ∀ i, c.pc (.inr i) = .idle) (hw : ∀ w, c.pc (.inl w) = .exited) :
    (submitted log : Multiset TaskEnvelope) = popped log + (drained log + refused log) := by
  have hs := submitting_from_init h
  have hq := queue_from_init h
  rw [(idle_holds_nothing hi).1, zero_add] at hs
  rw [(exhausted_of_exited hW h hw).2, List.append_nil] at hq
  rw [← hs, ← hq, ← Multiset.coe_add]
  abel

theorem futures_of_submitted (hW : 0 < W) (h : Run (rules capacity) init log c)
    (hi : ∀ i, c.pc (.inr i) = .idle) (hw : ∀ w, c.pc (.inl w) = .exited) :
    futures c.shared = (submitted log).map fun e =>
      if e ∈ popped log then e.delivery else (e.id, .Rejected, "") := by
  have hmap := promises_map h (g := Promise.delivery)
    (f := fun e => some (if e ∈ popped log then e.delivery else (e.id, .Rejected, ""))) fun e he => by
      by_cases hp : e ∈ popped log
      · obtain ⟨-, -, dq, f, hr⟩ := ran_of_popped hW h hw hp
        exact ⟨_, hr, by rw [if_pos hp, Promise.delivery_result]⟩
      · obtain ⟨f, hr⟩ := rejected_of_not_popped hW h hi hw he hp
        exact ⟨_, hr, by rw [if_neg hp, Promise.delivery_rejection]⟩
  calc futures c.shared = (c.shared.promises.map Promise.delivery).filterMap id := by
        simp [futures, List.filterMap_map]
    _ = _ := by rw [hmap, List.filterMap_map, ← List.filterMap_eq_map]; rfl

/-- **The futures and the records agree**: the samples and the rejections, as ids with their states,
are the results of the futures. -/
theorem futures_eq (hW : 0 < W) (h : Run (rules capacity) init log c)
    (hi : ∀ i, c.pc (.inr i) = .idle) (hw : ∀ w, c.pc (.inl w) = .exited) :
    (futures c.shared : Multiset (TaskId × TaskState × String)).map (fun d => (d.1, d.2.1)) =
      (c.shared.merged : Multiset Sample).map (fun s => (s.id, s.state)) +
        (drained log + refused log : Multiset TaskEnvelope).map fun e => (e.id, .Rejected) := by
  have hn := decided_nodup h
  rw [List.append_assoc, List.append_assoc] at hn
  have hnot : ∀ e ∈ (drained log + refused log : Multiset TaskEnvelope), e ∉ popped log := by
    intro e he hp
    refine List.disjoint_left.mp (List.disjoint_of_nodup_append hn) hp ?_
    rcases Multiset.mem_add.mp he with he | he
    · exact List.mem_append_left _ he
    · exact List.mem_append_right _ (List.mem_append_right _ he)
  rw [futures_of_submitted hW h hi hw, Multiset.map_coe, List.map_map, ← Multiset.map_coe,
    submitted_settled hW h hi hw, Multiset.map_add, samples_eq h, reached_of_exited h hw .record]
  congr 1
  · exact Multiset.map_congr rfl fun e he => by simp [Multiset.mem_coe.mp he, TaskEnvelope.delivery]
  · exact Multiset.map_congr rfl fun e he => by simp [hnot e he]

/-- With every call returned, `rejected_` counts what was drained and what was refused. -/
theorem rejected_settled (h : Run (rules capacity) init log c) (hi : ∀ i, c.pc (.inr i) = .idle) :
    rejected_count c.shared =
      (drained log + refused log : Multiset TaskEnvelope).card % 2 ^ 64 := by
  have hr := refusing_from_init .count h
  have hd := discarding_from_init .count h
  rw [(idle_holds_nothing hi).2.1, zero_add] at hr
  rw [(idle_holds_nothing hi).2.2, zero_add] at hd
  rw [rejected_eq h, ← hr, ← hd, Multiset.card_add, Multiset.coe_card, Multiset.coe_card, add_comm]

theorem countP_futures (hW : 0 < W) (h : Run (rules capacity) init log c)
    (hi : ∀ i, c.pc (.inr i) = .idle) (hw : ∀ w, c.pc (.inl w) = .exited) (state : TaskState) :
    (futures c.shared).countP (fun d => d.2.1 = state) =
      c.shared.merged.countP (fun s => s.state = state) +
        if state = .Rejected then (drained log + refused log : Multiset TaskEnvelope).card else 0 := by
  have hc := congrArg (Multiset.countP fun d : TaskId × TaskState => d.2 = state) (futures_eq hW h hi hw)
  rw [Multiset.countP_add, Multiset.map_coe, Multiset.map_coe, Multiset.coe_countP, Multiset.coe_countP,
    List.countP_map, List.countP_map, Multiset.countP_map] at hc
  refine Eq.trans hc (congrArg (HAdd.hAdd _) ?_)
  by_cases hs : state = .Rejected
  · simp [hs]
  · simp [hs, Ne.symm hs]

theorem merged_state (h : Run (rules capacity) init log c) :
    ∀ s ∈ c.shared.merged, s.state = .Succeeded ∨ s.state = .Failed := by
  intro s hs
  have hmem : (s.id, s.state) ∈ (reached .record log : Multiset TaskEnvelope).map fun e =>
      (e.id, e.outcome) := by
    rw [← samples_eq h]
    exact Multiset.mem_map_of_mem _ hs
  obtain ⟨e, -, he⟩ := Multiset.mem_map.mp hmem
  rw [← (Prod.mk.inj he).2]
  exact e.outcome_cases

theorem merged_countP (h : Run (rules capacity) init log c) :
    c.shared.merged.length = c.shared.merged.countP (fun s => s.state = .Succeeded) +
        c.shared.merged.countP (fun s => s.state = .Failed) ∧
      c.shared.merged.countP (fun s => s.state = .Rejected) = 0 := by
  have hstate := merged_state h
  constructor
  · rw [List.length_eq_countP_add_countP fun s : Sample => decide (s.state = .Succeeded)]
    refine congrArg (_ + ·) (List.countP_congr ?_)
    intro s hs
    rcases hstate s hs with h | h <;> simp [h]
  · rw [List.countP_eq_zero]
    intro s hs
    rcases hstate s hs with h | h <;> simp [h]

/-- The ids of the samples, and those of the futures that are `Rejected`. -/
def ids (m : ThreadPool W ι) : List TaskId :=
  m.merged.map (·.id) ++ ((futures m).filter fun d => d.2.1 = .Rejected).map Prod.fst

/-- Together they are the ids of all submissions. -/
theorem ids_perm (hW : 0 < W) (h : Run (rules capacity) init log c)
    (hi : ∀ i, c.pc (.inr i) = .idle) (hw : ∀ w, c.pc (.inl w) = .exited) :
    (ids c.shared).Perm ((submitted log).map (·.id)) := by
  -- the futures that are not `Rejected` are those of the samples
  have hran : ((futures c.shared : Multiset (TaskId × TaskState × String)).filter
      fun d => ¬ d.2.1 = .Rejected).map Prod.fst =
      (c.shared.merged : Multiset Sample).map (·.id) := by
    have hf := congrArg (fun s => (s.filter fun d : TaskId × TaskState => ¬ d.2 = .Rejected).map Prod.fst)
      (futures_eq hW h hi hw)
    simp only [Multiset.filter_add, Multiset.filter_map, Multiset.map_add, Multiset.map_map,
      Function.comp_def, not_true_eq_false, Multiset.filter_false, Multiset.map_zero, add_zero] at hf
    have hself : (c.shared.merged : Multiset Sample).filter (fun s => ¬ s.state = .Rejected) =
        c.shared.merged := Multiset.filter_eq_self.mpr fun s hs => by
      rcases merged_state h s hs with hs | hs <;> simp [hs]
    rwa [hself] at hf
  have hall : (futures c.shared).map Prod.fst = (submitted log).map (·.id) := by
    rw [futures_of_submitted hW h hi hw, List.map_map]
    apply List.map_congr_left
    intro e _
    by_cases hp : e ∈ popped log <;> simp [hp, TaskEnvelope.delivery]
  rw [← hall, ← Multiset.coe_eq_coe, ids, ← Multiset.coe_add, ← Multiset.map_coe, ← hran,
    ← Multiset.map_coe Prod.fst (List.filter _ _), ← Multiset.filter_coe, add_comm, ← Multiset.map_add,
    Multiset.filter_add_not, Multiset.map_coe]

/-- **The summary agrees with the futures**, as long as its counts do not wrap. -/
theorem summarize_settled (hW : 0 < W) (h : Run (rules capacity) init log c)
    (hi : ∀ i, c.pc (.inr i) = .idle) (hw : ∀ w, c.pc (.inl w) = .exited)
    (hn : (submitted log).length < 2 ^ 64) {s : RunSummary}
    (hs : s = summarize c.shared.merged (rejected_count c.shared)) :
    s.succeeded = (futures c.shared).countP (fun d => d.2.1 = .Succeeded) ∧
    s.failed = (futures c.shared).countP (fun d => d.2.1 = .Failed) ∧
    s.rejected = (futures c.shared).countP (fun d => d.2.1 = .Rejected) ∧
    s.total = s.succeeded + s.failed + s.rejected ∧ s.total = (submitted log).length := by
  obtain ⟨hlen, hrej⟩ := merged_countP h
  -- every submission is recorded, or drained, or refused
  have hrec : c.shared.merged.length + (drained log + refused log : Multiset TaskEnvelope).card =
      (submitted log).length := by
    have hsam := congrArg Multiset.card (samples_eq h)
    have hsub := congrArg Multiset.card (submitted_settled hW h hi hw)
    simp only [Multiset.card_map, Multiset.coe_card, Multiset.card_add] at hsam hsub ⊢
    rw [hsam, hsub, ← Multiset.coe_card, reached_of_exited h hw, Multiset.coe_card]
  have hcount := rejected_settled h hi
  rw [Nat.mod_eq_of_lt (by omega)] at hcount
  have hsum := summarize_counts c.shared.merged
    (show rejected_count c.shared < 2 ^ 64 by omega)
  rw [← hs, hrej, add_zero, hcount, Nat.mod_eq_of_lt (by omega), Nat.mod_eq_of_lt (by omega),
    Nat.mod_eq_of_lt (by omega), Nat.mod_eq_of_lt (by omega)] at hsum
  obtain ⟨htotal, hsucc, hfail, hrejected⟩ := hsum
  rw [countP_futures hW h hi hw, countP_futures hW h hi hw, countP_futures hW h hi hw, hrej]
  simp only [reduceCtorEq, if_false, if_true, add_zero, zero_add]
  exact ⟨hsucc, hfail, hrejected, by omega, by omega⟩

end Settled

end ThreadPool

end TaskEngine
