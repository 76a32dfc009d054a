import TaskEngine.Pool.Accounts

/-!
# TaskEngine.Pool.Outcomes — what a pool at rest has come to

When no call is under way and every worker has exited, a summary counts the ends of what was popped, and a
rejection for all that was drained or refused (`summarize_outcomes`).  With one client submissions are pushed
in their order up to some point and refused in their order after it (`submitted_in_order`), and then the
futures tell the same one by one (`futures_outcomes`).
-/

namespace TaskEngine

open Interleaving

/-! ## The outcomes of a pool at rest -/

/-- What a future tells of a task that was run: the state and the message. -/
def Task.outcome (task : Task) : TaskState × String :=
  match task.execute with
  | .returns => (.Succeeded, "")
  | .throws what => (.Failed, what)
  | .throwsOther => (.Failed, "unknown exception")

theorem TaskEnvelope.delivery_snd (e : TaskEnvelope) : e.delivery.2 = e.task.outcome := by
  rw [delivery, TaskEnvelope.outcome, caught, Task.outcome]
  cases e.task.execute <;> rfl

/-- The counts of a summary are those of the outcomes, in `std::size_t`. -/
structure Counts (outcomes : List (TaskState × String)) (s : RunSummary) : Prop where
  total : s.total = outcomes.length % 2 ^ 64
  succeeded : s.succeeded = outcomes.countP (fun d => d.1 = .Succeeded) % 2 ^ 64
  failed : s.failed = outcomes.countP (fun d => d.1 = .Failed) % 2 ^ 64
  rejected : s.rejected = outcomes.countP (fun d => d.1 = .Rejected) % 2 ^ 64

namespace ThreadPool

variable {W : ℕ} {ι : Type}

section Outcomes

/-- How the runs of what was popped ended, and a rejection for all else. -/
def outcomes (log : List (Thread W ι × Event W)) : List (TaskState × String) :=
  (popped log).map (fun e => e.delivery.2) ++ (drained log ++ refused log).map fun _ => (.Rejected, "")

theorem countP_outcomes (log : List (Thread W ι × Event W)) (state : TaskState) :
    (outcomes log).countP (fun d => d.1 = state) = (popped log).countP (fun e => e.outcome = state) +
      if state = .Rejected then (drained log ++ refused log).length else 0 := by
  rw [outcomes, List.countP_append, List.countP_map, List.countP_map]
  congr 1
  by_cases hstate : state = .Rejected
  · simp [hstate, Function.comp_def]
  · simp [Function.comp_def, Ne.symm hstate, hstate]

variable [DecidableEq ι] [Fintype ι] {capacity : ℕ} {c : System W ι} {log : List (Thread W ι × Event W)}

theorem merged_popped (h : Run (rules capacity) init log c) (hw : ∀ w, c.pc (.inl w) = .exited) :
    c.shared.merged.length = (popped log).length ∧ ∀ state,
      c.shared.merged.countP (fun s => s.state = state) = (popped log).countP fun e => e.outcome = state := by
  have hsamples := samples_eq h
  rw [reached_of_exited h hw] at hsamples
  refine ⟨by simpa using congrArg Multiset.card hsamples, fun state => ?_⟩
  have hc := congrArg (Multiset.countP fun d : TaskId × TaskState => d.2 = state) hsamples
  rw [Multiset.map_coe, Multiset.map_coe, Multiset.coe_countP, Multiset.coe_countP, List.countP_map,
    List.countP_map] at hc
  exact hc

/-- **What a summary counts** once the workers have exited and no call is under way. -/
theorem summarize_outcomes (h : Run (rules capacity) init log c) (hi : ∀ i, c.pc (.inr i) = .idle)
    (hw : ∀ w, c.pc (.inl w) = .exited) :
    Counts (outcomes log) (summarize c.shared.merged (rejected_count c.shared)) := by
  obtain ⟨hlen, hcount⟩ := merged_popped h hw
  have hrej : rejected_count c.shared = (drained log ++ refused log).length % 2 ^ 64 := by
    simpa using rejected_settled h hi
  have hnone := (merged_countP h).2
  rw [hcount] at hnone
  obtain ⟨h1, h2, h3, h4⟩ := summarize_counts c.shared.merged
    (show rejected_count c.shared < 2 ^ 64 from hrej ▸ Nat.mod_lt _ (Nat.two_pow_pos 64))
  refine ⟨?_, ?_, ?_, ?_⟩
  · rw [h1, hlen, hrej, Nat.add_mod_mod]
    simp [outcomes]
  · rw [h2, hcount, countP_outcomes]
    simp
  · rw [h3, hcount, countP_outcomes]
    simp
  · rw [h4, hcount, countP_outcomes, hnone, hrej]
    simp

/-- What the futures tell, in the order of the submissions: `outcomes`, where these came in order. -/
theorem futures_outcomes (hW : 0 < W) (h : Run (rules capacity) init log c)
    (hi : ∀ i, c.pc (.inr i) = .idle) (hw : ∀ w, c.pc (.inl w) = .exited)
    (horder : submitted log = pushed log ++ refused log) :
    (futures c.shared).map Prod.snd = outcomes log := by
  have hq := queue_from_init h
  rw [(exhausted_of_exited hW h hw).2, List.append_nil] at hq
  have hn := decided_nodup h
  rw [List.append_assoc, List.append_assoc] at hn
  have hnot : ∀ e ∈ drained log ++ refused log, e ∉ popped log := by
    intro e he hp
    refine List.disjoint_left.mp (List.disjoint_of_nodup_append hn) hp ?_
    rcases List.mem_append.mp he with he | he
    · exact List.mem_append_left _ he
    · exact List.mem_append_right _ (List.mem_append_right _ he)
  rw [futures_of_submitted hW h hi hw, horder, ← hq, List.append_assoc, List.map_map, List.map_append,
    outcomes]
  congr 1
  · exact List.map_congr_left fun e he => by simp [he]
  · exact List.map_congr_left fun e he => by simp [hnot e he]

end Outcomes

/-! ## A pool with one client -/

section Order

/-- The envelope of a `submit` whose push is undecided. -/
def ClientPc.undecided : ClientPc → List TaskEnvelope
  | .pushing (.enter e) | .pushing (.waiting e) => [e]
  | _ => []

attribute [simp] ClientPc.undecided.eq_1 ClientPc.undecided.eq_2 ClientPc.undecided.eq_3

variable [DecidableEq ι] {capacity : ℕ} {c : System W ι} {log : List (Thread W ι × Event W)}

theorem ClientRule.undecided {i : ι} {m m' : ThreadPool W ι} {p p' : ClientPc} {ev : Event W}
    (h : ClientRule capacity i m p ev m' p') :
    ev.pushed ++ ev.refused ++ p'.undecided = p.undecided ++ ev.submitted := by
  cases h with
  | push h =>
    cases h with
    | enter h => cases BlockingQueue.pushSection_cases h <;> simp
    | resume _ h => cases BlockingQueue.pushSection_cases h <;> simp
    | _ => simp
  | close h => simp [h.flow]
  | drain h => simp [h.flow]
  | join h => cases h <;> simp
  | _ => simp

theorem rule_refused {t : Thread W ι} {m m' : ThreadPool W ι} {p p' : Pc t} {ev : Event W}
    (h : rules capacity t m p ev m' p') (hev : ev.refused ≠ []) : m.queue.closed = true := by
  rcases t with w | i
  · exact absurd (WorkerRule.flow (w := w) h).2.2.2.1 hev
  · cases (h : ClientRule capacity i _ _ _ _ _) with
    | push h =>
      cases h with
      | enter h => cases BlockingQueue.pushSection_cases h <;> simp_all
      | resume _ h => cases BlockingQueue.pushSection_cases h <;> simp_all
      | _ => simp at hev
    | close h => exact absurd h.flow.2.1 hev
    | drain h => exact absurd h.flow.2.2.1 hev
    | join h => cases h <;> simp at hev
    | _ => simp at hev

theorem closed_of_refused (h : Run (rules capacity) init log c) (hne : refused log ≠ []) :
    c.shared.queue.closed = true := by
  revert hne
  refine h.induct (I := fun log d => refused log ≠ [] → d.shared.queue.closed = true) (by simp) ?_
  intro log d t ev m p _ ih hr hne
  have hclosed : d.shared.queue.closed = true := by
    by_cases hev : ev.refused = []
    · exact ih (by simpa [hev] using hne)
    · exact rule_refused hr hev
  exact (queue_closed_stable (.single (.mk hr)) hclosed).1

/-- What one client submits is pushed in that order, and then refused in that order. -/
theorem submitted_in_order {c : System W Unit} {log : List (Thread W Unit × Event W)}
    (h : Run (rules capacity) init log c) :
    pushed log ++ refused log ++ ClientPc.undecided (c.pc (.inr ())) = submitted log := by
  refine h.induct (I := fun log d =>
    pushed log ++ refused log ++ ClientPc.undecided (d.pc (.inr ())) = submitted log) (by simp [init]) ?_
  intro log d t ev m p hrun ih hr
  have hpush : ev.pushed = [] ∨ refused log = [] := by
    by_cases hne : refused log = []
    · exact .inr hne
    · have := (queue_closed_stable (.single (.mk hr)) (closed_of_refused hrun hne)).2
      exact .inl (by simpa using this)
  simp only [pushed, refused, submitted, collect_append, collect_cons, collect_nil,
    List.append_nil] at ih hpush ⊢
  rcases t with w | i
  · obtain ⟨-, h1, h2, h3, -⟩ := WorkerRule.flow (w := w) hr
    rw [h1, h2, h3, Function.update_of_ne (by simp)]
    simpa using ih
  · have hstep := ClientRule.undecided (i := i) hr
    rw [Function.update_self, ← ih]
    rcases hpush with h0 | h0
    · rw [h0, List.nil_append] at hstep
      simp [h0, hstep]
    · simp only [h0, List.nil_append, List.append_nil] at ih ⊢
      simp only [List.append_assoc] at hstep ⊢
      rw [hstep]

end Order

end ThreadPool

end TaskEngine
