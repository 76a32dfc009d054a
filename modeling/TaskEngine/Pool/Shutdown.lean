import TaskEngine.Pool.Promises

/-!
# TaskEngine.Pool.Shutdown — what holds when a shutdown call returns

Past the join the queue is closed and empty and no worker is left, so everything that was popped has
been fulfilled.  What a `shutdown_now` has removed from the queue is fulfilled by that call alone,
after it has left the critical section, and another shutdown call does not wait for it:
`shutdown_return` says exactly when every accepted envelope has its promise set, and
`overlapping_abort` is a run in which one has not.
-/

namespace TaskEngine

open Interleaving

namespace ThreadPool

variable {W : ℕ} {ι : Type} [Fintype ι] [DecidableEq ι] {capacity : ℕ}
  {c c' : System W ι} {log : List (Thread W ι × Event W)}

/-! ## Past the join -/

section Joined

theorem reached_of_exited (h : Run (rules capacity) init log c) (hw : ∀ w, c.pc (.inl w) = .exited)
    (s : Stage) : (reached s log : Multiset TaskEnvelope) = popped log := by
  have hb := working_from_init s h
  rwa [exited_holds_nothing fun w => .inl (hw w), zero_add] at hb

omit [Fintype ι] in
theorem pushed_of_joined (hW : 0 < W) (h : Run (rules capacity) init log c)
    (hj : c.shared.joined = true) : popped log ++ drained log = pushed log := by
  have hq := queue_from_init h
  rwa [(exited_of_joined hW h hj).1.2, List.append_nil] at hq

/-- Past the join, the accepted envelopes are fulfilled exactly when no discard is left to reject. -/
theorem pushed_fulfilled_iff (hW : 0 < W) (h : Run (rules capacity) init log c)
    (hj : c.shared.joined = true) :
    (∀ e ∈ pushed log, ∃ r, c.shared.promises[e.promise]? = some (.value r)) ↔
      ∀ i, ClientPc.discards .fulfil (c.pc (.inr i)) = 0 := by
  have hh := honest hW h
  have hd := discarding_from_init .fulfil h
  constructor
  · intro hall i
    by_contra hne
    -- an envelope in a discard list was accepted and is not fulfilled
    obtain ⟨e, he⟩ := Multiset.exists_mem_of_ne_zero hne
    have hmem : e ∈ discardingAll .fulfil c := Multiset.mem_sum.mpr ⟨i, Finset.mem_univ i, he⟩
    obtain ⟨hsub, hnf⟩ := unfulfilled_of_held (e := e) h (by simp [hmem])
    have hdr : e ∈ drained log := by
      rw [← Multiset.mem_coe, ← hd]
      exact Multiset.mem_add.mpr (.inl hmem)
    obtain ⟨r, hr⟩ := hall e (by rw [← pushed_of_joined hW h hj]; exact List.mem_append_right _ hdr)
    rw [hh.unset e hsub hnf] at hr
    cases hr
  · intro hnone e he
    rw [discardingAll, Finset.sum_eq_zero fun i _ => hnone i, zero_add] at hd
    have hf : e ∈ fulfilled log := by
      rw [← Multiset.mem_coe, fulfilled_eq, reached_of_exited h (exited_of_joined hW h hj).2, hd]
      rw [← pushed_of_joined hW h hj, List.mem_append] at he
      rcases he with he | he <;> simp [he]
    obtain ⟨f, hmem, rfl⟩ := List.mem_map.mp hf
    exact ⟨f.2, hh.value f hmem⟩

end Joined

/-! ## The return of a call -/

section Return

/-- **The postcondition of a shutdown call**: when it returns, the queue is closed and empty, and
every accepted envelope has its promise set if and only if no call holds an envelope that it has
drained and not yet rejected. -/
theorem shutdown_return (hW : 0 < W) (h : Run (rules capacity) init log c) {i : ι} {k : Caller}
    (hs : Step (rules capacity) c (.inr i, .leave k) c') :
    (c'.shared.queue.closed = true ∧ c'.shared.queue.items = [] ∧
      ∀ e ∈ pushed log, ∃ r, c'.shared.promises[e.promise]? = some (.value r)) ↔
    ∀ j, ClientPc.discards .fulfil (c.pc (.inr j)) = 0 := by
  have h' := h.tail hs
  cases hs with
  | @mk _ _ m p hr =>
    generalize hp : c.pc (.inr i) = q at hr
    cases (hr : ClientRule capacity i _ _ _ _ _) with
    | join h => cases h
    | leave =>
      have hj : (c.shared.leave k).joined = true := by simpa using joined_of_done h hp
      have hiff := pushed_fulfilled_iff hW h' hj
      obtain ⟨hc, hi⟩ := (exited_of_joined hW h' hj).1
      simp only [pushed, collect_append, collect_cons, Event.pushed, collect_nil, List.append_nil] at hiff ⊢
      rw [iff_true_intro hc, iff_true_intro hi, true_and, true_and, hiff]
      apply forall_congr'
      intro j
      by_cases hji : j = i
      · subst hji; simp [hp]
      · simp [update_client_of_ne _ hji]

/-- The worker has run what was accepted and nothing was discarded: the postcondition holds. -/
theorem shutdown_return_drainRun :
    drainRun.2.shared.queue.closed = true ∧ drainRun.2.shared.queue.items = [] ∧
      ∀ e ∈ pushed drainRun.1, ∃ r, drainRun.2.shared.promises[e.promise]? = some (.value r) :=
  (shutdown_return (by decide) drainRun_run drainRun_leave).mpr (by decide)

/-- A schedule: client 0 submits a task, client 1 drains the queue in `shutdown_now` and is held up
there, and client 2 runs `shutdown` and joins the worker, which has found nothing to do. -/
def overlapSchedule : List (Thread 1 (Fin 3) × Act 1 (Fin 3)) :=
  [(.inr 0, .submit 1 ⟨.returns⟩ 0), (.inr 0, .queue .lock), (.inr 0, .queue (.notify none)),
   (.inr 0, .go), (.inr 1, .shutdown_now), (.inr 1, .queue .lock), (.inr 2, .shutdown .shutdown),
   (.inr 2, .queue .lock), (.inr 2, .go), (.inl 0, .go), (.inl 0, .queue .lock), (.inl 0, .go),
   (.inr 2, .go), (.inr 2, .go), (.inr 2, .go)]

/-- Its log, and the configuration in which the `shutdown` is about to return. -/
def overlapRun :
    List (Thread 1 (Fin 3) × Event 1) × System 1 (Fin 3) :=
  (play (act 1) overlapSchedule init).get rfl

/-- **A pending future after a shutdown**: the `shutdown` of that run returns while the accepted
envelope still has its promise unset. -/
theorem overlapping_abort :
    ¬ ∀ (W capacity : ℕ) (log : List (Thread W (Fin 3) × Event W))
      (c c' : System W (Fin 3)) (i : Fin 3) (k : Caller),
      0 < W → 0 < capacity → Run (rules capacity) init log c →
      Step (rules capacity) c (.inr i, .leave k) c' →
      c'.shared.queue.closed = true ∧ c'.shared.queue.items = [] ∧
        ∀ e ∈ pushed log, ∃ r, c'.shared.promises[e.promise]? = some (.value r) := by
  intro hall
  have hrun : Run (rules 1) init overlapRun.1 overlapRun.2 := play_run act_sound rfl
  have hleave : Step (rules 1) overlapRun.2 (.inr (2 : Fin 3), .leave (.close .shutdown))
      ⟨overlapRun.2.shared, Function.update overlapRun.2.pc (.inr 2) .idle⟩ :=
    .mk (show ClientRule 1 2 overlapRun.2.shared (.joining (.close .shutdown) .done)
      (.leave (.close .shutdown)) overlapRun.2.shared .idle from .leave)
  have hpending : overlapRun.2.shared.promises = [.unset] := rfl
  have hpushed : pushed overlapRun.1 = [⟨1, ⟨.returns⟩, 0, 0⟩] := rfl
  have hafter := hall _ _ _ _ _ _ _ (by decide) (by decide) hrun hleave
  obtain ⟨r, hr⟩ := hafter.2.2 ⟨1, ⟨.returns⟩, 0, 0⟩ (by rw [hpushed]; exact List.mem_singleton.mpr rfl)
  simp [hpending] at hr

end Return

end ThreadPool

end TaskEngine
