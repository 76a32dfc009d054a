import TaskEngine.Pool.Budget
import TaskEngine.Pool.Promises

/-!
# TaskEngine.Pool.Quiescence — where a pool comes to rest

Left alone, with no new call and no spurious wake-up, a pool comes to rest, open or closed: its steps are
paid for by the calls made (`length_le`), and it can go on exactly until every call has returned, every
promise holds a result and every worker waits for work or, on a closed queue, has exited (`quiescence`).
-/

namespace TaskEngine

open Interleaving

namespace ThreadPool

variable {W : ℕ} {ι : Type}

/-- A worker that is blocked in `pop`. -/
def WaitsForWork (c : System W ι) (w : Fin W) : Prop :=
  c.pc (.inl w) = .popping .waiting ∧ .inl w ∈ c.shared.queue.not_empty.waiting

/-- At rest. -/
structure Quiescent (c : System W ι) : Prop where
  idle : ∀ i, c.pc (.inr i) = .idle
  items : c.shared.queue.items = []
  fulfilled : ∀ p ∈ c.shared.promises, ∃ r, p = .value r
  waiting : c.shared.queue.closed = false → ∀ w, WaitsForWork c w
  exited : c.shared.queue.closed = true → c.shared.joined = true ∧ ∀ w, c.pc (.inl w) = .exited

variable [DecidableEq ι] {capacity : ℕ} {c : System W ι} {log : List (Thread W ι × Event W)}

/-! ## At rest -/

section Rest

theorem Quiescent.not_canGoOn (h : Quiescent c) : ¬ CanGoOn capacity c := by
  rintro ⟨⟨t, ev⟩, c', ⟨hr⟩, hspurious, hstarts⟩
  rcases t with w | i
  · cases hc : c.shared.queue.closed with
    | true =>
      rw [(h.exited hc).2 w] at hr
      cases (hr : WorkerRule w _ _ _ _ _)
    | false =>
      obtain ⟨hp, hwait⟩ := h.waiting hc w
      rw [hp] at hr
      cases (hr : WorkerRule w _ _ _ _ _) with
      | pop hpop =>
        cases hpop with
        | resume hw _ => exact hw hwait
        | spurious _ => exact hspurious rfl
  · rw [h.idle i] at hr
    cases (hr : ClientRule capacity i _ _ _ _ _) <;> cases hstarts

end Rest

/-! ## Coming to rest -/

section Stuck

variable [Fintype ι]

theorem worker_of_stuck (h : Run (rules capacity) init log c) (hno : ¬ CanGoOn capacity c) (w : Fin W) :
    WaitsForWork c w ∨ c.pc (.inl w) = .exited := by
  by_cases hw : .inl w ∈ c.shared.queue.not_empty.waiting
  · refine .inl ⟨?_, hw⟩
    have hplace : (WorkerPc.place (c.pc (.inl w))).consuming = true := (queue_awake h).consumers.waiting _ hw
    generalize c.pc (.inl w) = p at hplace ⊢
    rcases p with _ | (_ | _ | _ | _) | _ | _ | _ | _ <;>
      first | rfl | cases hplace
  · refine .inr ?_
    by_contra hne
    exact hno (worker_canMove hw hne).canGoOn

/-- Where nobody is inside a call and no worker has an envelope, every promise holds a result. -/
theorem fulfilled_of_rest (hW : 0 < W) (h : Run (rules capacity) init log c)
    (hidle : ∀ i, c.pc (.inr i) = .idle) (hitems : c.shared.queue.items = [])
    (hw : ∀ w, WaitsForWork c w ∨ c.pc (.inl w) = .exited) : ∀ p ∈ c.shared.promises, ∃ r, p = .value r := by
  obtain ⟨h1, h2, h3⟩ := idle_holds_nothing hidle
  have h4 : workingAll .fulfil c = 0 := by
    refine Finset.sum_eq_zero fun w _ => ?_
    rcases hw w with hp | hp
    · rw [hp.1]
      rfl
    · rw [hp]
      rfl
  have hall : (fulfilled log : Multiset TaskEnvelope) = submitted log := by
    rw [← placement h, h1, h2, h3, h4, hitems]
    simp
  intro p hp
  obtain ⟨k, hk⟩ := List.mem_iff_getElem?.mp hp
  -- the `k`-th promise is that of the `k`-th submission
  have hmem : k ∈ (submitted log).map (·.promise) := by
    rw [promises_of_submitted h, List.mem_range]
    exact (List.getElem?_eq_some_iff.mp hk).1
  obtain ⟨e, he, rfl⟩ := List.mem_map.mp hmem
  have hful : e ∈ fulfilled log := by
    rw [← Multiset.mem_coe, hall]
    exact he
  obtain ⟨f, hf, rfl⟩ := List.mem_map.mp hful
  exact ⟨f.2, Option.some.inj (hk.symm.trans ((honest hW h).value f hf))⟩

/-- **Where nothing goes on**, the pool is at rest. -/
theorem quiescent_of_stuck (hcap : 0 < capacity) (hW : 0 < W) (h : Run (rules capacity) init log c)
    (hno : ¬ CanGoOn capacity c) : Quiescent c := by
  have hidle : ∀ i, c.pc (.inr i) = .idle := fun i => by
    by_contra hi
    exact hno (call_canGoOn hcap hW h hi)
  have hworker := worker_of_stuck h hno
  obtain ⟨hg, hj⟩ := joins h
  cases hc : c.shared.queue.closed with
  | true =>
    have hexited : ∀ w, c.pc (.inl w) = .exited := fun w => by
      by_contra hw
      exact hno (progress h hc (.inl ⟨w, hw⟩))
    have hitems : c.shared.queue.items = [] := (exhausted_of_exited hW h hexited).2
    refine ⟨hidle, hitems, fulfilled_of_rest hW h hidle hitems hworker, ?_, fun _ => ⟨?_, hexited⟩⟩
    · intro hopen
      rw [hc] at hopen
      cases hopen
    · refine (joined_or_closing h hc).resolve_right ?_
      rintro ⟨w | i, ht⟩
      · cases ht
      · rw [hidle i] at ht
        cases ht
  | false =>
    -- an open queue lets no worker exit, so each is blocked
    have hwaits : ∀ w, WaitsForWork c w := fun w => by
      refine (hworker w).resolve_right fun hw => ?_
      have hclosed := (hg.finished_exhausted w ((WorkerPc.Joins.finished (hj (.inl w))).mpr hw)).1
      rw [hc] at hclosed
      cases hclosed
    have hq := (toQueue capacity).run h
    rw [toQueue_init] at hq
    have hblocked : ∀ w, BlockingQueue.BlockedEmpty ((toQueue capacity).config c) (.inl w) := fun w =>
      ⟨(queue_awake h).consumers.waiting _ (hwaits w).2, (hwaits w).2⟩
    have hitems : c.shared.queue.items = [] := by
      refine (((BlockingQueue.awake hq).open_of_all_blocked ?_).1 _ (hblocked ⟨0, hW⟩)).2
      rintro (w | i) hne
      · exact .inl (hblocked w)
      · refine absurd ?_ hne
        show ClientPc.place (c.pc (.inr i)) = .idle
        rw [hidle i]
        rfl
    refine ⟨hidle, hitems, fulfilled_of_rest hW h hidle hitems hworker, fun _ => hwaits, ?_⟩
    intro hclosed
    rw [hc] at hclosed
    cases hclosed

omit [DecidableEq ι] [Fintype ι] in
theorem Event.cost_eq_zero {ev : Event W} {n : ℕ} :
    ev.cost n = 0 ↔ ev ≠ .queue .spurious ∧ ev.starts = false := by
  cases ev with
  | queue ev => cases ev <;> simp [BlockingQueue.Event.cost, Event.starts]
  | _ => simp [Event.cost, Event.starts, closingBudget]

/-- **Quiescence.**  A run has no more steps than its calls are worth, two for every spurious wake-up and a
constant; the pool can go on, but by new calls and spurious wake-ups, exactly while it is not at rest; and from
every reachable configuration it comes to rest without either. -/
theorem quiescence (hcap : 0 < capacity) (hW : 0 < W) (h : Run (rules capacity) init log c) :
    log.length ≤ 6 * W + 2 * Fintype.card ι + (log.map fun l => l.2.cost (Fintype.card (Thread W ι))).sum ∧
    (CanGoOn capacity c ↔ ¬ Quiescent c) ∧
    ∃ log' c', Run (rules capacity) c log' c' ∧
      (∀ l ∈ log', l.2 ≠ .queue .spurious ∧ l.2.starts = false) ∧ Quiescent c' := by
  refine ⟨length_le h, ⟨fun hgo hq => hq.not_canGoOn hgo, fun hq => ?_⟩, ?_⟩
  · by_contra hno
    exact hq (quiescent_of_stuck hcap hW h hno)
  · have hgo : ∀ log (d : System W ι), Run (rules capacity) init log d → ¬ Quiescent d →
        ∃ l d', Step (rules capacity) d l d' ∧ l.2.cost (Fintype.card (Thread W ι)) = 0 := by
      intro log d hd hq
      by_contra hno
      refine hq (quiescent_of_stuck hcap hW hd ?_)
      rintro ⟨l, d', hs, hl⟩
      exact hno ⟨l, d', hs, Event.cost_eq_zero.mpr hl⟩
    obtain ⟨log', c', hrun, hfree, hrest⟩ := (budget capacity).reaches hgo h
    exact ⟨log', c', hrun, fun l hl => Event.cost_eq_zero.mp (hfree l hl), hrest⟩

/-- With a `shutdown` about to return the pool is not at rest yet. -/
theorem quiescence_drainRun : CanGoOn 1 drainRun.2 := by
  refine (quiescence (by decide) (by decide) drainRun_run).2.1.mpr fun hq => ?_
  cases hq.idle 1

end Stuck

end ThreadPool

end TaskEngine
