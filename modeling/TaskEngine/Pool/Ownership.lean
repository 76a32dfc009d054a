import TaskEngine.Pool.Promises
import TaskEngine.Pool.Timestamps

/-!
# TaskEngine.Pool.Ownership — who may touch an envelope

An envelope belongs to the `submit` it was handed to, to the queue, to the worker that popped it or to
the `shutdown_now` that removed it, until it is destroyed (`owning_from_init`); so no two threads ever own
the same one, nor one that is queued (`owned_disjoint`, `owned_unqueued`).  A step touches what its
thread owns, what it takes out of the queue under the mutex, and what it has just built (`rule_handover`).
-/

namespace TaskEngine

open Interleaving

namespace ThreadPool

variable {W : ℕ} {ι : Type}

/-! ## What the threads own -/

section Owned

/-- The envelopes that a step builds, moves, runs, fulfils or destroys. -/
def Event.touched : Event W → List TaskEnvelope
  | .submit e | .start e _ | .finish e _ | .fulfil e _ | .record e _ => [e]
  | .reject e _ | .refuse e | .discard e _ => [e]
  | .queue ev => ev.pushed ++ ev.popped ++ ev.drained
  | .leave k => k.discarded
  | _ => []

/-- The envelopes that a step destroys.  What the end of the destructor would destroy is gone by then. -/
def Event.destroyed : Event W → List TaskEnvelope
  | .record e _ | .refuse e => [e]
  | .leave k => k.discarded
  | _ => []

attribute [simp] Event.touched.eq_1 Event.touched.eq_2 Event.touched.eq_3 Event.touched.eq_4
  Event.touched.eq_5 Event.touched.eq_6 Event.touched.eq_7 Event.touched.eq_8 Event.touched.eq_9
  Event.touched.eq_10 Event.destroyed.eq_1 Event.destroyed.eq_2 Event.destroyed.eq_3

/-- What a `shutdown_now` has rejected and counted. -/
def ClientPc.counted : ClientPc → Multiset TaskEnvelope
  | .joining k _ => k.discarded
  | _ => 0

attribute [simp] ClientPc.counted.eq_1 ClientPc.counted.eq_2

def ClientPc.owned (p : ClientPc) : Multiset TaskEnvelope :=
  p.pending + p.refusal .count + p.discards .count + p.counted

/-- The envelopes that a thread owns. -/
def owned : (t : Thread W ι) → Pc t → Multiset TaskEnvelope
  | .inl _, p => WorkerPc.before .record p
  | .inr _, p => ClientPc.owned p

variable [DecidableEq ι] {capacity : ℕ}

/-- What a `shutdown_now` has counted it owns until it returns. -/
theorem ClientRule.counted {i : ι} {m m' : ThreadPool W ι} {p p' : ClientPc} {ev : Event W}
    (h : ClientRule capacity i m p ev m' p') :
    p'.counted + ↑(ev.destroyed) = p.counted + ev.discarded .count + ev.refusal .count := by
  cases h with
  | join h => cases h <;> simp [Event.destroyed]
  | closed => simp [Event.destroyed, Caller.discarded]
  | count => simp [Event.destroyed, Caller.discarded]
  | leave => simp [Event.destroyed]
  | _ => simp [Event.destroyed]

theorem WorkerRule.destroyed {w : Fin W} {m m' : ThreadPool W ι} {p p' : WorkerPc} {ev : Event W}
    (h : WorkerRule w m p ev m' p') : ev.destroyed = ev.reached .record := by
  cases h <;> simp [Event.destroyed]

/-- Owned or queued, from its submission until it is destroyed. -/
def owning (capacity : ℕ) : Ledger (rules (W := W) (ι := ι) capacity) (Multiset TaskEnvelope) where
  hand := owned
  store m := m.queue.items
  inflow ev := ev.submitted
  outflow ev := ev.destroyed
  balance t m p ev m' p' h := by
    have hitems : ((ev.popped ++ ev.drained ++ m'.queue.items : List TaskEnvelope) : Multiset TaskEnvelope) =
        ↑(m.queue.items ++ ev.pushed) := congrArg _ (rule_items h)
    rcases t with w | i
    · obtain ⟨hb, hs, hp, -, hd, -, -⟩ := WorkerRule.flow (w := w) h
      have hbefore := hb .record
      rw [← WorkerRule.destroyed h] at hbefore
      rw [hd, hp, List.append_nil, List.append_nil, ← Multiset.coe_add] at hitems
      rw [hs, Multiset.coe_nil, add_zero, ← hitems]
      calc WorkerPc.before .record p' + m'.queue.items + ev.destroyed
          = WorkerPc.before .record p' + ev.destroyed + m'.queue.items := by abel
        _ = WorkerPc.before .record p + ev.popped + m'.queue.items := by rw [hbefore]
        _ = _ := add_assoc _ _ _
    · obtain ⟨hp, hr, hd, hpop, -⟩ := ClientRule.flow (i := i) h
      have hc := ClientRule.counted (i := i) h
      have href := hr .count
      have hdis := hd .count
      rw [hpop, List.nil_append] at hitems
      ext e
      replace hitems := congrArg (Multiset.count e) hitems
      replace hp := congrArg (Multiset.count e) hp
      replace href := congrArg (Multiset.count e) href
      replace hdis := congrArg (Multiset.count e) hdis
      replace hc := congrArg (Multiset.count e) hc
      simp only [owned, ClientPc.owned, Multiset.count_add, ← Multiset.coe_add] at hitems hp href hdis hc ⊢
      omega

end Owned

/-! ## No two owners -/

section Owners

variable [DecidableEq ι] [Fintype ι] {capacity : ℕ} {c : System W ι} {log : List (Thread W ι × Event W)}
  {t u : Thread W ι} {e e' : TaskEnvelope}

theorem owning_from_init (h : Run (rules capacity) init log c) :
    ∑ t, owned t (c.pc t) + c.shared.queue.items + collect Event.destroyed log =
      (submitted log : Multiset TaskEnvelope) := by
  have hb := (owning capacity).run h
  have hinit : ∑ t, owned t ((init : System W ι).pc t) = 0 := by
    refine Finset.sum_eq_zero ?_
    rintro (w | i) - <;> rfl
  simp only [Ledger.hands, Ledger.income, Ledger.expense, owning, sum_map_coe, hinit] at hb
  rw [hb]
  exact (congrArg (· + _) (zero_add _)).trans (zero_add _)

theorem kept_le (h : Run (rules capacity) init log c) :
    ∑ t, owned t (c.pc t) + c.shared.queue.items ≤ (submitted log : Multiset TaskEnvelope) := by
  rw [← owning_from_init h]
  exact le_self_add

theorem kept_nodup (h : Run (rules capacity) init log c) :
    (∑ t, (owned t (c.pc t)).map TaskEnvelope.promise +
      (c.shared.queue.items.map TaskEnvelope.promise : Multiset ℕ)).Nodup := by
  have hle := Multiset.map_le_map (f := TaskEnvelope.promise) (kept_le h)
  rw [Multiset.map_add, Multiset.map_coe, Multiset.map_coe] at hle
  have hsum := map_sum (Multiset.mapAddMonoidHom TaskEnvelope.promise) (fun t => owned t (c.pc t)) Finset.univ
  rw [Multiset.coe_mapAddMonoidHom] at hsum
  rw [hsum] at hle
  exact Multiset.nodup_of_le hle (Multiset.coe_nodup.mpr (submitted_nodup h))

theorem owned_submitted (h : Run (rules capacity) init log c) (he : e ∈ owned t (c.pc t)) :
    e ∈ submitted log := by
  refine Multiset.mem_coe.mp (Multiset.mem_of_le (kept_le h) (Multiset.mem_add.mpr (.inl ?_)))
  exact Multiset.mem_sum.mpr ⟨t, Finset.mem_univ t, he⟩

theorem queued_submitted (h : Run (rules capacity) init log c) (he : e ∈ c.shared.queue.items) :
    e ∈ submitted log :=
  Multiset.mem_coe.mp (Multiset.mem_of_le (kept_le h) (Multiset.mem_add.mpr (.inr he)))

/-- What a thread owns is not queued. -/
theorem owned_unqueued (h : Run (rules capacity) init log c) (he : e ∈ owned t (c.pc t))
    (he' : e' ∈ c.shared.queue.items) : e.promise ≠ e'.promise := by
  have hn := kept_nodup h
  rw [Multiset.nodup_add] at hn
  intro heq
  refine Multiset.disjoint_left.mp hn.2.2 (?_ : e.promise ∈ _) ?_
  · exact Multiset.mem_sum.mpr ⟨t, Finset.mem_univ t, Multiset.mem_map_of_mem _ he⟩
  · rw [heq]
    exact List.mem_map_of_mem he'

/-- **One owner**: no other thread owns it. -/
theorem owned_disjoint (h : Run (rules capacity) init log c) (htu : t ≠ u) (he : e ∈ owned t (c.pc t))
    (he' : e' ∈ owned u (c.pc u)) : e.promise ≠ e'.promise := by
  have hn := kept_nodup h
  rw [Multiset.nodup_add, ← Finset.add_sum_erase _ _ (Finset.mem_univ t), Multiset.nodup_add] at hn
  intro heq
  refine Multiset.disjoint_left.mp hn.1.2.2 (Multiset.mem_map_of_mem _ he) ?_
  rw [heq]
  exact Multiset.mem_sum.mpr
    ⟨u, Finset.mem_erase.mpr ⟨Ne.symm htu, Finset.mem_univ u⟩, Multiset.mem_map_of_mem _ he'⟩

omit [Fintype ι] in
/-- A promise that has not been allocated belongs to no envelope. -/
theorem promise_lt (h : Run (rules capacity) init log c) (he : e ∈ submitted log) :
    e.promise < c.shared.promises.length := by
  have hmem : e.promise ∈ (submitted log).map (·.promise) := List.mem_map_of_mem he
  rwa [promises_of_submitted h, List.mem_range] at hmem

end Owners

/-! ## One step -/

section Steps

/-- Where the envelopes of a step come from and where they go. -/
structure Handover (t : Thread W ι) (m : ThreadPool W ι) (p : Pc t) (ev : Event W) (m' : ThreadPool W ι)
    (p' : Pc t) : Prop where
  owned : ∀ e ∈ owned t p', e ∈ ThreadPool.owned t p ∨
    e ∈ m.queue.items ∧ (.mutex : SyncObject W) ∈ ev.acquires ∨ ev = .submit e
  queued : ∀ e ∈ m'.queue.items, e ∈ m.queue.items ∨
    e ∈ ThreadPool.owned t p ∧ (.mutex : SyncObject W) ∈ ev.releases t
  touched : ∀ e ∈ ev.touched, e ∈ ThreadPool.owned t p ∨
    e ∈ m.queue.items ∧ (.mutex : SyncObject W) ∈ ev.acquires ∨ ev = .submit e

variable [DecidableEq ι] {capacity : ℕ} {m m' : ThreadPool W ι} {ev : Event W}

theorem WorkerRule.handover {w : Fin W} {p p' : WorkerPc} (h : WorkerRule w m p ev m' p') :
    Handover (.inl w) m p ev m' p' := by
  have hrule : rules 0 (.inl w) m p ev m' p' := h
  cases h with
  | pop h =>
    obtain ⟨hitem, hpushed, -, hdrained⟩ := h.flow
    have htaken : ∀ e ∈ (_ : BlockingQueue.Event TaskEnvelope).popped, e ∈ m.queue.items := fun e he => by
      simpa [hpushed] using (mem_items hrule).1 (.inl he)
    refine ⟨?_, ?_, ?_⟩
    · intro e he
      have he' : e ∈ BlockingQueue.PopPc.item _ := he
      rw [hitem, Multiset.mem_add] at he'
      exact he'.imp id fun he => .inl ⟨htaken e he, mem_sections (.inr (.inl he))⟩
    · intro e he
      exact .inl (by simpa [hpushed] using (mem_items hrule).2 he)
    · intro e he
      rw [Event.touched, hpushed, hdrained, List.nil_append, List.append_nil] at he
      exact .inr (.inl ⟨htaken e he, mem_sections (.inr (.inl he))⟩)
  | enter => exact ⟨fun e he => by simp [ThreadPool.owned] at he, fun e he => .inl he, by simp [Event.touched]⟩
  | start d =>
    exact ⟨fun e he => .inl (by simpa [ThreadPool.owned] using he), fun e he => .inl he,
      fun e he => .inl (by simpa [ThreadPool.owned] using he)⟩
  | finish f =>
    exact ⟨fun e he => .inl (by simpa [ThreadPool.owned] using he), fun e he => .inl he,
      fun e he => .inl (by simpa [ThreadPool.owned] using he)⟩
  | fulfil =>
    exact ⟨fun e he => .inl (by simpa [ThreadPool.owned] using he), fun e he => .inl (by simpa using he),
      fun e he => .inl (by simpa [ThreadPool.owned] using he)⟩
  | record =>
    exact ⟨fun e he => by simp [ThreadPool.owned] at he, fun e he => .inl he,
      fun e he => .inl (by simpa [ThreadPool.owned] using he)⟩
  | exit => exact ⟨fun e he => by simp [ThreadPool.owned] at he, fun e he => .inl he, by simp [Event.touched]⟩

theorem ClientRule.handover {i : ι} {p p' : ClientPc} (h : ClientRule capacity i m p ev m' p') :
    Handover (.inr i) m p ev m' p' := by
  have hrule : rules capacity (.inr i) m p ev m' p' := h
  have hmem : ∀ {e} {q : ClientPc}, e ∈ owned (W := W) (.inr i) q ↔
      e ∈ q.pending ∨ e ∈ q.refusal .count ∨ e ∈ q.discards .count ∨ e ∈ q.counted := by
    intro e q
    simp only [ThreadPool.owned, ClientPc.owned, Multiset.mem_add, or_assoc]
  cases h with
  | submit e _ _ =>
    refine ⟨?_, fun e he => .inl he, ?_⟩
    · intro e' he'
      obtain rfl : e' = e := by simpa [hmem] using he'
      exact .inr (.inr rfl)
    · intro e' he'
      obtain rfl : e' = e := by simpa using he'
      exact .inr (.inr rfl)
  -- `push` puts its argument into the queue, under the mutex, or keeps it
  | push h =>
    obtain ⟨hpend, hrefusal, hpopped, hdrained⟩ := h.flow
    have hdecided : ∀ e, e ∈ (_ : BlockingQueue.Event TaskEnvelope).pushed ∨
        e ∈ (_ : BlockingQueue.Event TaskEnvelope).refused → e ∈ BlockingQueue.PushPc.pending _ := fun e he => by
      rw [← hpend]
      simpa using .inr he
    refine ⟨?_, ?_, ?_⟩
    · intro e he
      rw [hmem] at he
      simp only [ClientPc.pending, ClientPc.refusal, hrefusal, ClientPc.discards, ClientPc.counted,
        Multiset.mem_add, Multiset.mem_coe, Multiset.notMem_zero, or_false] at he
      refine .inl (hmem.mpr ?_)
      rcases he with he | he | he
      · refine .inl ?_
        change e ∈ BlockingQueue.PushPc.pending _
        rw [← hpend]
        exact Multiset.mem_add.mpr (.inl he)
      · exact .inr (.inl he)
      · exact .inl (hdecided e (.inr he))
    · intro e he
      refine ((mem_items hrule).2 he).imp id fun he => ⟨hmem.mpr (.inl (hdecided e (.inl he))), ?_⟩
      exact mem_sections (.inl he)
    · intro e he
      rw [Event.touched, hpopped, hdrained, List.append_nil, List.append_nil] at he
      exact .inl (hmem.mpr (.inl (hdecided e (.inl he))))
  | close h =>
    obtain ⟨hpushed, -, hpopped, hdrained⟩ := h.flow
    exact ⟨fun e he => by simp [hmem] at he,
      fun e he => .inl (by simpa [hpushed] using (mem_items hrule).2 he),
      by simp [Event.touched, hpushed, hpopped, hdrained]⟩
  | drain h =>
    obtain ⟨hitems, hpushed, -, hpopped⟩ := h.flow
    have htaken : ∀ e ∈ (_ : BlockingQueue.Event TaskEnvelope).drained, e ∈ m.queue.items := fun e he => by
      simpa [hpushed] using (mem_items hrule).1 (.inr he)
    refine ⟨?_, ?_, ?_⟩
    · intro e he
      simp only [hmem, ClientPc.pending, ClientPc.refusal, ClientPc.discards, hitems, ClientPc.counted,
        Multiset.mem_add, Multiset.mem_coe, Multiset.notMem_zero, or_false, false_or] at he ⊢
      exact he.imp id fun he => .inl ⟨htaken e he, mem_sections (.inr (.inr he))⟩
    · intro e he
      exact .inl (by simpa [hpushed] using (mem_items hrule).2 he)
    · intro e he
      rw [Event.touched, hpushed, hpopped, List.append_nil, List.nil_append] at he
      exact .inr (.inl ⟨htaken e he, mem_sections (.inr (.inr he))⟩)
  | join h =>
    refine ⟨fun e he => .inl (by simpa [hmem] using he), fun e he => .inl (by rwa [h.toQueue.2] at he), ?_⟩
    cases h <;> simp [Event.touched]
  | reject _ =>
    exact ⟨fun e he => .inl (by simpa [hmem] using he), fun e he => .inl (by simpa using he),
      fun e he => .inl (by simpa [hmem] using he)⟩
  | refuse =>
    exact ⟨fun e he => by simp [hmem] at he, fun e he => .inl he, fun e he => .inl (by simpa [hmem] using he)⟩
  | discard =>
    refine ⟨fun e he => .inl ?_, fun e he => .inl (by simpa using he), fun e he => .inl ?_⟩
    · simpa [hmem, or_assoc] using he
    · simp [hmem] at he ⊢
      exact .inr (.inl he)
  -- the vector of what was drained lives until the call returns
  | count =>
    exact ⟨fun e he => .inl (by simpa [hmem, Caller.discarded] using he), fun e he => .inl he,
      by simp [Event.touched]⟩
  | leave =>
    exact ⟨fun e he => by simp [hmem] at he, fun e he => .inl (by simpa using he),
      fun e he => .inl (by simpa [hmem] using he)⟩
  | drained _ =>
    exact ⟨fun e he => .inl (by simpa [hmem] using he), fun e he => .inl he, by simp [Event.touched]⟩
  | closed =>
    exact ⟨fun e he => by simp [hmem, Caller.discarded] at he, fun e he => .inl he, by simp [Event.touched]⟩
  | accept => exact ⟨fun e he => by simp [hmem] at he, fun e he => .inl he, by simp [Event.touched]⟩
  | shutdown _ => exact ⟨fun e he => by simp [hmem] at he, fun e he => .inl he, by simp [Event.touched]⟩
  | destructor _ => exact ⟨fun e he => by simp [hmem] at he, fun e he => .inl he, by simp [Event.touched]⟩
  | shutdown_now _ => exact ⟨fun e he => by simp [hmem] at he, fun e he => .inl he, by simp [Event.touched]⟩

omit [DecidableEq ι] in
/-- The mutex of the queue is held for one step at a time. -/
theorem Event.releases_of_acquires {t : Thread W ι} (h : (.mutex : SyncObject W) ∈ ev.acquires) :
    (.mutex : SyncObject W) ∈ ev.releases t := by
  cases ev <;> simp [Event.acquires] at h
  exact h

/-- Only a `submit` allocates a promise, that of its envelope. -/
theorem rule_promises {t : Thread W ι} {p p' : Pc t} (h : rules capacity t m p ev m' p') :
    m.promises.length ≤ m'.promises.length ∧ ∀ e, ev = .submit e →
      e.promise = m.promises.length ∧ m'.promises.length = m.promises.length + 1 := by
  cases rule_heap h with
  | allocate e hev he hp _ =>
    refine ⟨by simp [hp], ?_⟩
    rintro e' rfl
    obtain rfl : e' = e := by simpa using hev.1
    exact ⟨he, by simp [hp]⟩
  | set e r hev hp _ =>
    refine ⟨?_, ?_⟩
    · rw [hp]
      unfold fulfil
      split
      · next h => exact (set_value_length h).ge
      · exact le_rfl
    · rintro e' rfl
      simp at hev
  | release hev hp _ =>
    refine ⟨by simp [hp], ?_⟩
    rintro e' rfl
    simp at hev

/-- **Hand-over**: a step touches what its thread owns, what it takes out of the queue under the mutex, and
what it has just built, and puts into the queue, under the mutex, only what its thread owned. -/
theorem rule_handover {t : Thread W ι} {p p' : Pc t} (h : rules capacity t m p ev m' p') :
    Handover t m p ev m' p' := by
  rcases t with w | i
  · exact WorkerRule.handover h
  · exact ClientRule.handover h

end Steps

end ThreadPool

end TaskEngine
