import TaskEngine.Interleaving.HappensBefore
import TaskEngine.Pool.Threads

/-!
# TaskEngine.Pool.Timestamps — the three instants of a task are in order

The clock is read at the submission, before and after the run, at a refusal, and once for all that a
`shutdown_now` has drained.  The threads are ordered by the mutex of the queue, by `shutdown_mutex_` and by
the join of a worker that has returned (`clock`).  An envelope carries its submission over the mutex to
whoever runs or rejects it, so with a clock that does not decrease along that order the instants of every
result and of every sample are in order (`timed`).
-/

namespace TaskEngine

open Interleaving

/-- The instants of a result, which has no execution window where it was rejected. -/
structure TaskResult.Causal (r : TaskResult) : Prop where
  timings : r.timings.Causal
  rejected : r.state = .Rejected → r.timings.dequeued = r.timings.finished

namespace ThreadPool

variable {W : ℕ} {ι : Type}

/-! ## The order of the threads -/

section Clock

/-- What orders the threads of a pool; `caller` is an object of the callers' own. -/
inductive SyncObject (W : ℕ)
  | mutex
  | shutdown_mutex
  | thread (w : Fin W)
  | caller (k : ℕ)

/-- The critical sections of the queue that decide a call. -/
def sections : BlockingQueue.Event TaskEnvelope → List (SyncObject W)
  | .silent | .spurious => []
  | _ => [.mutex]

def Event.acquires : Event W → List (SyncObject W)
  | .queue ev => sections ev
  | .lock | .joined => [.shutdown_mutex]
  | .join w => [.thread w]
  | _ => []

def Event.releases : Thread W ι → Event W → List (SyncObject W)
  | _, .queue ev => sections ev
  | _, .lock | _, .joined => [.shutdown_mutex]
  | .inl w, .exit => [.thread w]
  | _, _ => []

/-- The reading of the clock in a step. -/
def Event.readings : Event W → List TimePoint
  | .submit e => [e.submitted]
  | .start _ now | .finish _ now | .drain _ now => [now]
  | .reject _ r => [r.timings.finished]
  | _ => []

/-- The order of the threads and the readings of `steady_clock`. -/
def clock : Sync (Thread W ι) (Event W) (SyncObject W) TimePoint where
  acquires l := l.2.acquires
  releases l := Event.releases l.1 l.2
  reads l := l.2.readings

end Clock

/-! ## Instants in order -/

section Timed

/-- The results delivered and the samples recorded have their instants in order, and the submission of what
is queued is passed on with the mutex. -/
structure Timed (log : List (Thread W ι × Event W)) (m : ThreadPool W ι) : Prop where
  items : ∀ e ∈ m.queue.items, clock.Passed log .mutex e.submitted
  results : ∀ f ∈ fulfilments log, f.2.Causal
  samples : ∀ w, ∀ s ∈ m.samples w, s.timings.Causal

/-- What a worker knows of the instants of its envelope. -/
def WorkerPc.Timed (log : List (Thread W ι × Event W)) (t : Thread W ι) : WorkerPc → Prop
  | .popping p => ∀ e ∈ p.item, clock.Knows log t e.submitted
  | .running e dequeued => e.submitted ≤ dequeued ∧ clock.Knows log t dequeued
  | .executed e dequeued finished => e.submitted ≤ dequeued ∧ dequeued ≤ finished
  | .recording _ s => s.timings.Causal
  | _ => True

/-- What a client knows of the instants of its envelopes. -/
def ClientPc.Timed (log : List (Thread W ι × Event W)) (t : Thread W ι) : ClientPc → Prop
  | .pushing p => ∀ e ∈ p.pending + p.refusal, clock.Knows log t e.submitted
  | .draining p => ∀ e ∈ p.items, clock.Knows log t e.submitted
  | .discarding finished _ rest => ∀ e ∈ rest, e.submitted ≤ finished
  | _ => True

def TimedAt (log : List (Thread W ι × Event W)) : (t : Thread W ι) → Pc t → Prop
  | .inl w, p => WorkerPc.Timed log (.inl w) p
  | .inr i, p => ClientPc.Timed log (.inr i) p

variable {m m' : ThreadPool W ι} {log : List (Thread W ι × Event W)}

theorem TimedAt.later {t : Thread W ι} {p : Pc t} (h : TimedAt log t p) (l : Thread W ι × Event W) :
    TimedAt (log ++ [l]) t p := by
  rcases t with w | i
  · cases p with
    | popping p => exact fun e he => (h e he).later
    | running e d => exact ⟨h.1, h.2.later⟩
    | _ => exact h
  · cases p with
    | pushing p => exact fun e he => (h e he).later
    | draining p => exact fun e he => (h e he).later
    | _ => exact h

/-- A step that puts nothing into the queue, fulfils nothing and records nothing. -/
theorem Timed.frame (h : Timed log m) {l : Thread W ι × Event W} (hev : l.2.fulfilment = [])
    (hi : ∀ e ∈ m'.queue.items, e ∈ m.queue.items) (hs : m'.samples = m.samples) :
    Timed (log ++ [l]) m' where
  items e he := (h.items e (hi e he)).later
  results f hf := h.results f (by simpa [hev] using hf)
  samples := by rw [hs]; exact h.samples

/-- A step that fulfils, and leaves the queue and the buffers. -/
theorem Timed.fulfil (h : Timed log m) {l : Thread W ι × Event W} {e : TaskEnvelope} {r : TaskResult}
    (hev : l.2.fulfilment = [(e, r)]) (hr : r.Causal) : Timed (log ++ [l]) (m.fulfil e r) where
  items e' he' := (h.items e' (by simpa using he')).later
  results f hf := by
    rcases List.mem_append.mp (by simpa [hev] using hf : f ∈ fulfilments log ++ [(e, r)]) with hf | hf
    · exact h.results f hf
    · rw [List.mem_singleton.mp hf]
      exact hr
  samples := by rw [fulfil_samples]; exact h.samples

theorem causal_result {e : TaskEnvelope} {dequeued finished : TimePoint} (hd : e.submitted ≤ dequeued)
    (hf : dequeued ≤ finished) : (e.result dequeued finished).Causal where
  timings := by rw [TaskEnvelope.result_timings]; exact ⟨hd, hf⟩
  rejected h := absurd (e.result_state dequeued finished ▸ h) e.outcome_ne_rejected

theorem causal_rejection {e : TaskEnvelope} {finished : TimePoint} (hf : e.submitted ≤ finished) :
    (e.rejection finished).Causal where
  timings := ⟨hf, le_rfl⟩
  rejected _ := rfl

/-- Whatever moves an envelope into the queue or out of it decides a call. -/
theorem mem_sections {ev : BlockingQueue.Event TaskEnvelope} {e : TaskEnvelope}
    (h : e ∈ ev.pushed ∨ e ∈ ev.popped ∨ e ∈ ev.drained) : (.mutex : SyncObject W) ∈ sections ev := by
  cases ev <;> simp [sections] at h ⊢

variable [DecidableEq ι] {capacity : ℕ}

/-- What a step of the queue removes was in it, and what is in it then was, or has been pushed. -/
theorem mem_items {t : Thread W ι} {p p' : Pc t} {ev : BlockingQueue.Event TaskEnvelope}
    (h : rules capacity t m p (.queue ev) m' p') {e : TaskEnvelope} :
    (e ∈ ev.popped ∨ e ∈ ev.drained → e ∈ m.queue.items ∨ e ∈ ev.pushed) ∧
      (e ∈ m'.queue.items → e ∈ m.queue.items ∨ e ∈ ev.pushed) := by
  have hitems : ev.popped ++ ev.drained ++ m'.queue.items = m.queue.items ++ ev.pushed := rule_items h
  have hmem : ∀ e, e ∈ ev.popped ++ ev.drained ++ m'.queue.items ↔ e ∈ m.queue.items ++ ev.pushed := by
    simp [hitems]
  simp only [List.mem_append] at hmem
  exact ⟨fun he => (hmem e).mp (.inl he), fun he => (hmem e).mp (.inr he)⟩

theorem WorkerRule.timed {w : Fin W} {p p' : WorkerPc} {ev : Event W}
    (hm : clock.Monotone (log ++ [((.inl w : Thread W ι), ev)])) (hg : Timed log m)
    (hat : p.Timed log (.inl w)) (h : WorkerRule w m p ev m' p') :
    Timed (log ++ [((.inl w : Thread W ι), ev)]) m' ∧ p'.Timed (log ++ [((.inl w : Thread W ι), ev)]) (.inl w) := by
  have hrule : rules 0 (.inl w) m p ev m' p' := h
  cases h with
  | enter => exact ⟨hg.frame rfl (fun _ => id) rfl, by simp [WorkerPc.Timed]⟩
  | pop h =>
    obtain ⟨hitem, hpushed, -, -⟩ := h.flow
    refine ⟨hg.frame rfl ?_ rfl, ?_⟩
    · intro e he
      simpa [hpushed] using (mem_items hrule).2 he
    · intro e he
      rw [hitem, Multiset.mem_add] at he
      rcases he with he | he
      · exact (hat e he).later
      · have hold : e ∈ m.queue.items := by simpa [hpushed] using (mem_items hrule).1 (.inl he)
        exact (hg.items e hold).acquire (mem_sections (.inr (.inl he)))
  -- the clock is read by a thread that knows of the submission
  | start d =>
    have hle := hm.le (hat _ (Multiset.mem_singleton_self _)) (List.mem_singleton.mpr rfl)
    exact ⟨hg.frame rfl (fun _ => id) rfl, hle, .read (List.mem_singleton.mpr rfl)⟩
  | finish f =>
    have hle := hm.le hat.2 (List.mem_singleton.mpr rfl)
    exact ⟨hg.frame rfl (fun _ => id) rfl, hat.1, hle⟩
  | fulfil => exact ⟨hg.fulfil rfl (causal_result hat.1 hat.2), hat.1, hat.2⟩
  | @record e s =>
    refine ⟨⟨fun e' he' => (hg.items e' he').later, fun f hf => hg.results f (by simpa using hf), ?_⟩,
      by simp [WorkerPc.Timed]⟩
    intro v s' hs'
    by_cases hv : v = w
    · subst hv
      rcases List.mem_append.mp (by simpa [ThreadPool.record] using hs' : s' ∈ m.samples v ++ [s])
        with hs' | hs'
      · exact hg.samples v s' hs'
      · rw [List.mem_singleton.mp hs']
        exact hat
    · exact hg.samples v s' (by simpa [ThreadPool.record, Function.update_of_ne hv] using hs')
  | exit => exact ⟨hg.frame rfl (fun _ => id) rfl, trivial⟩

theorem ClientRule.timed {i : ι} {p p' : ClientPc} {ev : Event W}
    (hm : clock.Monotone (log ++ [((.inr i : Thread W ι), ev)])) (hg : Timed log m)
    (hat : p.Timed log (.inr i)) (h : ClientRule capacity i m p ev m' p') :
    Timed (log ++ [((.inr i : Thread W ι), ev)]) m' ∧ p'.Timed (log ++ [((.inr i : Thread W ι), ev)]) (.inr i) := by
  have hrule : rules capacity (.inr i) m p ev m' p' := h
  cases h with
  | submit e _ _ =>
    refine ⟨hg.frame rfl (fun _ => id) rfl, ?_⟩
    intro e' he'
    obtain rfl : e' = e := by simpa using he'
    exact .read (List.mem_singleton.mpr rfl)
  | push h =>
    obtain ⟨hpend, hrefusal, hpopped, hdrained⟩ := h.flow
    refine ⟨⟨?_, fun f hf => hg.results f (by simpa using hf), hg.samples⟩, ?_⟩
    · intro e he
      rcases (mem_items hrule).2 he with he | he
      · exact (hg.items e he).later
      · refine (hat e ?_).release (mem_sections (.inl he))
        simp [← hpend, he]
    · intro e he
      refine (hat e ?_).later
      rw [← hpend]
      simp only [hrefusal, Multiset.mem_add, Multiset.mem_coe, List.mem_append] at he ⊢
      tauto
  | @reject e f =>
    have hknows : clock.Knows log (.inr i) e.submitted := hat e (by simp)
    exact ⟨hg.fulfil rfl (causal_rejection (hm.le hknows (List.mem_singleton.mpr rfl))), trivial⟩
  | close h =>
    obtain ⟨hpushed, -, -, -⟩ := h.flow
    exact ⟨hg.frame rfl (fun e he => by simpa [hpushed] using (mem_items hrule).2 he) rfl, trivial⟩
  | shutdown_now _ => exact ⟨hg.frame rfl (fun _ => id) rfl, by simp [ClientPc.Timed]⟩
  | drain h =>
    obtain ⟨hitems, hpushed, -, -⟩ := h.flow
    refine ⟨hg.frame rfl (fun e he => by simpa [hpushed] using (mem_items hrule).2 he) rfl, ?_⟩
    intro e he
    rw [hitems, Multiset.mem_add] at he
    rcases he with he | he
    · exact (hat e he).later
    · have hold : e ∈ m.queue.items := by simpa [hpushed] using (mem_items hrule).1 (.inr he)
      exact (hg.items e hold).acquire (mem_sections (.inr (.inr he)))
  -- one reading, after all of the envelopes were submitted
  | drained f =>
    exact ⟨hg.frame rfl (fun _ => id) rfl, fun e he => hm.le (hat e he) (List.mem_singleton.mpr rfl)⟩
  | discard =>
    exact ⟨hg.fulfil rfl (causal_rejection (hat _ (by simp))), fun e he => hat e (List.mem_cons_of_mem _ he)⟩
  | join h => cases h <;> exact ⟨hg.frame rfl (fun _ => id) rfl, trivial⟩
  | leave => exact ⟨hg.frame rfl (fun _ => by simp) (leave_samples _ _), trivial⟩
  | _ => exact ⟨hg.frame rfl (fun _ => id) rfl, trivial⟩

/-- The proof outline of the instants, for a clock that respects the order of the threads. -/
def timedOutline (capacity : ℕ) : Outline (rules (W := W) (ι := ι) capacity) where
  Global log m := clock.Monotone log → Timed log m
  At t p log _ := clock.Monotone log → TimedAt log t p
  own log t m p ev m' p' hg hat h := by
    suffices hall : clock.Monotone (log ++ [(t, ev)]) →
        Timed (log ++ [(t, ev)]) m' ∧ TimedAt (log ++ [(t, ev)]) t p' from
      ⟨fun hm => (hall hm).1, fun hm => (hall hm).2⟩
    intro hm
    rcases t with w | i
    · exact WorkerRule.timed hm (hg hm.prefix) (hat hm.prefix) h
    · exact ClientRule.timed hm (hg hm.prefix) (hat hm.prefix) h
  others _ _ _ _ _ _ _ _ _ _ _ _ _ hq hm := (hq hm.prefix).later _

variable {c : System W ι}

theorem timed (h : Run (rules capacity) init log c) (hm : clock.Monotone log) :
    Timed log c.shared ∧ ∀ t, TimedAt log t (c.pc t) := by
  obtain ⟨hg, hat⟩ := (timedOutline capacity).run h
    ⟨fun _ => ⟨by simp [init, fresh, BlockingQueue.empty], by simp, by simp [init, fresh]⟩, fun t _ => by
      rcases t with w | i <;> exact trivial⟩
  exact ⟨hg hm, fun t => hat t hm⟩

end Timed

/-! ## The futures -/

section Futures

variable [DecidableEq ι] {capacity : ℕ} {c : System W ι} {log : List (Thread W ι × Event W)}

theorem value_of_destroy {promises : List Promise} {es : List TaskEnvelope} {r : TaskResult}
    (h : .value r ∈ es.foldl destroy promises) : .value r ∈ promises := by
  induction es generalizing promises with
  | nil => exact h
  | cons e es ih =>
    have hmem := ih h
    unfold destroy at hmem
    split at hmem
    · exact (List.mem_or_eq_of_mem_set hmem).resolve_right (by simp)
    · exact hmem

/-- What a future delivers has been put there by a `set_value`. -/
theorem value_fulfilled (h : Run (rules capacity) init log c) {r : TaskResult}
    (hr : .value r ∈ c.shared.promises) : ∃ e, (e, r) ∈ fulfilments log := by
  revert hr
  refine h.induct (I := fun log d => .value r ∈ d.shared.promises → ∃ e, (e, r) ∈ fulfilments log)
    (fun hr => by simp [init, fresh] at hr) ?_
  intro log d t ev m p _ ih hstep hr
  have hold : .value r ∈ d.shared.promises → ∃ e, (e, r) ∈ fulfilments (log ++ [(t, ev)]) := by
    intro hr
    obtain ⟨e, he⟩ := ih hr
    exact ⟨e, by simp [he]⟩
  cases rule_heap hstep with
  | allocate e _ _ hp _ => exact hold (by simpa [hp] using hr)
  | set e r' hev hp _ =>
    simp only [hp, ThreadPool.fulfil, set_value] at hr
    split at hr
    · next promises hset =>
      split at hset
      · cases hset
        rcases List.mem_or_eq_of_mem_set hr with hr | hr
        · exact hold hr
        · cases hr
          exact ⟨e, by simp [hev.2]⟩
      · cases hset
    · exact hold hr
  | release _ hp _ => exact hold (value_of_destroy (by rwa [hp] at hr))

/-- With a clock that respects the order of the threads, every result delivered has its instants in order. -/
theorem causal_of_value (h : Run (rules capacity) init log c) (hm : clock.Monotone log) {r : TaskResult}
    (hr : .value r ∈ c.shared.promises) : r.Causal := by
  obtain ⟨e, he⟩ := value_fulfilled h hr
  exact (timed h hm).1.results _ he

/-- The envelopes were rejected at one instant. -/
def RejectedTogether (log : List (Thread W ι × Event W)) (finished : TimePoint) (es : List TaskEnvelope) : Prop :=
  ∀ e ∈ es, (e, e.rejection finished) ∈ fulfilments log

/-- What `shutdown_now` has rejected so far, and what it has counted. -/
def ClientPc.Rejected (log : List (Thread W ι × Event W)) : ClientPc → Prop
  | .discarding finished rejected _ => RejectedTogether log finished rejected
  | _ => True

/-- The rejections of one `shutdown_now` share one reading of the clock. -/
def rejectedOutline (capacity : ℕ) : Outline (rules (W := W) (ι := ι) capacity) where
  Global log _ := ∀ l ∈ log, ∀ es, l.2 = .count es → ∃ finished, RejectedTogether log finished es
  At
    | .inl _, _, _, _ => True
    | .inr _, p, log, _ => ClientPc.Rejected log p
  own log t m p ev m' p' hg hat h := by
    have hmono : ∀ f es, RejectedTogether log f es → RejectedTogether (log ++ [(t, ev)]) f es :=
      fun f es hall e he => by simp [hall e he]
    have hold : (∀ es, ev = .count es → ∃ f, RejectedTogether log f es) →
        ∀ l ∈ log ++ [(t, ev)], ∀ es, l.2 = .count es → ∃ f, RejectedTogether (log ++ [(t, ev)]) f es := by
      intro hnew l hl es hes
      rcases List.mem_append.mp hl with hl | hl
      · exact (hg l hl es hes).imp fun f => hmono f es
      · rw [List.mem_singleton.mp hl] at hes
        exact (hnew es hes).imp fun f => hmono f es
    rcases t with w | i
    · refine ⟨hold ?_, trivial⟩
      intro es hes
      cases (h : WorkerRule w _ _ _ _ _) <;> cases hes
    · cases (h : ClientRule capacity i _ _ _ _ _) with
      | drained f => exact ⟨hold (by simp), by simp [ClientPc.Rejected, RejectedTogether]⟩
      | @discard f rejected e rest =>
        refine ⟨hold (by simp), ?_⟩
        intro e' he'
        rcases List.mem_append.mp he' with he' | he'
        · exact hmono f rejected hat e' he'
        · rw [List.mem_singleton.mp he']
          simp
      | @count f discarded =>
        refine ⟨hold ?_, trivial⟩
        intro es hes
        obtain rfl : discarded = es := Event.count.inj hes
        exact ⟨f, hat⟩
      | join h => exact ⟨hold (by cases h <;> simp), trivial⟩
      | _ => exact ⟨hold (by simp), trivial⟩
  others log t _ _ ev _ _ _ _ _ u q _ hq := by
    rcases u with w | i
    · trivial
    · cases q with
      | discarding f rejected rest => exact fun e he => by simp [show (e, _) ∈ fulfilments log from hq e he]
      | _ => trivial

/-- The futures of what one `shutdown_now` has discarded were all rejected at one instant. -/
theorem rejected_together [Fintype ι] (hW : 0 < W) (h : Run (rules capacity) init log c) {t : Thread W ι}
    {es : List TaskEnvelope} (hl : (t, .count es) ∈ log) : ∃ finished, ∀ e ∈ es,
      c.shared.promises[e.promise]? = some (.value (e.rejection finished)) := by
  have hall := (rejectedOutline capacity).run h
    ⟨fun _ hl => absurd hl List.not_mem_nil, fun t => by rcases t with w | i <;> exact trivial⟩
  obtain ⟨f, hf⟩ : ∃ f, RejectedTogether log f es := hall.1 _ hl es rfl
  exact ⟨f, fun e he => (honest hW h).value _ (hf e he)⟩

end Futures

end ThreadPool

end TaskEngine
