import TaskEngine.Pool.Model
import TaskEngine.Queue.WakeUp

/-!
# TaskEngine.Pool.Queue — the pool uses its queue as any threads would

Seen through `queue_`, a worker and a client are threads that call `push`, `pop`, `close` and
`close_and_drain` and return from them: `toQueue` is the projection of the pool on
`BlockingQueue.rules`.  So a run of the pool is a run of its queue, and what was proved of the queue
holds of it: `queue_conservation`, `queue_closed_stable`, `queue_exhausted`, `queue_awake`.
-/

namespace TaskEngine

open Interleaving

namespace ThreadPool

variable {W : ℕ} {ι : Type}

/-! ## The projection -/

section Projection

/-- Where a worker stands with respect to the queue. -/
def WorkerPc.place : WorkerPc → BlockingQueue.Place TaskEnvelope
  | .popping p => .pop p
  | _ => .idle

/-- Where a client stands with respect to the queue. -/
def ClientPc.place : ClientPc → BlockingQueue.Place TaskEnvelope
  | .pushing p => .push p
  | .closing _ p => .close p
  | .draining p => .drain p
  | _ => .idle

def place : (t : Thread W ι) → Pc t → BlockingQueue.Place TaskEnvelope
  | .inl _, p => WorkerPc.place p
  | .inr _, p => ClientPc.place p

/-- What a step of the pool is for the queue. -/
def Event.label : Event W → Option (BlockingQueue.Label TaskEnvelope)
  | .enter | .record _ _ => some (.call .pop)
  | .queue ev => some (.act ev)
  | .start e _ => some (.ret (.pop (some e)))
  | .exit => some (.ret (.pop none))
  | .submit e => some (.call (.push e))
  | .accept _ => some (.ret (.push true))
  | .reject _ _ => some (.ret (.push false))
  | .shutdown _ => some (.call .close)
  | .close _ => some (.ret .close)
  | .shutdown_now => some (.call .close_and_drain)
  | .drain discarded _ => some (.ret (.close_and_drain discarded))
  | _ => none

@[simp] theorem fulfil_queue (m : ThreadPool W ι) (e : TaskEnvelope) (r : TaskResult) :
    (m.fulfil e r).queue = m.queue := by
  unfold fulfil; split <;> rfl

@[simp] theorem record_queue (m : ThreadPool W ι) (w : Fin W) (e : TaskEnvelope) (s : Sample) :
    (m.record w e s).queue = m.queue := rfl

@[simp] theorem count_queue (m : ThreadPool W ι) (n : ℕ) : (m.count n).queue = m.queue := rfl

@[simp] theorem leave_queue (m : ThreadPool W ι) (k : Caller) : (m.leave k).queue = m.queue := by
  rcases k with (_ | _) | _ <;> rfl

@[simp] theorem joinThread_queue (m : ThreadPool W ι) (w : Fin W) :
    (m.joinThread w).queue = m.queue := rfl

@[simp] theorem finishThread_queue (m : ThreadPool W ι) (w : Fin W) :
    (m.finishThread w).queue = m.queue := rfl

variable [DecidableEq ι]

theorem WorkerRule.toQueue {capacity : ℕ} {w : Fin W} {m m' : ThreadPool W ι} {p p' : WorkerPc}
    {ev : Event W} (h : WorkerRule w m p ev m' p') :
    ev.label.elim (m'.queue = m.queue ∧ p'.place = p.place) fun l =>
      BlockingQueue.Rule capacity (.inl w) m.queue p.place l m'.queue p'.place := by
  cases h with
  | enter => exact .call .pop
  | pop h => exact .pop h
  | start _ => exact .ret rfl
  | finish _ => exact ⟨rfl, rfl⟩
  | fulfil => exact ⟨fulfil_queue _ _ _, rfl⟩
  | record => exact .call .pop
  | exit => exact .ret rfl

omit [DecidableEq ι] in
theorem JoinRule.toQueue {i : ι} {m m' : ThreadPool W ι} {p p' : JoinPc} {ev : Event W}
    (h : JoinRule i m p ev m' p') : ev.label = none ∧ m'.queue = m.queue := by
  cases h <;> exact ⟨rfl, rfl⟩

theorem ClientRule.toQueue {capacity : ℕ} {i : ι} {m m' : ThreadPool W ι} {p p' : ClientPc}
    {ev : Event W} (h : ClientRule capacity i m p ev m' p') :
    ev.label.elim (m'.queue = m.queue ∧ p'.place = p.place) fun l =>
      BlockingQueue.Rule capacity (.inr i) m.queue p.place l m'.queue p'.place := by
  cases h with
  | submit e _ _ => exact .call (.push e)
  | push h => exact .push h
  | accept => exact .ret rfl
  | reject _ =>
    simp only [Event.label, Option.elim_some, fulfil_queue]
    exact .ret rfl
  | refuse => exact ⟨rfl, rfl⟩
  | shutdown _ => exact .call .close
  | destructor _ => exact .call .close
  | close h => exact .close h
  | closed => exact .ret rfl
  | shutdown_now _ => exact .call .close_and_drain
  | drain h => exact .drain h
  | drained _ => exact .ret rfl
  | discard => exact ⟨fulfil_queue _ _ _, rfl⟩
  | count => exact ⟨rfl, rfl⟩
  | join h =>
    obtain ⟨hl, hq⟩ := h.toQueue
    rw [hl]
    exact ⟨hq, rfl⟩
  | leave => exact ⟨leave_queue _ _, rfl⟩

/-- One step of the pool, seen through its queue. -/
theorem rule_toQueue {capacity : ℕ} {t : Thread W ι} {m m' : ThreadPool W ι} {p p' : Pc t}
    {ev : Event W} (h : rules capacity t m p ev m' p') :
    ev.label.elim (m'.queue = m.queue ∧ place t p' = place t p) fun l =>
      BlockingQueue.Rule capacity t m.queue (place t p) l m'.queue (place t p') := by
  rcases t with w | i
  · exact WorkerRule.toQueue (w := w) h
  · exact ClientRule.toQueue (i := i) h

/-- **The pool's queue is a `BlockingQueue`** used by the workers and the clients. -/
def toQueue (capacity : ℕ) :
    Projection (rules (W := W) (ι := ι) capacity)
      (BlockingQueue.rules (T := TaskEnvelope) capacity) where
  mem m := m.queue
  place := place
  event := Event.label
  seen _ _ _ _ _ _ _ h he := by
    have := rule_toQueue h
    rw [he] at this
    exact this
  unseen _ _ _ _ _ _ h he := by
    have := rule_toQueue h
    rw [he] at this
    exact this

end Projection

/-! ## Histories -/

section Histories

def Event.pushed : Event W → List TaskEnvelope
  | .queue ev => ev.pushed
  | _ => []

def Event.refused : Event W → List TaskEnvelope
  | .queue ev => ev.refused
  | _ => []

def Event.popped : Event W → List TaskEnvelope
  | .queue ev => ev.popped
  | _ => []

def Event.drained : Event W → List TaskEnvelope
  | .queue ev => ev.drained
  | _ => []

attribute [simp] Event.pushed.eq_1 Event.pushed.eq_2 Event.refused.eq_1 Event.refused.eq_2
  Event.popped.eq_1 Event.popped.eq_2 Event.drained.eq_1 Event.drained.eq_2

/-- The envelopes whose push succeeded. -/
abbrev pushed (log : List (Thread W ι × Event W)) : List TaskEnvelope := collect Event.pushed log

/-- The envelopes whose push observed the queue closed. -/
abbrev refused (log : List (Thread W ι × Event W)) : List TaskEnvelope := collect Event.refused log

/-- The envelopes that a worker popped. -/
abbrev popped (log : List (Thread W ι × Event W)) : List TaskEnvelope := collect Event.popped log

/-- The envelopes that a `shutdown_now` removed from the queue. -/
abbrev drained (log : List (Thread W ι × Event W)) : List TaskEnvelope := collect Event.drained log

end Histories

/-! ## What the queue guarantees the pool -/

section Guarantees

variable [DecidableEq ι] {capacity : ℕ}
  {c c' : System W ι} {log : List (Thread W ι × Event W)}

theorem toQueue_init : (toQueue (W := W) (ι := ι) capacity).config init = BlockingQueue.init := by
  simp only [Projection.config, toQueue, init, fresh, BlockingQueue.init, Config.mk.injEq, true_and]
  funext t
  rcases t with w | i <;> rfl

theorem pushed_log (log : List (Thread W ι × Event W)) :
    BlockingQueue.pushed ((toQueue capacity).log log) = pushed log :=
  (toQueue capacity).collect_log (fun ev => by cases ev <;> rfl) log

theorem popped_log (log : List (Thread W ι × Event W)) :
    BlockingQueue.popped ((toQueue capacity).log log) = popped log :=
  (toQueue capacity).collect_log (fun ev => by cases ev <;> rfl) log

theorem drained_log (log : List (Thread W ι × Event W)) :
    BlockingQueue.drained ((toQueue capacity).log log) = drained log :=
  (toQueue capacity).collect_log (fun ev => by cases ev <;> rfl) log

/-- What was popped, then what was drained, then what is queued, is what was queued and pushed. -/
theorem queue_conservation (h : Run (rules capacity) c log c') :
    popped log ++ drained log ++ c'.shared.queue.items = c.shared.queue.items ++ pushed log := by
  have := BlockingQueue.conservation ((toQueue capacity).run h)
  rwa [popped_log, drained_log, pushed_log] at this

theorem queue_from_init (h : Run (rules capacity) init log c) :
    popped log ++ drained log ++ c.shared.queue.items = pushed log := by
  simpa [init, fresh, BlockingQueue.empty] using queue_conservation h

theorem rule_items {t : Thread W ι} {m m' : ThreadPool W ι} {p p' : Pc t} {ev : Event W}
    (h : rules capacity t m p ev m' p') :
    ev.popped ++ ev.drained ++ m'.queue.items = m.queue.items ++ ev.pushed := by
  have hs : Step (rules capacity) ⟨m, Function.update init.pc t p⟩ (t, ev)
      ⟨m', Function.update (Function.update init.pc t p) t p'⟩ := .mk (by simpa using h)
  simpa [popped, drained, pushed] using queue_conservation (.single hs)

/-- What is queued and what was drained fit the capacity together. -/
theorem queue_drained_le (h : Run (rules capacity) init log c) :
    c.shared.queue.items.length + (drained log).length ≤ capacity := by
  have := BlockingQueue.drained_le ((toQueue capacity).run h)
    (by simp [toQueue_init, BlockingQueue.init, BlockingQueue.empty])
  rwa [drained_log] at this

theorem queue_closed_stable (h : Run (rules capacity) c log c') (hc : c.shared.queue.closed = true) :
    c'.shared.queue.closed = true ∧ pushed log = [] := by
  have := BlockingQueue.closed_stable ((toQueue capacity).run h) hc
  rwa [pushed_log] at this

theorem queue_exhausted (h : Run (rules capacity) c log c') (hc : c.shared.queue.closed = true)
    (hi : c.shared.queue.items = []) :
    c'.shared.queue.closed = true ∧ c'.shared.queue.items = [] ∧ popped log = [] ∧
      drained log = [] := by
  have := BlockingQueue.exhausted ((toQueue capacity).run h) hc hi
  rwa [popped_log, drained_log] at this

theorem queue_awake [Fintype ι] (h : Run (rules capacity) init log c) :
    BlockingQueue.Awake capacity ((toQueue capacity).config c) := by
  have h' := (toQueue capacity).run h
  rw [toQueue_init] at h'
  exact BlockingQueue.awake h'

end Guarantees

end ThreadPool

end TaskEngine
