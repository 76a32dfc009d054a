import TaskEngine.Interleaving.Outline
import TaskEngine.Pool.Queue

/-!
# TaskEngine.Pool.Join — closing, exiting and joining

What `closed_`, `shutdown_mutex_`, `joined_` and the state of the threads say of each other and of
where the workers and the clients are.  A worker exits only from a closed and empty queue, a thread
stops being joinable only once it has exited, and `joined_` is set only by the holder of
`shutdown_mutex_` once every thread has been joined (`joining`).
-/

namespace TaskEngine

open Interleaving

namespace ThreadPool

variable {W : ℕ} {ι : Type}

/-! ## Which members a step leaves alone -/

section Members

variable (m : ThreadPool W ι) (w : Fin W) (e : TaskEnvelope) (s : Sample) (r : TaskResult) (n : ℕ)
  (k : Caller)

@[simp] theorem fulfil_threads : (m.fulfil e r).threads = m.threads := by unfold fulfil; split <;> rfl

@[simp] theorem fulfil_shutdown_mutex : (m.fulfil e r).shutdown_mutex = m.shutdown_mutex := by
  unfold fulfil; split <;> rfl

@[simp] theorem fulfil_joined : (m.fulfil e r).joined = m.joined := by unfold fulfil; split <;> rfl

@[simp] theorem record_threads : (m.record w e s).threads = m.threads := rfl

@[simp] theorem record_shutdown_mutex : (m.record w e s).shutdown_mutex = m.shutdown_mutex := rfl

@[simp] theorem record_joined : (m.record w e s).joined = m.joined := rfl

@[simp] theorem count_threads : (m.count n).threads = m.threads := rfl

@[simp] theorem count_shutdown_mutex : (m.count n).shutdown_mutex = m.shutdown_mutex := rfl

@[simp] theorem count_joined : (m.count n).joined = m.joined := rfl

@[simp] theorem leave_threads : (m.leave k).threads = m.threads := by
  rcases k with (_ | _) | _ <;> rfl

@[simp] theorem leave_shutdown_mutex : (m.leave k).shutdown_mutex = m.shutdown_mutex := by
  rcases k with (_ | _) | _ <;> rfl

@[simp] theorem leave_joined : (m.leave k).joined = m.joined := by rcases k with (_ | _) | _ <;> rfl

@[simp] theorem joinThread_shutdown_mutex : (m.joinThread w).shutdown_mutex = m.shutdown_mutex := rfl

@[simp] theorem joinThread_joined : (m.joinThread w).joined = m.joined := rfl

@[simp] theorem finishThread_shutdown_mutex : (m.finishThread w).shutdown_mutex = m.shutdown_mutex := rfl

@[simp] theorem finishThread_joined : (m.finishThread w).joined = m.joined := rfl

@[simp] theorem joinThread_finished (v : Fin W) :
    ((m.joinThread w).threads v).finished = (m.threads v).finished := by
  by_cases h : v = w
  · subst h; simp [joinThread]
  · simp [joinThread, Function.update_of_ne h]

@[simp] theorem finishThread_joinable (v : Fin W) :
    ((m.finishThread w).threads v).joinable = (m.threads v).joinable := by
  by_cases h : v = w
  · subst h; simp [finishThread]
  · simp [finishThread, Function.update_of_ne h]

theorem joinThread_joinable (v : Fin W) :
    ((m.joinThread w).threads v).joinable = if v = w then false else (m.threads v).joinable := by
  by_cases h : v = w
  · subst h; simp [joinThread]
  · simp [joinThread, h]

theorem finishThread_finished (v : Fin W) :
    ((m.finishThread w).threads v).finished = if v = w then true else (m.threads v).finished := by
  by_cases h : v = w
  · subst h; simp [finishThread]
  · simp [finishThread, h]

end Members

/-! ## The assertions -/

section Assertions

/-- Closed and empty. -/
def Exhausted (m : ThreadPool W ι) : Prop := m.queue.closed = true ∧ m.queue.items = []

/-- What the members say of each other. -/
structure Joining (m : ThreadPool W ι) : Prop where
  joined_finished : ∀ w, (m.threads w).joinable = false → (m.threads w).finished = true
  finished_exhausted : ∀ w, (m.threads w).finished = true → m.Exhausted
  joined_closed : m.joined = true → m.queue.closed = true
  joined_all : m.joined = true → ∀ w, (m.threads w).joinable = false

/-- A worker's place against the members. -/
structure WorkerPc.Joins (w : Fin W) (p : WorkerPc) (m : ThreadPool W ι) : Prop where
  finished : (m.threads w).finished = true ↔ p = .exited
  nullopt : p = .popping (.done none) → m.Exhausted

/-- The client has made its queue closed, or found it so, and has not returned since. -/
def ClientPc.closes : ClientPc → Bool
  | .closing _ .enter | .draining .enter => false
  | .closing _ _ | .draining _ | .discarding _ _ _ | .joining _ _ => true
  | _ => false

attribute [simp] ClientPc.closes.eq_1 ClientPc.closes.eq_2 ClientPc.closes.eq_5 ClientPc.closes.eq_6

/-- The same of any thread. -/
def closes : (t : Thread W ι) → Pc t → Bool
  | .inl _, _ => false
  | .inr _, p => ClientPc.closes p

/-- A client's place against the members. -/
structure ClientPc.Joins (i : ι) (p : ClientPc) (m : ThreadPool W ι) : Prop where
  closed : p.closes = true → m.queue.closed = true
  mutex : m.shutdown_mutex = some i ↔ ∃ k n, p = .joining k (.loop n)
  loop : ∀ k n, p = .joining k (.loop n) →
    m.joined = false ∧ ∀ w : Fin W, w < n → (m.threads w).joinable = false
  done : ∀ k, p = .joining k .done → m.joined = true

def Joins : (t : Thread W ι) → Pc t → ThreadPool W ι → Prop
  | .inl w, p, m => WorkerPc.Joins w p m
  | .inr i, p, m => ClientPc.Joins i p m

/-- What the step of a thread does to the members that the assertions of the others speak of. -/
structure Guarantee (t : Thread W ι) (m m' : ThreadPool W ι) : Prop where
  closed : m.queue.closed = true → m'.queue.closed = true
  exhausted : m.Exhausted → m'.Exhausted
  joinable : ∀ w, (m.threads w).joinable = false → (m'.threads w).joinable = false
  finished : ∀ w, t ≠ .inl w → (m'.threads w).finished = (m.threads w).finished
  mutex : ∀ i, t ≠ .inr i → (m'.shutdown_mutex = some i ↔ m.shutdown_mutex = some i)
  joined : m.joined = true → m'.joined = true
  unjoined : ∀ i, t ≠ .inr i → m.shutdown_mutex = some i → m'.joined = m.joined

end Assertions

variable [DecidableEq ι] {capacity : ℕ}

/-! ## The steps -/

section Steps

/-- Closing is final, and so is exhaustion. -/
theorem rule_queue {t : Thread W ι} {m m' : ThreadPool W ι} {p p' : Pc t} {ev : Event W}
    (h : rules capacity t m p ev m' p') :
    (m.queue.closed = true → m'.queue.closed = true) ∧ (m.Exhausted → m'.Exhausted) := by
  have hq := rule_toQueue h
  cases hl : ev.label with
  | none =>
    rw [hl] at hq
    simp [Exhausted, hq.1]
  | some l =>
    rw [hl] at hq
    have hf := hq.toFifo
    cases hl' : l.toFifo with
    | none =>
      rw [hl'] at hf
      simp only [Option.elim_none, Fifo.mk.injEq] at hf
      simp [Exhausted, hf.1, hf.2]
    | some ev' =>
      rw [hl'] at hf
      simp only [Option.elim_some] at hf
      generalize hx : (⟨m.queue.items, m.queue.closed⟩ : Fifo TaskEnvelope) = x at hf
      generalize hx' : (⟨m'.queue.items, m'.queue.closed⟩ : Fifo TaskEnvelope) = x' at hf
      unfold Exhausted
      cases hf <;> simp only [Fifo.mk.injEq] at hx hx' <;> simp_all

omit [DecidableEq ι] in
theorem JoinRule.guarantee {i : ι} {m m' : ThreadPool W ι} {p p' : JoinPc} {ev : Event W} {k : Caller}
    (hat : ClientPc.Joins i (.joining k p) m) (h : JoinRule i m p ev m' p') :
    Guarantee (.inr i) m m' := by
  cases h with
  | lock hm hj =>
    exact ⟨id, id, fun _ => id, fun _ _ => rfl,
      fun j hj => by simpa [hm] using fun h => hj (by rw [h]), id, fun _ _ _ => rfl⟩
  | again _ _ => exact ⟨id, id, fun _ => id, fun _ _ => rfl, fun _ _ => .rfl, id, fun _ _ _ => rfl⟩
  | join hn hj hf =>
    refine ⟨id, id, ?_, fun w _ => by simp, fun _ _ => .rfl, id, fun _ _ _ => rfl⟩
    intro w hw
    rw [joinThread_joinable]
    split <;> simp [hw]
  | skip _ _ => exact ⟨id, id, fun _ => id, fun _ _ => rfl, fun _ _ => .rfl, id, fun _ _ _ => rfl⟩
  | joined _ =>
    have hm : m.shutdown_mutex = some i := hat.mutex.mpr ⟨k, _, rfl⟩
    refine ⟨id, id, fun _ => id, fun _ _ => rfl, ?_, fun _ => rfl, ?_⟩
    · intro j hj
      simpa [hm] using fun h => hj (by rw [h])
    · intro j hj hmj
      rw [hm, Option.some.injEq] at hmj
      exact absurd (by rw [hmj]) hj

theorem rule_guarantee {t : Thread W ι} {m m' : ThreadPool W ι} {p p' : Pc t} {ev : Event W}
    (hat : Joins t p m) (h : rules capacity t m p ev m' p') : Guarantee t m m' := by
  obtain ⟨hc, he⟩ := rule_queue h
  rcases t with w | i
  · cases (h : WorkerRule w _ _ _ _ _) with
    | exit =>
      exact ⟨hc, he, fun v hv => by simpa using hv,
        fun v hv => by rw [finishThread_finished, if_neg fun h => hv (by rw [h])], by simp, by simp,
        by simp⟩
    | _ => exact ⟨hc, he, by simp, by simp, by simp, by simp, by simp⟩
  · cases (h : ClientRule capacity i _ _ _ _ _) with
    | join h => exact h.guarantee hat
    | _ => exact ⟨hc, he, by simp, by simp, by simp, by simp, by simp⟩

omit [DecidableEq ι] in
/-- A step that leaves the threads and `joined_` alone, and undoes neither closing nor exhaustion. -/
theorem Joining.frame {m m' : ThreadPool W ι} (hg : Joining m) (ht : m'.threads = m.threads)
    (hj : m'.joined = m.joined) (hc : m.queue.closed = true → m'.queue.closed = true)
    (he : m.Exhausted → m'.Exhausted) : Joining m' where
  joined_finished := by rw [ht]; exact hg.joined_finished
  finished_exhausted w hw := he (hg.finished_exhausted w (by rwa [ht] at hw))
  joined_closed h := hc (hg.joined_closed (by rwa [hj] at h))
  joined_all h := by rw [ht]; exact hg.joined_all (by rwa [hj] at h)

theorem WorkerRule.joining {w : Fin W} {m m' : ThreadPool W ι} {p p' : WorkerPc} {ev : Event W}
    (hg : Joining m) (hat : p.Joins w m) (h : WorkerRule w m p ev m' p') :
    Joining m' ∧ p'.Joins w m' := by
  obtain ⟨hc, he⟩ := rule_queue (show rules 0 (.inl w) m p ev m' p' from h)
  have hpc := hat.finished
  cases h with
  -- a worker exits when `pop` has returned `std::nullopt`
  | exit =>
    have hx : m.Exhausted := hat.nullopt rfl
    refine ⟨⟨?_, ?_, hg.joined_closed, ?_⟩, ⟨?_, by simp⟩⟩
    · intro v hv
      rw [finishThread_finished]
      split
      · rfl
      · exact hg.joined_finished v (by simpa using hv)
    · intro v hv
      exact hx
    · intro hj v
      simpa using hg.joined_all hj v
    · simp [finishThread_finished]
  | pop h =>
    refine ⟨hg.frame rfl rfl hc he, ⟨by simpa using hpc, ?_⟩⟩
    intro hp
    obtain rfl : _ = BlockingQueue.PopPc.done none := by simpa using hp
    cases h with
    | enter h => cases BlockingQueue.popSection_cases h; exact ⟨‹_›, ‹_›⟩
    | resume _ h => cases BlockingQueue.popSection_cases h; exact ⟨‹_›, ‹_›⟩
  | _ => exact ⟨hg.frame (by simp) (by simp) hc he, ⟨by simpa using hpc, by simp⟩⟩

omit [DecidableEq ι] in
theorem JoinRule.joining {i : ι} {k : Caller} {m m' : ThreadPool W ι} {p p' : JoinPc} {ev : Event W}
    (hg : Joining m) (hat : ClientPc.Joins i (.joining k p) m) (h : JoinRule i m p ev m' p') :
    Joining m' ∧ ClientPc.Joins i (.joining k p') m' := by
  have hclosed : m.queue.closed = true := hat.closed rfl
  cases h with
  | lock hm hj =>
    refine ⟨hg.frame rfl rfl id id, ⟨fun _ => hclosed, ?_, ?_, by simp⟩⟩
    · simp
    · rintro k' n h
      obtain ⟨-, rfl⟩ : k = k' ∧ 0 = n := by simpa using h
      exact ⟨hj, by simp⟩
  | again hm hj =>
    exact ⟨hg, ⟨fun _ => hclosed, by simp [hm], by simp, fun _ _ => hj⟩⟩
  -- the thread joined has finished, and those before it were joined in the loop
  | @join n hn hj hf =>
    obtain ⟨hnj, hall⟩ := hat.loop k n rfl
    refine ⟨⟨?_, fun v hv => hg.finished_exhausted v (by simpa using hv), hg.joined_closed,
      fun h => by simp [hnj] at h⟩, ⟨fun _ => hclosed, ?_, ?_, by simp⟩⟩
    · intro v hv
      rw [joinThread_joinable] at hv
      split at hv
      · next h => rw [joinThread_finished, h]; exact hf
      · simpa using hg.joined_finished v hv
    · simpa using hat.mutex
    · rintro k' n' h
      obtain ⟨-, rfl⟩ : k = k' ∧ n + 1 = n' := by simpa using h
      refine ⟨hnj, ?_⟩
      intro v hv
      rw [joinThread_joinable]
      split
      · rfl
      · next hne => exact hall v (by have : v.val ≠ n := fun h => hne (Fin.ext h); omega)
  | @skip n hn hj =>
    obtain ⟨hnj, hall⟩ := hat.loop k n rfl
    refine ⟨hg, ⟨fun _ => hclosed, by simpa using hat.mutex, ?_, by simp⟩⟩
    rintro k' n' h
    obtain ⟨-, rfl⟩ : k = k' ∧ n + 1 = n' := by simpa using h
    refine ⟨hnj, ?_⟩
    intro v hv
    rcases Nat.lt_succ_iff_lt_or_eq.mp hv with hv | hv
    · exact hall v hv
    · rwa [show v = ⟨n, hn⟩ from Fin.ext hv]
  | joined hn =>
    obtain ⟨-, hall⟩ := hat.loop k _ rfl
    exact ⟨⟨hg.joined_finished, hg.finished_exhausted, fun _ => hclosed,
      fun _ v => hall v (v.isLt.trans_le hn)⟩, ⟨fun _ => hclosed, by simp, by simp, fun _ _ => rfl⟩⟩

theorem ClientRule.joining {i : ι} {m m' : ThreadPool W ι} {p p' : ClientPc} {ev : Event W}
    (hg : Joining m) (hat : p.Joins i m) (h : ClientRule capacity i m p ev m' p') :
    Joining m' ∧ p'.Joins i m' := by
  obtain ⟨hc, he⟩ := rule_queue (show rules capacity (.inr i) m p ev m' p' from h)
  have hclosed := hat.closed
  have hmutex := hat.mutex
  cases h with
  | join h => exact h.joining hg hat
  | close h =>
    refine ⟨hg.frame rfl rfl hc he, ⟨?_, by simpa using hmutex, by simp, by simp⟩⟩
    intro hp
    cases h with
    | enter h =>
      cases BlockingQueue.closeSection_cases h with
      | again hq => exact hq
      | close _ => rfl
    | notify_empty => exact hclosed rfl
    | notify_full => exact hclosed rfl
  | drain h =>
    refine ⟨hg.frame rfl rfl hc he, ⟨?_, by simpa using hmutex, by simp, by simp⟩⟩
    intro hp
    cases h with
    | enter h => cases h; rfl
    | notify_empty => exact hclosed rfl
    | notify_full => exact hclosed rfl
  | push h =>
    exact ⟨hg.frame rfl rfl hc he, ⟨by simp [ClientPc.closes], by simpa using hmutex, by simp, by simp⟩⟩
  | closed => exact ⟨hg, ⟨fun _ => hclosed rfl, by simpa using hmutex, by simp, by simp⟩⟩
  | drained _ => exact ⟨hg, ⟨fun _ => hclosed rfl, by simpa using hmutex, by simp, by simp⟩⟩
  | discard =>
    exact ⟨hg.frame (by simp) (by simp) hc he,
      ⟨fun _ => hc (hclosed rfl), by simpa using hmutex, by simp, by simp⟩⟩
  | count =>
    exact ⟨hg.frame rfl rfl hc he, ⟨fun _ => hclosed rfl, by simpa using hmutex, by simp, by simp⟩⟩
  | _ =>
    exact ⟨hg.frame (by simp) (by simp) hc he,
      ⟨by simp [ClientPc.closes], by simpa using hmutex, by simp, by simp⟩⟩

omit [DecidableEq ι] in
/-- The steps of others leave the assertion of a thread alone. -/
theorem Joins.stable {t u : Thread W ι} {m m' : ThreadPool W ι} {q : Pc u} (hu : u ≠ t)
    (hq : Joins u q m) (g : Guarantee t m m') : Joins u q m' := by
  rcases u with w | i
  · exact ⟨by rw [g.finished w (Ne.symm hu)]; exact WorkerPc.Joins.finished hq,
      fun h => g.exhausted (WorkerPc.Joins.nullopt hq h)⟩
  · have hat : ClientPc.Joins i q m := hq
    refine ⟨fun h => g.closed (hat.closed h), by rw [g.mutex i (Ne.symm hu)]; exact hat.mutex,
      ?_, fun k h => g.joined (hat.done k h)⟩
    intro k n h
    obtain ⟨hj, hall⟩ := hat.loop k n h
    have hm : m.shutdown_mutex = some i := hat.mutex.mpr ⟨k, n, h⟩
    exact ⟨(g.unjoined i (Ne.symm hu) hm).trans hj, fun w hw => g.joinable w (hall w hw)⟩

/-- A client that closed goes on until it has joined, and only a client closes the queue. -/
theorem rule_closes {t : Thread W ι} {m m' : ThreadPool W ι} {p p' : Pc t} {ev : Event W}
    (hat : Joins t p m) (h : rules capacity t m p ev m' p') (hc' : m'.queue.closed = true)
    (hp : m.queue.closed = false ∨ closes t p = true) : closes t p' = true ∨ m'.joined = true := by
  -- no worker closes the queue, and a client does so only in a call that goes on to `join_workers`
  rcases t with w | i
  · simp only [closes, Bool.false_eq_true, or_false] at hp
    cases (h : WorkerRule w _ _ _ _ _) with
    | pop h =>
      cases h with
      | enter h => cases BlockingQueue.popSection_cases h <;> simp [hp] at hc'
      | resume _ h => cases BlockingQueue.popSection_cases h <;> simp [hp] at hc'
      | _ => simp [hp] at hc'
    | _ => simp [hp] at hc'
  · cases (h : ClientRule capacity i _ _ _ _ _) with
    | leave => exact .inr (by simpa using ClientPc.Joins.done hat _ rfl)
    | close h =>
      cases h with
      | enter h => cases BlockingQueue.closeSection_cases h <;> exact .inl rfl
      | _ => exact .inl rfl
    | drain h =>
      cases h with
      | enter h => cases h; exact .inl rfl
      | _ => exact .inl rfl
    | push h =>
      simp only [closes, ClientPc.closes, Bool.false_eq_true, or_false] at hp
      cases h with
      | enter h => cases BlockingQueue.pushSection_cases h <;> simp [hp] at hc'
      | resume _ h => cases BlockingQueue.pushSection_cases h <;> simp [hp] at hc'
      | _ => simp [hp] at hc'
    | closed | drained | discard | count | join => exact .inl rfl
    | _ => simp_all [closes, ClientPc.closes]

end Steps

/-! ## What holds in every reachable configuration -/

section Reachable

/-- The proof outline of closing and joining. -/
def joinOutline (capacity : ℕ) : Outline (rules (W := W) (ι := ι) capacity) where
  Global _ m := Joining m
  At t p _ m := Joins t p m
  own _ t _ _ _ _ _ hg hat h := by
    rcases t with w | i
    · exact WorkerRule.joining hg hat h
    · exact ClientRule.joining hg hat h
  others _ _ _ _ _ _ _ _ hat h _ _ hu hq := hq.stable hu (rule_guarantee hat h)

variable {c : System W ι} {log : List (Thread W ι × Event W)}

theorem joins (h : Run (rules capacity) init log c) :
    Joining c.shared ∧ ∀ t, Joins t (c.pc t) c.shared := by
  refine (joinOutline capacity).run h ⟨⟨?_, ?_, ?_, ?_⟩, ?_⟩
  any_goals simp [init, fresh]
  exact ⟨fun w => ⟨by simp, by simp⟩,
    fun i => ⟨by simp [ClientPc.closes], by simp, by simp, by simp⟩⟩

theorem finished_of_joined (h : Run (rules capacity) init log c) (hj : c.shared.joined = true) (w : Fin W) :
    (c.shared.threads w).finished = true ∧ c.pc (.inl w) = .exited := by
  obtain ⟨hg, hat⟩ := joins h
  have hfin := hg.joined_finished w (hg.joined_all hj w)
  exact ⟨hfin, (WorkerPc.Joins.finished (hat (.inl w))).mp hfin⟩

/-- Once joined, the queue is closed and empty and every worker has exited. -/
theorem exited_of_joined (hW : 0 < W) (h : Run (rules capacity) init log c)
    (hj : c.shared.joined = true) : c.shared.Exhausted ∧ ∀ w, c.pc (.inl w) = .exited :=
  ⟨(joins h).1.finished_exhausted ⟨0, hW⟩ (finished_of_joined h hj _).1,
    fun w => (finished_of_joined h hj w).2⟩

theorem joined_of_done (h : Run (rules capacity) init log c) {i : ι} {k : Caller}
    (hp : c.pc (.inr i) = .joining k .done) : c.shared.joined = true :=
  ClientPc.Joins.done ((joins h).2 (.inr i)) k hp

/-- Once a call that joined has returned, the workers have been joined. -/
theorem joined_of_returned (h : Run (rules capacity) init log c)
    (hret : ∃ l ∈ log, ∃ k, l.2 = .leave k) : c.shared.joined = true := by
  revert hret
  refine h.induct (I := fun log d => (∃ l ∈ log, ∃ k, l.2 = .leave k) → d.shared.joined = true)
    (by simp) ?_
  rintro log d t ev m p hrun ih hr ⟨l, hl, k, hk⟩
  have hat := (joins hrun).2 t
  refine (rule_guarantee hat hr).joined ?_
  rcases List.mem_append.mp hl with hl | hl
  · exact ih ⟨l, hl, k, hk⟩
  · rw [List.mem_singleton.mp hl] at hk
    obtain rfl : ev = .leave k := hk
    rcases t with w | i
    · generalize d.pc (.inl w) = p' at hr
      cases (hr : WorkerRule w _ _ _ _ _)
    · generalize hp : d.pc (.inr i) = p' at hr
      cases (hr : ClientRule capacity i _ _ _ _ _) with
      | join h => cases h
      | leave => exact joined_of_done hrun hp

/-- Whoever closed the queue is still on its way, unless the workers have been joined. -/
theorem joined_or_closing (h : Run (rules capacity) init log c) (hc : c.shared.queue.closed = true) :
    c.shared.joined = true ∨ ∃ t, closes t (c.pc t) = true := by
  revert hc
  refine h.induct (I := fun _ d => d.shared.queue.closed = true →
    d.shared.joined = true ∨ ∃ t, closes t (d.pc t) = true)
    (fun hc => by simp [init, fresh, BlockingQueue.empty] at hc) ?_
  intro log d t ev m p hrun ih hr hc
  have hat := (joins hrun).2 t
  have hstep : d.shared.queue.closed = false ∨ closes t (d.pc t) = true →
      m.joined = true ∨ ∃ u, closes u (Function.update d.pc t p u) = true := fun hp =>
    (rule_closes hat hr hc hp).symm.imp_right fun hp => ⟨t, by simpa using hp⟩
  cases hd : d.shared.queue.closed with
  | false => exact hstep (.inl hd)
  | true =>
    rcases ih hd with hj | ⟨u, hu⟩
    · exact .inl ((rule_guarantee hat hr).joined hj)
    · by_cases ht : u = t
      · subst ht
        exact hstep (.inr hu)
      · exact .inr ⟨u, by simpa [Function.update_of_ne ht] using hu⟩

end Reachable

end ThreadPool

end TaskEngine
