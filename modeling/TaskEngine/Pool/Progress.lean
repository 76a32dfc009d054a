import TaskEngine.Interleaving.Ledger
import TaskEngine.Pool.Join
import TaskEngine.Queue.Progress

/-!
# TaskEngine.Pool.Progress — a shutdown cannot hang

From a closed queue on, something other than a spurious wake-up can always be done until every worker
has exited and every call has returned (`progress`), and every step that is not a new call lowers a
measure (`winding_down`): nobody blocks anew on a closed queue, so a wait is left for good.  Hence
the calls in progress return after finitely many steps (`shutdown_cannot_hang`).  The pool is alive as
long as no client has entered the destructor (`alive_of_no_destructor`).
-/

namespace TaskEngine

open Interleaving

/-! ## Inside the queue -/

namespace BlockingQueue

variable {T θ : Type} [DecidableEq θ] {t : θ} {q q' : BlockingQueue T θ} {ev : Event T}

/-! A closed queue is wound down: its items are worth what is left to do with them, and every blocked
thread one wake-up. -/

section Weights

def PushPc.weight : PushPc T → ℕ
  | .enter _ | .waiting _ => 3
  | .notifying _ | .refused _ => 2
  | .done _ => 1

def PopPc.weight : PopPc T → ℕ
  | .enter | .waiting => 3
  | .notifying _ => 9
  | .done (some _) => 8
  | .done none => 1

def ClosePc.weight : ClosePc → ℕ
  | .enter => 3
  | .notifyingEmpty => 2
  | .notifyingFull => 1
  | .done => 0

def DrainPc.weight : DrainPc T → ℕ
  | .enter => 3
  | .notifyingEmpty drained => 2 + drained.length
  | .notifyingFull drained => 1 + drained.length
  | .done drained => drained.length

def weight (q : BlockingQueue T θ) : ℕ :=
  10 * q.items.length + q.not_empty.waiting.card + q.not_full.waiting.card

theorem PushRule.lower {capacity : ℕ} {p p' : PushPc T} (h : PushRule capacity t q p ev q' p')
    (hc : q.closed = true) : p'.weight + q'.weight < p.weight + q.weight := by
  cases h with
  | enter h =>
    cases pushSection_cases h with
    | refuse _ => simp [PushPc.weight, weight]
    | insert h' _ => simp [hc] at h'
    | block h' _ => simp [hc] at h'
  | resume _ h =>
    cases pushSection_cases h with
    | refuse _ => simp [PushPc.weight, weight]
    | insert h' _ => simp [hc] at h'
    | block h' _ => simp [hc] at h'
  | spurious hw =>
    have := Finset.card_erase_lt_of_mem hw
    simp only [PushPc.weight, weight, CondVar.wake_waiting]
    omega
  | notify_one h =>
    have := Finset.card_le_card h.waiting_subset
    simp only [PushPc.weight, weight]
    omega

theorem PopRule.lower {p p' : PopPc T} (h : PopRule t q p ev q' p') (hc : q.closed = true) :
    p'.weight + q'.weight < p.weight + q.weight := by
  cases h with
  | enter h =>
    cases popSection_cases h with
    | exhaust _ _ => simp [PopPc.weight, weight]
    | take hi => simp only [PopPc.weight, weight, hi, List.length_cons]; omega
    | block h' _ => simp [hc] at h'
  | resume _ h =>
    cases popSection_cases h with
    | exhaust _ _ => simp [PopPc.weight, weight]
    | take hi =>
      simp only [PopPc.weight, weight, show q.items = _ from hi, List.length_cons, CondVar.resume_waiting]
      omega
    | block h' _ => simp [hc] at h'
  | spurious hw =>
    have := Finset.card_erase_lt_of_mem hw
    simp only [PopPc.weight, weight, CondVar.wake_waiting]
    omega
  | notify_one h =>
    have := Finset.card_le_card h.waiting_subset
    simp only [PopPc.weight, weight]
    omega

theorem CloseRule.lower {p p' : ClosePc} (h : CloseRule q p ev q' p') (hc : q.closed = true) :
    p'.weight + q'.weight < p.weight + q.weight := by
  cases h with
  | enter h =>
    cases closeSection_cases h with
    | again _ => simp [ClosePc.weight]
    | close h' => simp [hc] at h'
  | notify_empty => simp only [ClosePc.weight, weight, CondVar.notify_all_waiting, Finset.card_empty]; omega
  | notify_full => simp only [ClosePc.weight, weight, CondVar.notify_all_waiting, Finset.card_empty]; omega

theorem DrainRule.lower {p p' : DrainPc T} (h : DrainRule q p ev q' p') :
    p'.weight + q'.weight < p.weight + q.weight := by
  cases h with
  | enter h => cases h; simp only [DrainPc.weight, weight, List.length_nil]; omega
  | notify_empty => simp only [DrainPc.weight, weight, CondVar.notify_all_waiting, Finset.card_empty]; omega
  | notify_full => simp only [DrainPc.weight, weight, CondVar.notify_all_waiting, Finset.card_empty]; omega

end Weights

end BlockingQueue

/-! ## Progress -/

namespace ThreadPool

variable {W : ℕ} {ι : Type}

section Progress

/-- A step that begins a call. -/
def Event.starts : Event W → Bool
  | .submit _ | .shutdown _ | .shutdown_now => true
  | _ => false

attribute [simp] Event.starts.eq_1 Event.starts.eq_2 Event.starts.eq_3

variable [DecidableEq ι] {capacity : ℕ} {c : System W ι}
  {log : List (Thread W ι × Event W)}

/-- Something can be done that is neither a spurious wake-up nor a new call. -/
def CanGoOn (capacity : ℕ) (c : System W ι) : Prop :=
  ∃ l c', Step (rules capacity) c l c' ∧ l.2 ≠ .queue .spurious ∧ l.2.starts = false

/-- The thread has a step that is neither a spurious wake-up nor a new call. -/
def CanMove (capacity : ℕ) (c : System W ι) (t : Thread W ι) : Prop :=
  ∃ ev m p, rules capacity t c.shared (c.pc t) ev m p ∧ ev ≠ .queue .spurious ∧ ev.starts = false

theorem CanMove.canGoOn {t : Thread W ι} (h : CanMove capacity c t) : CanGoOn capacity c := by
  obtain ⟨ev, m, p, hr, hs, hn⟩ := h
  exact ⟨(t, ev), _, .mk hr, hs, hn⟩

theorem CanMove.worker {w : Fin W} {ev : Event W} {m : ThreadPool W ι} {p p' : WorkerPc}
    (hp : c.pc (.inl w) = p) (h : WorkerRule w c.shared p ev m p') (hs : ev ≠ .queue .spurious)
    (hn : ev.starts = false) : CanMove capacity c (.inl w) := by
  subst hp
  exact ⟨ev, m, p', h, hs, hn⟩

theorem CanMove.client {i : ι} {ev : Event W} {m : ThreadPool W ι} {p p' : ClientPc}
    (hp : c.pc (.inr i) = p) (h : ClientRule capacity i c.shared p ev m p') (hs : ev ≠ .queue .spurious)
    (hn : ev.starts = false) : CanMove capacity c (.inr i) := by
  subst hp
  exact ⟨ev, m, p', h, hs, hn⟩

/-- Whoever owes a condition variable a `notify_all` can send it. -/
theorem owes_canMove {t : Thread W ι}
    (ht : (place t (c.pc t)).owesAllEmpty = true ∨ (place t (c.pc t)).owesAllFull = true) :
    CanMove capacity c t := by
  rcases t with w | i
  · generalize hp : c.pc (.inl w) = p at ht
    cases p <;> simp [place, WorkerPc.place] at ht
  · generalize hp : c.pc (.inr i) = p at ht
    rcases p with _ | _ | _ | ⟨k, _ | _ | _ | _⟩ | (_ | _ | _ | _) | _ | _ <;>
      simp [place, ClientPc.place] at ht
    · exact .client hp (.close .notify_empty) (by simp) rfl
    · exact .client hp (.close .notify_full) (by simp) rfl
    · exact .client hp (.drain .notify_empty) (by simp) rfl
    · exact .client hp (.drain .notify_full) (by simp) rfl

/-- A worker that is not blocked goes on until it exits. -/
theorem worker_canMove {w : Fin W} (hwait : .inl w ∉ c.shared.queue.not_empty.waiting)
    (hw : c.pc (.inl w) ≠ .exited) : CanMove capacity c (.inl w) := by
  generalize hp : c.pc (.inl w) = p at hw
  cases p with
  | starting => exact .worker hp (.enter) (by simp) rfl
  | popping p =>
    rcases BlockingQueue.PopRule.enabled (p := p) hwait with ⟨ev, q, p', hr, hs⟩ | ⟨_ | e, rfl⟩
    · exact .worker hp (.pop hr) (by simpa using hs) rfl
    · exact .worker hp (.exit) (by simp) rfl
    · exact .worker hp (.start 0) (by simp) rfl
  | running e d => exact .worker hp (.finish 0) (by simp) rfl
  | executed e d f => exact .worker hp (.fulfil) (by simp) rfl
  | recording e s => exact .worker hp (.record) (by simp) rfl
  | exited => exact absurd rfl hw

/-- The holder of `shutdown_mutex_` goes on once the workers have exited. -/
theorem loop_canMove (hj : ∀ t, Joins t (c.pc t) c.shared) (hw : ∀ w, c.pc (.inl w) = .exited) {i : ι}
    {k : Caller} {n : ℕ} (hp : c.pc (.inr i) = .joining k (.loop n)) : CanMove capacity c (.inr i) := by
  by_cases hn : n < W
  · have hf : (c.shared.threads ⟨n, hn⟩).finished = true :=
      (WorkerPc.Joins.finished (hj (.inl ⟨n, hn⟩))).mpr (hw _)
    cases hjn : (c.shared.threads ⟨n, hn⟩).joinable with
    | false => exact .client hp (.join (.skip hn hjn)) (by simp) rfl
    | true => exact .client hp (.join (.join hn hjn hf)) (by simp) rfl
  · exact .client hp (.join (.joined (not_lt.mp hn))) (by simp) rfl

/-- A client that is not blocked goes on until its call returns, while nobody holds
`shutdown_mutex_`. -/
theorem client_canMove (hj : ∀ t, Joins t (c.pc t) c.shared) {i : ι}
    (hwait : .inr i ∉ c.shared.queue.not_full.waiting) (hm : c.shared.shutdown_mutex = none)
    (hi : c.pc (.inr i) ≠ .idle) : CanMove capacity c (.inr i) := by
  generalize hp : c.pc (.inr i) = p at hi
  cases p with
  | idle => exact absurd rfl hi
  | pushing p =>
    rcases BlockingQueue.PushRule.enabled capacity (p := p) hwait with
      ⟨ev, q, p', hr, hs⟩ | ⟨e, rfl⟩ | ⟨e, rfl⟩
    · exact .client hp (.push hr) (by simpa using hs) rfl
    · exact .client hp (.accept) (by simp) rfl
    · exact .client hp (.reject 0) (by simp) rfl
  | counting e => exact .client hp (.refuse) (by simp) rfl
  | closing k p =>
    rcases BlockingQueue.CloseRule.enabled (q := c.shared.queue) p with ⟨ev, q, p', hr, hs⟩ | rfl
    · exact .client hp (.close hr) (by simpa using hs) rfl
    · exact .client hp (.closed) (by simp) rfl
  | draining p =>
    rcases BlockingQueue.DrainRule.enabled (q := c.shared.queue) p with
      ⟨ev, q, p', hr, hs⟩ | ⟨ds, rfl⟩
    · exact .client hp (.drain hr) (by simpa using hs) rfl
    · exact .client hp (.drained 0) (by simp) rfl
  | discarding f rejected rest =>
    cases rest with
    | nil => exact .client hp (.count) (by simp) rfl
    | cons e rest => exact .client hp (.discard) (by simp) rfl
  | joining k p =>
    cases p with
    | done => exact .client hp (.leave) (by simp) rfl
    -- in the loop it would hold the mutex
    | loop n =>
      have hheld : c.shared.shutdown_mutex = some i :=
        (ClientPc.Joins.mutex (hj (.inr i))).mpr ⟨k, n, hp⟩
      rw [hm] at hheld
      cases hheld
    | lock =>
      cases hjoined : c.shared.joined with
      | true => exact .client hp (.join (.again hm hjoined)) (by simp) rfl
      | false => exact .client hp (.join (.lock hm hjoined)) (by simp) rfl

/-- Where threads are blocked, something can be done. -/
structure Wakeable (capacity : ℕ) (c : System W ι) : Prop where
  empty : ∀ w, .inl w ∈ c.shared.queue.not_empty.waiting → CanGoOn capacity c
  full : ∀ i, .inr i ∈ c.shared.queue.not_full.waiting → CanGoOn capacity c

theorem worker_canGoOn {w : Fin W} (hb : .inl w ∈ c.shared.queue.not_empty.waiting → CanGoOn capacity c)
    (hw : c.pc (.inl w) ≠ .exited) : CanGoOn capacity c := by
  by_cases hwait : .inl w ∈ c.shared.queue.not_empty.waiting
  · exact hb hwait
  · exact (worker_canMove hwait hw).canGoOn

/-- The holder of `shutdown_mutex_` goes on, or waits for a worker that does. -/
theorem loop_canGoOn (hj : ∀ t, Joins t (c.pc t) c.shared) (hb : Wakeable capacity c) {i : ι} {k : Caller}
    {n : ℕ} (hp : c.pc (.inr i) = .joining k (.loop n)) : CanGoOn capacity c := by
  by_cases hw : ∀ w, c.pc (.inl w) = .exited
  · exact (loop_canMove hj hw hp).canGoOn
  · obtain ⟨w, hw⟩ := not_forall.mp hw
    exact worker_canGoOn (hb.empty w) hw

theorem client_canGoOn (hj : ∀ t, Joins t (c.pc t) c.shared) {i : ι}
    (hb : .inr i ∈ c.shared.queue.not_full.waiting → CanGoOn capacity c)
    (hl : ∀ j k n, c.pc (.inr j) = .joining k (.loop n) → CanGoOn capacity c)
    (hi : c.pc (.inr i) ≠ .idle) : CanGoOn capacity c := by
  by_cases hwait : .inr i ∈ c.shared.queue.not_full.waiting
  · exact hb hwait
  · cases hm : c.shared.shutdown_mutex with
    | some j =>
      obtain ⟨k, n, hloop⟩ := (ClientPc.Joins.mutex (hj (.inr j))).mp hm
      exact hl j k n hloop
    | none => exact (client_canMove hj hwait hm hi).canGoOn

theorem busy_canGoOn (hj : ∀ t, Joins t (c.pc t) c.shared) (hb : Wakeable capacity c)
    (hbusy : (∃ w, c.pc (.inl w) ≠ .exited) ∨ ∃ i, c.pc (.inr i) ≠ .idle) : CanGoOn capacity c := by
  rcases hbusy with ⟨w, hw⟩ | ⟨i, hi⟩
  · exact worker_canGoOn (hb.empty w) hw
  · exact client_canGoOn hj (hb.full i) (fun _ _ _ => loop_canGoOn hj hb) hi

variable [Fintype ι]

/-- On a closed queue, whoever is blocked is owed a `notify_all`. -/
theorem wakeable (h : Run (rules capacity) init log c) (hc : c.shared.queue.closed = true) :
    Wakeable capacity c where
  empty w hw := by
    obtain ⟨t, ht⟩ := (queue_awake h).closed_empty hc ⟨_, hw⟩
    exact (owes_canMove (.inl ht)).canGoOn
  full i hi := by
    obtain ⟨t, ht⟩ := (queue_awake h).closed_full hc ⟨_, hi⟩
    exact (owes_canMove (.inr ht)).canGoOn

/-- **Progress**: on a closed queue something can be done until the workers have exited and the calls
have returned. -/
theorem progress (h : Run (rules capacity) init log c) (hc : c.shared.queue.closed = true)
    (hbusy : (∃ w, c.pc (.inl w) ≠ .exited) ∨ ∃ i, c.pc (.inr i) ≠ .idle) : CanGoOn capacity c :=
  busy_canGoOn (joins h).2 (wakeable h hc) hbusy

/-- **No call gets stuck**: while a client is inside a call something can be done, with the queue open
too.  Else every worker would be blocked for want of an item, and the client for want of a slot. -/
theorem call_canGoOn (hcap : 0 < capacity) (hW : 0 < W) (h : Run (rules capacity) init log c) {i : ι}
    (hi : c.pc (.inr i) ≠ .idle) : CanGoOn capacity c := by
  by_contra hno
  -- if nothing goes on, then the queue is open, every worker waits for an item and every client for room
  have hopen : c.shared.queue.closed = false := by
    by_contra hc
    exact hno (progress h (by simpa using hc) (.inr ⟨i, hi⟩))
  obtain ⟨hg, hj⟩ := joins h
  have hworker : ∀ w, .inl w ∈ c.shared.queue.not_empty.waiting := fun w => by
    by_contra hw
    refine hno (worker_canGoOn (fun hwait => absurd hwait hw) ?_)
    intro he
    have hclosed := (hg.finished_exhausted w ((WorkerPc.Joins.finished (hj (.inl w))).mpr he)).1
    rw [hopen] at hclosed
    cases hclosed
  have hclient : ∀ j, c.pc (.inr j) ≠ .idle → .inr j ∈ c.shared.queue.not_full.waiting := fun j hne => by
    by_contra hw
    refine hno (client_canGoOn hj (fun hwait => absurd hwait hw) ?_ hne)
    intro j' k n hp
    have hclosed := ClientPc.Joins.closed (hj (.inr j')) (by rw [hp]; rfl)
    rw [hopen] at hclosed
    cases hclosed
  have ha := queue_awake h
  have hq := (toQueue capacity).run h
  rw [toQueue_init] at hq
  have hempty : ∀ w, BlockingQueue.BlockedEmpty ((toQueue capacity).config c) (.inl w) := fun w =>
    ⟨ha.consumers.waiting _ (hworker w), hworker w⟩
  have hfull : ∀ j, c.pc (.inr j) ≠ .idle →
      BlockingQueue.BlockedFull ((toQueue capacity).config c) (.inr j) := fun j hne =>
    ⟨ha.producers.waiting _ (hclient j hne), hclient j hne⟩
  obtain ⟨hnone, hroom⟩ := (BlockingQueue.awake hq).open_of_all_blocked (by
    rintro (w | j) hne
    · exact .inl (hempty w)
    · refine .inr (hfull j fun hp => hne ?_)
      show ClientPc.place (c.pc (.inr j)) = .idle
      rw [hp]
      rfl)
  -- but the queue is not both empty and full
  have hlength := (hroom _ (hfull i hi)).2
  rw [(hnone _ (hempty ⟨0, hW⟩)).2] at hlength
  exact absurd hlength (not_le.mpr hcap)

end Progress

/-! ## Until the destructor -/

section Lifetime

/-- In the destructor. -/
def ClientPc.destroys : ClientPc → Bool
  | .closing k _ => decide (k = .destructor)
  | .joining k _ => decide (k = .close .destructor)
  | _ => false

@[simp] theorem fulfil_lifetime (m : ThreadPool W ι) (e : TaskEnvelope) (r : TaskResult) :
    (m.fulfil e r).lifetime = m.lifetime := by
  unfold fulfil; split <;> rfl

variable [DecidableEq ι] {capacity : ℕ} {i : ι} {m m' : ThreadPool W ι} {ev : Event W} {c : System W ι}
  {log : List (Thread W ι × Event W)}

/-- The destructor is entered on a pool that is alive and leaves it destroyed; the other steps of a
client keep the lifetime. -/
inductive LifetimeStep (m : ThreadPool W ι) (p : ClientPc) (ev : Event W) (m' : ThreadPool W ι)
    (p' : ClientPc) : Prop
  | keep (hl : m'.lifetime = m.lifetime) (hd : p'.destroys = p.destroys)
  | enter (hev : ev = .shutdown .destructor) (hl : m.lifetime = .alive) (hl' : m'.lifetime = .dying)
      (hp : p = .idle) (hp' : p' = .closing .destructor .enter)
  | leave (hl' : m'.lifetime = .destroyed) (hp : p = .joining (.close .destructor) .done)
      (hp' : p' = .idle)

theorem ClientRule.lifetime {p p' : ClientPc} (h : ClientRule capacity i m p ev m' p') :
    LifetimeStep m p ev m' p' := by
  cases h with
  | destructor hl => exact .enter rfl hl rfl rfl rfl
  | reject _ => exact .keep (fulfil_lifetime _ _ _) rfl
  | discard => exact .keep (fulfil_lifetime _ _ _) rfl
  | closed => exact .keep rfl (by simp [ClientPc.destroys])
  | join h => exact .keep (by cases h <;> rfl) rfl
  | @leave k =>
    rcases k with (_ | _) | _
    · exact .keep rfl rfl
    · exact .leave rfl rfl rfl
    · exact .keep rfl rfl
  | _ => exact .keep rfl rfl

theorem WorkerRule.lifetime {w : Fin W} {p p' : WorkerPc} (h : WorkerRule w m p ev m' p') :
    m'.lifetime = m.lifetime := by
  cases h with
  | fulfil => exact fulfil_lifetime _ _ _
  | _ => rfl

/-- A pool lives until its destructor is called. -/
theorem alive_of_no_destructor (h : Run (rules capacity) init log c)
    (hno : ∀ l ∈ log, l.2 ≠ .shutdown .destructor) : c.shared.lifetime = .alive := by
  suffices hinv : (∀ l ∈ log, l.2 ≠ .shutdown .destructor) →
      c.shared.lifetime = .alive ∧ ∀ i, (c.pc (.inr i)).destroys = false from (hinv hno).1
  refine h.induct (I := fun log d => (∀ l ∈ log, l.2 ≠ .shutdown .destructor) →
    d.shared.lifetime = .alive ∧ ∀ i, (d.pc (.inr i)).destroys = false)
    (fun _ => ⟨rfl, fun _ => rfl⟩) ?_
  intro log d t ev m p _ ih hr hno
  obtain ⟨halive, hp⟩ := ih fun l hl => hno l (List.mem_append_left _ hl)
  rcases t with w | i
  · exact ⟨(WorkerRule.lifetime hr).trans halive, fun i => by simpa using hp i⟩
  · cases ClientRule.lifetime (i := i) hr with
    | keep hl hd =>
      refine ⟨hl.trans halive, ?_⟩
      intro j
      by_cases hji : j = i
      · subst hji
        simpa [hd] using hp j
      · simpa [update_client_of_ne _ hji] using hp j
    | enter hev _ _ _ _ => exact absurd hev (hno (.inr i, ev) (by simp))
    | leave _ hjoin _ =>
      have hnot := hp i
      rw [hjoin] at hnot
      cases hnot

end Lifetime

/-! ## Termination -/

section Termination

def WorkerPc.weight : WorkerPc → ℕ
  | .starting => 4
  | .popping p => p.weight
  | .running _ _ => 7
  | .executed _ _ _ => 6
  | .recording _ _ => 5
  | .exited => 0

def JoinPc.weight (W : ℕ) : JoinPc → ℕ
  | .lock => W + 4
  | .loop n => W - n + 3
  | .done => 1

def ClientPc.weight (W : ℕ) : ClientPc → ℕ
  | .idle => 0
  | .pushing p => p.weight
  | .counting _ => 1
  | .closing _ p => W + 5 + p.weight
  | .draining p => W + 6 + p.weight
  | .discarding _ _ rest => W + 5 + rest.length
  | .joining _ p => p.weight W

theorem WorkerRule.lower [DecidableEq ι] {w : Fin W} {m m' : ThreadPool W ι} {p p' : WorkerPc}
    {ev : Event W} (h : WorkerRule w m p ev m' p') (hc : m.queue.closed = true) :
    p'.weight + m'.queue.weight < p.weight + m.queue.weight := by
  cases h with
  | pop h => exact h.lower hc
  | _ => simp [WorkerPc.weight, BlockingQueue.PopPc.weight]

theorem JoinRule.lower {i : ι} {m m' : ThreadPool W ι} {p p' : JoinPc} {ev : Event W}
    (h : JoinRule i m p ev m' p') : p'.weight W < p.weight W := by
  cases h <;> simp only [JoinPc.weight] <;> omega

theorem ClientRule.lower [DecidableEq ι] {capacity : ℕ} {i : ι} {m m' : ThreadPool W ι}
    {p p' : ClientPc} {ev : Event W} (h : ClientRule capacity i m p ev m' p')
    (hc : m.queue.closed = true) (hn : ev.starts = false) :
    p'.weight W + m'.queue.weight < p.weight W + m.queue.weight := by
  cases h with
  | push h => exact h.lower hc
  | close h =>
    have := h.lower hc
    simp only [ClientPc.weight]
    omega
  | drain h =>
    have := h.lower
    simp only [ClientPc.weight]
    omega
  | join h =>
    have := h.lower
    rw [h.toQueue.2]
    simpa [ClientPc.weight] using this
  | submit _ _ _ => simp at hn
  | shutdown _ => simp at hn
  | destructor _ => simp at hn
  | shutdown_now _ => simp at hn
  | leave => simp [ClientPc.weight, JoinPc.weight]
  | closed => simp [ClientPc.weight, JoinPc.weight, BlockingQueue.ClosePc.weight]
  | drained _ => simp [ClientPc.weight, BlockingQueue.DrainPc.weight]
  | _ => simp [ClientPc.weight, JoinPc.weight, BlockingQueue.PushPc.weight]

variable [DecidableEq ι]

/-- What is left to do once the queue is closed: every step other than a new call lowers it. -/
def winding_down (capacity : ℕ) : Measure (rules (W := W) (ι := ι) capacity) where
  Good m := m.queue.closed = true
  ok ev := ev.starts = false
  weight
    | .inl _, p => WorkerPc.weight p
    | .inr _, p => ClientPc.weight W p
  store m := m.queue.weight
  good _ _ _ _ _ _ hc h := (rule_queue h).1 hc
  lower t _ _ _ _ _ hc hn h := by
    rcases t with w | i
    · exact WorkerRule.lower (w := w) h hc
    · exact ClientRule.lower (i := i) h hc hn

variable [Fintype ι] {capacity : ℕ} {c : System W ι}
  {log : List (Thread W ι × Event W)}

/-- **A shutdown cannot hang.**  From a reachable configuration with the queue closed: while a worker
has not exited or a call has not returned, a step other than a spurious wake-up can be taken; every
step that does not begin a call lowers `winding_down`; so a run without new calls is no longer than
it, and where no such step is left, every worker has exited, `joined_` is set and every call has
returned. -/
theorem shutdown_cannot_hang (h : Run (rules capacity) init log c)
    (hc : c.shared.queue.closed = true) :
    ((∃ w, c.pc (.inl w) ≠ .exited) ∨ (∃ i, c.pc (.inr i) ≠ .idle) → CanGoOn capacity c) ∧
    (∀ l c', Step (rules capacity) c l c' → l.2.starts = false →
      (winding_down capacity).total c' < (winding_down capacity).total c) ∧
    ∀ log' c', Run (rules capacity) c log' c' → (∀ l ∈ log', l.2.starts = false) →
      log'.length ≤ (winding_down capacity).total c ∧
      ((∀ l d, Step (rules capacity) c' l d → l.2.starts = true) →
        (∀ w, c'.pc (.inl w) = .exited) ∧ c'.shared.joined = true ∧ ∀ i, c'.pc (.inr i) = .idle) := by
  refine ⟨progress h hc, fun l c' hs hn => (winding_down capacity).step hc hn hs,
    fun log' c' h' hn => ⟨?_, fun hmax => ?_⟩⟩
  · have := (winding_down capacity).length_le h' hc hn
    omega
  · have hrun := h.trans h'
    have hc' := (queue_closed_stable h' hc).1
    have hstuck : ¬ CanGoOn capacity c' := by
      rintro ⟨l, d, hs, -, hl⟩
      rw [hmax l d hs] at hl
      cases hl
    have hw : ∀ w, c'.pc (.inl w) = .exited := by
      by_contra hne
      exact hstuck (progress hrun hc' (.inl (not_forall.mp hne)))
    have hi : ∀ i, c'.pc (.inr i) = .idle := by
      by_contra hne
      exact hstuck (progress hrun hc' (.inr (not_forall.mp hne)))
    refine ⟨hw, ?_, hi⟩
    rcases joined_or_closing hrun hc' with hj | ⟨_ | i, ht⟩
    · exact hj
    · simp [closes] at ht
    · simp [closes, hi, ClientPc.closes] at ht

/-- The first six steps of `drainSchedule`, up to the critical section of `close`. -/
def closedRun :
    List (Thread 1 (Fin 2) × Event 1) × System 1 (Fin 2) :=
  (play (act 1) (drainSchedule.take 6) init).get rfl

/-- From there, with the worker not yet scheduled, at most 25 steps are left. -/
theorem shutdown_cannot_hang_closedRun :
    CanGoOn 1 closedRun.2 ∧ ∀ log c, Run (rules 1) closedRun.2 log c →
      (∀ l ∈ log, l.2.starts = false) → log.length ≤ 25 := by
  have hrun : Run (rules 1) init closedRun.1 closedRun.2 := play_run act_sound rfl
  have hall := shutdown_cannot_hang hrun rfl
  refine ⟨hall.1 (.inl ⟨0, by decide⟩), fun log c h hn => ((hall.2.2 log c h hn).1).trans (by decide)⟩

end Termination

end ThreadPool

end TaskEngine
