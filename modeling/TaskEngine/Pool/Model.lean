import TaskEngine.Core.Task
import TaskEngine.Queue.Model

/-!
# TaskEngine.Pool.Model — `ThreadPool`: its workers and its clients

`thread_pool.cpp`.  The threads are `W` workers, each in `worker_loop`, and the clients `ι`, each
idle or inside one call of `submit`, `shutdown`, `shutdown_now` or the destructor.  They interleave
step by step over the members of the pool and the heap of promises; the steps inside `queue_` are
those of `BlockingQueue`.

A reading of the clock is whatever the step says.  A task body is one step from `start` to `finish`
and does not touch the pool.
-/

namespace TaskEngine

open Interleaving

/-- A worker or a client. -/
abbrev Thread (W : ℕ) (ι : Type) := Fin W ⊕ ι

/-- A `std::thread` of the pool: whether it can still be joined, and whether it has returned. -/
structure WorkerThread where
  joinable : Bool
  finished : Bool
  deriving DecidableEq

/-- The pool, before, during and after `~ThreadPool`. -/
inductive Lifetime
  | alive
  | dying
  | destroyed
  deriving DecidableEq

/-- The members of the pool, with the promises of the envelopes submitted to it.  `terminated` is
set when `set_value` throws out of a `noexcept` function. -/
structure ThreadPool (W : ℕ) (ι : Type) where
  queue : BlockingQueue TaskEnvelope (Thread W ι)
  samples : Fin W → List Sample
  rejected : ℕ
  shutdown_mutex : Option ι
  joined : Bool
  threads : Fin W → WorkerThread
  promises : List Promise
  lifetime : Lifetime
  terminated : Bool

namespace ThreadPool

variable {W : ℕ} {ι : Type}

/-! ## Places -/

/-- Inside `worker_loop`. -/
inductive WorkerPc
  | starting
  | popping (p : BlockingQueue.PopPc TaskEnvelope)
  | running (e : TaskEnvelope) (dequeued : TimePoint)
  | executed (e : TaskEnvelope) (dequeued finished : TimePoint)
  | recording (e : TaskEnvelope) (sample : Sample)
  | exited
  deriving DecidableEq

/-- Inside `join_workers`: about to take `shutdown_mutex_`, holding it before `threads_[i]`, or past
it. -/
inductive JoinPc
  | lock
  | loop (i : ℕ)
  | done
  deriving DecidableEq

/-- The two callers of `close`. -/
inductive Closer
  | shutdown
  | destructor
  deriving DecidableEq

/-- The callers of `join_workers`; `shutdown_now` still owns what it discarded. -/
inductive Caller
  | close (k : Closer)
  | shutdown_now (discarded : List TaskEnvelope)
  deriving DecidableEq

/-- A client, idle or inside a call. -/
inductive ClientPc
  | idle
  /-- `submit`, inside `queue_.push` -/
  | pushing (p : BlockingQueue.PushPc TaskEnvelope)
  /-- `submit`, past `reject` and before `rejected_.fetch_add` -/
  | counting (e : TaskEnvelope)
  | closing (k : Closer) (p : BlockingQueue.ClosePc)
  | draining (p : BlockingQueue.DrainPc TaskEnvelope)
  /-- `shutdown_now`, in its loop, with what it has rejected and what is left -/
  | discarding (finished : TimePoint) (rejected rest : List TaskEnvelope)
  | joining (k : Caller) (p : JoinPc)
  deriving DecidableEq

/-- The places of a thread. -/
@[reducible] def Pc : Thread W ι → Type
  | .inl _ => WorkerPc
  | .inr _ => ClientPc

/-! ## Events -/

/-- What a step did. -/
inductive Event (W : ℕ)
  | enter
  | queue (ev : BlockingQueue.Event TaskEnvelope)
  | start (e : TaskEnvelope) (dequeued : TimePoint)
  | finish (e : TaskEnvelope) (finished : TimePoint)
  | fulfil (e : TaskEnvelope) (r : TaskResult)
  | record (e : TaskEnvelope) (s : Sample)
  | exit
  | submit (e : TaskEnvelope)
  | accept (e : TaskEnvelope)
  | reject (e : TaskEnvelope) (r : TaskResult)
  | refuse (e : TaskEnvelope)
  | shutdown (k : Closer)
  | close (k : Closer)
  | shutdown_now
  | drain (discarded : List TaskEnvelope) (finished : TimePoint)
  | discard (e : TaskEnvelope) (r : TaskResult)
  | count (discarded : List TaskEnvelope)
  | lock
  | join (w : Fin W)
  | skip (w : Fin W)
  | joined
  | leave (k : Caller)
  deriving DecidableEq

/-! ## What the steps do to the members -/

/-- `promise_.set_value(r)` inside `run` or `reject`, which are `noexcept`. -/
def fulfil (m : ThreadPool W ι) (e : TaskEnvelope) (r : TaskResult) : ThreadPool W ι :=
  match set_value m.promises e.promise r with
  | some promises => { m with promises := promises }
  | none => { m with terminated := true }

/-- `samples.push_back(sample)`, and the end of the loop's scope, which destroys the envelope. -/
def record (m : ThreadPool W ι) (w : Fin W) (e : TaskEnvelope) (s : Sample) : ThreadPool W ι :=
  { m with
    samples := Function.update m.samples w (m.samples w ++ [s])
    promises := destroy m.promises e }

/-- `rejected_.fetch_add(n)`. -/
def count (m : ThreadPool W ι) (n : ℕ) : ThreadPool W ι :=
  { m with rejected := (m.rejected + n) % 2 ^ 64 }

/-- The end of a call that joined: the scope of `shutdown_now` destroys what it discarded, and after
the destructor's body the members go, the queue with the envelopes still in it. -/
def leave (m : ThreadPool W ι) : Caller → ThreadPool W ι
  | .close .shutdown => m
  | .close .destructor =>
    { m with promises := m.queue.items.foldl destroy m.promises, lifetime := .destroyed }
  | .shutdown_now discarded => { m with promises := discarded.foldl destroy m.promises }

/-- `std::thread::join`. -/
def joinThread (m : ThreadPool W ι) (w : Fin W) : ThreadPool W ι :=
  { m with threads := Function.update m.threads w { m.threads w with joinable := false } }

/-- The return of a worker's thread function. -/
def finishThread (m : ThreadPool W ι) (w : Fin W) : ThreadPool W ι :=
  { m with threads := Function.update m.threads w { m.threads w with finished := true } }

/-! ## The steps -/

section Rules

variable [DecidableEq ι]

/-- A step of worker `w`. -/
inductive WorkerRule (w : Fin W) :
    ThreadPool W ι → WorkerPc → Event W → ThreadPool W ι → WorkerPc → Prop
  | enter {m} : WorkerRule w m .starting .enter m (.popping .enter)
  | pop {m : ThreadPool W ι} {p ev q p'} (h : BlockingQueue.PopRule (.inl w) m.queue p ev q p') :
      WorkerRule w m (.popping p) (.queue ev) { m with queue := q } (.popping p')
  /-- `envelope->run(Clock::now())` begins -/
  | start {m e} (dequeued : TimePoint) :
      WorkerRule w m (.popping (.done (some e))) (.start e dequeued) m (.running e dequeued)
  /-- `execute()` has returned or thrown, and the clock is read -/
  | finish {m e dequeued} (finished : TimePoint) :
      WorkerRule w m (.running e dequeued) (.finish e finished) m (.executed e dequeued finished)
  | fulfil {m e dequeued finished} :
      WorkerRule w m (.executed e dequeued finished) (.fulfil e (e.result dequeued finished))
        (m.fulfil e (e.result dequeued finished)) (.recording e (e.sample dequeued finished))
  | record {m e s} : WorkerRule w m (.recording e s) (.record e s) (m.record w e s) (.popping .enter)
  | exit {m} : WorkerRule w m (.popping (.done none)) .exit (m.finishThread w) .exited

/-- A step of client `i` inside `join_workers`. -/
inductive JoinRule (i : ι) :
    ThreadPool W ι → JoinPc → Event W → ThreadPool W ι → JoinPc → Prop
  | lock {m} (hm : m.shutdown_mutex = none) (hj : m.joined = false) :
      JoinRule i m .lock .lock { m with shutdown_mutex := some i } (.loop 0)
  /-- `joined_` is already set: the mutex is taken and released -/
  | again {m} (hm : m.shutdown_mutex = none) (hj : m.joined = true) : JoinRule i m .lock .lock m .done
  | join {m n} (hn : n < W) (hj : (m.threads ⟨n, hn⟩).joinable = true)
      (hf : (m.threads ⟨n, hn⟩).finished = true) :
      JoinRule i m (.loop n) (.join ⟨n, hn⟩) (m.joinThread ⟨n, hn⟩) (.loop (n + 1))
  /-- `joinable()` is `false` -/
  | skip {m n} (hn : n < W) (hj : (m.threads ⟨n, hn⟩).joinable = false) :
      JoinRule i m (.loop n) (.skip ⟨n, hn⟩) m (.loop (n + 1))
  | joined {m n} (hn : W ≤ n) :
      JoinRule i m (.loop n) .joined { m with joined := true, shutdown_mutex := none } .done

/-- A step of client `i`.  No call starts once the destructor has been entered. -/
inductive ClientRule (capacity : ℕ) (i : ι) :
    ThreadPool W ι → ClientPc → Event W → ThreadPool W ι → ClientPc → Prop
  /-- a new envelope, with a promise of its own, is handed to `submit` -/
  | submit {m} (e : TaskEnvelope) (hl : m.lifetime = .alive) (he : e.promise = m.promises.length) :
      ClientRule capacity i m .idle (.submit e) { m with promises := m.promises ++ [.unset] }
        (.pushing (.enter e))
  | push {m : ThreadPool W ι} {p ev q p'}
      (h : BlockingQueue.PushRule capacity (.inr i) m.queue p ev q p') :
      ClientRule capacity i m (.pushing p) (.queue ev) { m with queue := q } (.pushing p')
  | accept {m e} : ClientRule capacity i m (.pushing (.done e)) (.accept e) m .idle
  | reject {m e} (finished : TimePoint) :
      ClientRule capacity i m (.pushing (.refused e)) (.reject e (e.rejection finished))
        (m.fulfil e (e.rejection finished)) (.counting e)
  /-- `fetch_add(1)`, and `submit` returns `false`, destroying its argument -/
  | refuse {m e} :
      ClientRule capacity i m (.counting e) (.refuse e)
        { m.count 1 with promises := destroy m.promises e } .idle
  | shutdown {m} (hl : m.lifetime = .alive) :
      ClientRule capacity i m .idle (.shutdown .shutdown) m (.closing .shutdown .enter)
  | destructor {m} (hl : m.lifetime = .alive) :
      ClientRule capacity i m .idle (.shutdown .destructor) { m with lifetime := .dying }
        (.closing .destructor .enter)
  | close {m : ThreadPool W ι} {k p ev q p'} (h : BlockingQueue.CloseRule m.queue p ev q p') :
      ClientRule capacity i m (.closing k p) (.queue ev) { m with queue := q } (.closing k p')
  | closed {m k} :
      ClientRule capacity i m (.closing k .done) (.close k) m (.joining (.close k) .lock)
  | shutdown_now {m} (hl : m.lifetime = .alive) :
      ClientRule capacity i m .idle .shutdown_now m (.draining .enter)
  | drain {m : ThreadPool W ι} {p ev q p'} (h : BlockingQueue.DrainRule m.queue p ev q p') :
      ClientRule capacity i m (.draining p) (.queue ev) { m with queue := q } (.draining p')
  /-- `close_and_drain` returns, and the clock is read once for all that was discarded -/
  | drained {m discarded} (finished : TimePoint) :
      ClientRule capacity i m (.draining (.done discarded)) (.drain discarded finished) m
        (.discarding finished [] discarded)
  | discard {m finished rejected e rest} :
      ClientRule capacity i m (.discarding finished rejected (e :: rest))
        (.discard e (e.rejection finished)) (m.fulfil e (e.rejection finished))
        (.discarding finished (rejected ++ [e]) rest)
  | count {m finished discarded} :
      ClientRule capacity i m (.discarding finished discarded []) (.count discarded)
        (m.count discarded.length) (.joining (.shutdown_now discarded) .lock)
  | join {m k p ev m' p'} (h : JoinRule i m p ev m' p') :
      ClientRule capacity i m (.joining k p) ev m' (.joining k p')
  | leave {m k} : ClientRule capacity i m (.joining k .done) (.leave k) (m.leave k) .idle

/-- The pool as an interleaving of its workers and its clients. -/
def rules (capacity : ℕ) : Rules (ThreadPool W ι) (Event W) (Pc (W := W) (ι := ι))
  | .inl w => WorkerRule w
  | .inr i => ClientRule capacity i

end Rules

/-! ## The constructor -/

/-- The pool as its constructor leaves it: every thread started, none of them scheduled yet. -/
def fresh : ThreadPool W ι where
  queue := .empty
  samples _ := []
  rejected := 0
  shutdown_mutex := none
  joined := false
  threads _ := ⟨true, false⟩
  promises := []
  lifetime := .alive
  terminated := false

/-- A configuration of the pool: its members and where its threads are. -/
abbrev System (W : ℕ) (ι : Type) := Config (ThreadPool W ι) (Pc (W := W) (ι := ι))

/-- A new pool with no client inside. -/
def init : System W ι where
  shared := fresh
  pc
    | .inl _ => .starting
    | .inr _ => .idle

theorem update_client_of_ne [DecidableEq ι] (c : System W ι) {i j : ι} (h : j ≠ i) (p : ClientPc) :
    Function.update c.pc (.inr i) p (.inr j) = c.pc (.inr j) :=
  Function.update_of_ne (fun heq => h (Sum.inr_injective heq)) _ _

/-- The checks of the two constructors, in their order; thread creation is taken to succeed. -/
def construct (worker_count queue_capacity : ℕ) :
    Except Exception (System worker_count ι) :=
  if queue_capacity = 0 then
    .error (.invalid_argument "BlockingQueue capacity must be at least 1")
  else if worker_count = 0 then
    .error (.invalid_argument "ThreadPool requires at least one worker")
  else .ok init

/-! ## Computing the steps -/

section Act

variable [DecidableEq ι]

/-- The choice of a thread of the pool: a step inside the queue, a reading of the clock, a call, or
the one step there is. -/
inductive Act (W : ℕ) (ι : Type)
  | queue (a : BlockingQueue.Act (Thread W ι))
  | clock (now : TimePoint)
  | submit (id : TaskId) (task : Task) (submitted : TimePoint)
  | shutdown (k : Closer)
  | shutdown_now
  | go

def WorkerPc.act (w : Fin W) (m : ThreadPool W ι) :
    WorkerPc → Act W ι → Option (Event W × ThreadPool W ι × WorkerPc)
  | .starting, .go => some (.enter, m, .popping .enter)
  | .popping p, .queue a =>
    (p.act (.inl w) m.queue a).map fun r => (.queue r.1, { m with queue := r.2.1 }, .popping r.2.2)
  | .popping (.done (some e)), .clock dequeued => some (.start e dequeued, m, .running e dequeued)
  | .popping (.done none), .go => some (.exit, m.finishThread w, .exited)
  | .running e dequeued, .clock finished => some (.finish e finished, m, .executed e dequeued finished)
  | .executed e dequeued finished, .go =>
    some (.fulfil e (e.result dequeued finished), m.fulfil e (e.result dequeued finished),
      .recording e (e.sample dequeued finished))
  | .recording e s, .go => some (.record e s, m.record w e s, .popping .enter)
  | _, _ => none

def JoinPc.act (i : ι) (m : ThreadPool W ι) : JoinPc → Option (Event W × ThreadPool W ι × JoinPc)
  | .lock =>
    if m.shutdown_mutex = none then
      if m.joined then some (.lock, m, .done)
      else some (.lock, { m with shutdown_mutex := some i }, .loop 0)
    else none
  | .loop n =>
    if hn : n < W then
      if (m.threads ⟨n, hn⟩).joinable then
        if (m.threads ⟨n, hn⟩).finished then
          some (.join ⟨n, hn⟩, m.joinThread ⟨n, hn⟩, .loop (n + 1))
        else none
      else some (.skip ⟨n, hn⟩, m, .loop (n + 1))
    else some (.joined, { m with joined := true, shutdown_mutex := none }, .done)
  | .done => none

def ClientPc.act (capacity : ℕ) (i : ι) (m : ThreadPool W ι) :
    ClientPc → Act W ι → Option (Event W × ThreadPool W ι × ClientPc)
  | .idle, .submit id task submitted =>
    if m.lifetime = .alive then
      some (.submit ⟨id, task, submitted, m.promises.length⟩,
        { m with promises := m.promises ++ [.unset] },
        .pushing (.enter ⟨id, task, submitted, m.promises.length⟩))
    else none
  | .idle, .shutdown .shutdown =>
    if m.lifetime = .alive then some (.shutdown .shutdown, m, .closing .shutdown .enter) else none
  | .idle, .shutdown .destructor =>
    if m.lifetime = .alive then
      some (.shutdown .destructor, { m with lifetime := .dying }, .closing .destructor .enter)
    else none
  | .idle, .shutdown_now =>
    if m.lifetime = .alive then some (.shutdown_now, m, .draining .enter) else none
  | .pushing p, .queue a =>
    (p.act capacity (.inr i) m.queue a).map fun r =>
      (.queue r.1, { m with queue := r.2.1 }, .pushing r.2.2)
  | .pushing (.done e), .go => some (.accept e, m, .idle)
  | .pushing (.refused e), .clock finished =>
    some (.reject e (e.rejection finished), m.fulfil e (e.rejection finished), .counting e)
  | .counting e, .go =>
    some (.refuse e, { m.count 1 with promises := destroy m.promises e }, .idle)
  | .closing k .done, .go => some (.close k, m, .joining (.close k) .lock)
  | .closing k p, .queue _ =>
    (p.act m.queue).map fun r => (.queue r.1, { m with queue := r.2.1 }, .closing k r.2.2)
  | .draining (.done discarded), .clock finished =>
    some (.drain discarded finished, m, .discarding finished [] discarded)
  | .draining p, .queue _ =>
    (p.act m.queue).map fun r => (.queue r.1, { m with queue := r.2.1 }, .draining r.2.2)
  | .discarding finished rejected (e :: rest), .go =>
    some (.discard e (e.rejection finished), m.fulfil e (e.rejection finished),
      .discarding finished (rejected ++ [e]) rest)
  | .discarding _ discarded [], .go =>
    some (.count discarded, m.count discarded.length, .joining (.shutdown_now discarded) .lock)
  | .joining k .done, .go => some (.leave k, m.leave k, .idle)
  | .joining k p, .go => (p.act i m).map fun r => (r.1, r.2.1, .joining k r.2.2)
  | _, _ => none

/-- The step that a thread's choice leads to. -/
def act (capacity : ℕ) : (t : Thread W ι) → Act W ι → ThreadPool W ι → Pc t →
    Option (Event W × ThreadPool W ι × Pc t)
  | .inl w, a, m, p => WorkerPc.act w m p a
  | .inr i, a, m, p => ClientPc.act capacity i m p a

variable {capacity : ℕ} {m m' : ThreadPool W ι} {ev : Event W}

theorem WorkerPc.act_sound {w : Fin W} {p p' : WorkerPc} {a : Act W ι}
    (h : p.act w m a = some (ev, m', p')) : WorkerRule w m p ev m' p' := by
  unfold WorkerPc.act at h
  split at h
  · cases h; exact .enter
  · obtain ⟨⟨ev, q, p'⟩, hp, he⟩ := Option.map_eq_some_iff.mp h
    cases he
    exact .pop (BlockingQueue.PopPc.act_sound hp)
  · cases h; exact .start _
  · cases h; exact .exit
  · cases h; exact .finish _
  · cases h; exact .fulfil
  · cases h; exact .record
  · cases h

omit [DecidableEq ι] in
theorem JoinPc.act_sound {i : ι} {p p' : JoinPc} (h : p.act i m = some (ev, m', p')) :
    JoinRule i m p ev m' p' := by
  cases p with
  | done => cases h
  | lock =>
    simp only [JoinPc.act] at h
    split_ifs at h with hm hj
    · cases h; exact .again hm hj
    · cases h; exact .lock hm (Bool.not_eq_true _ ▸ hj)
  | loop n =>
    simp only [JoinPc.act] at h
    split_ifs at h with hn hj hf
    · cases h; exact .join hn hj hf
    · cases h; exact .skip hn (Bool.not_eq_true _ ▸ hj)
    · cases h; exact .joined (not_lt.mp hn)

theorem ClientPc.act_sound {i : ι} {p p' : ClientPc} {a : Act W ι}
    (h : p.act capacity i m a = some (ev, m', p')) : ClientRule capacity i m p ev m' p' := by
  unfold ClientPc.act at h
  split at h
  · split_ifs at h with hl; cases h; exact .submit _ hl rfl
  · split_ifs at h with hl; cases h; exact .shutdown hl
  · split_ifs at h with hl; cases h; exact .destructor hl
  · split_ifs at h with hl; cases h; exact .shutdown_now hl
  · obtain ⟨⟨ev, q, p'⟩, hp, he⟩ := Option.map_eq_some_iff.mp h
    cases he
    exact .push (BlockingQueue.PushPc.act_sound hp)
  · cases h; exact .accept
  · cases h; exact .reject _
  · cases h; exact .refuse
  · cases h; exact .closed
  · obtain ⟨⟨ev, q, p'⟩, hp, he⟩ := Option.map_eq_some_iff.mp h
    cases he
    exact .close (BlockingQueue.ClosePc.act_sound hp)
  · cases h; exact .drained _
  · obtain ⟨⟨ev, q, p'⟩, hp, he⟩ := Option.map_eq_some_iff.mp h
    cases he
    exact .drain (BlockingQueue.DrainPc.act_sound hp)
  · cases h; exact .discard
  · cases h; exact .count
  · cases h; exact .leave
  · obtain ⟨⟨ev, m', p'⟩, hp, he⟩ := Option.map_eq_some_iff.mp h
    cases he
    exact .join (JoinPc.act_sound hp)
  · cases h

theorem act_sound (t : Thread W ι) (a : Act W ι) (m : ThreadPool W ι) (p : Pc t) (ev : Event W)
    (m' : ThreadPool W ι) (p' : Pc t) (h : act capacity t a m p = some (ev, m', p')) :
    rules capacity t m p ev m' p' := by
  rcases t with w | i
  · exact WorkerPc.act_sound h
  · exact ClientPc.act_sound h

/-- A schedule: client 0 submits a task, client 1 shuts down, client 0 submits again and is refused,
the worker runs the task and exits, and client 1 joins it. -/
def drainSchedule : List (Thread 1 (Fin 2) × Act 1 (Fin 2)) :=
  [(.inr 0, .submit 1 ⟨.returns⟩ 0), (.inr 0, .queue .lock), (.inr 0, .queue (.notify none)),
   (.inr 0, .go), (.inr 1, .shutdown .shutdown), (.inr 1, .queue .lock), (.inr 1, .queue .lock),
   (.inr 1, .queue .lock), (.inr 1, .go), (.inr 0, .submit 2 ⟨.throws "late"⟩ 3),
   (.inr 0, .queue .lock), (.inr 0, .clock 4), (.inr 0, .go), (.inl 0, .go), (.inl 0, .queue .lock),
   (.inl 0, .queue (.notify none)), (.inl 0, .clock 5), (.inl 0, .clock 6), (.inl 0, .go),
   (.inl 0, .go), (.inl 0, .queue .lock), (.inl 0, .go), (.inr 1, .go), (.inr 1, .go), (.inr 1, .go)]

/-- Its log, and the configuration in which the `shutdown` is about to return. -/
def drainRun :
    List (Thread 1 (Fin 2) × Event 1) × System 1 (Fin 2) :=
  (play (act 1) drainSchedule init).get rfl

theorem drainRun_run : Run (rules 1) init drainRun.1 drainRun.2 := play_run act_sound rfl

theorem drainRun_leave : Step (rules 1) drainRun.2 (.inr (1 : Fin 2), .leave (.close .shutdown))
    ⟨drainRun.2.shared, Function.update drainRun.2.pc (.inr 1) .idle⟩ :=
  .mk (show ClientRule 1 1 drainRun.2.shared (.joining (.close .shutdown) .done)
    (.leave (.close .shutdown)) drainRun.2.shared .idle from .leave)

end Act

/-! ## Queries -/

/-- The buffers of the workers, merged in their order. -/
def merged (m : ThreadPool W ι) : List Sample := (List.finRange W).flatMap m.samples

/-- `collect_samples`, with nothing happening in between. -/
def collect_samples (m : ThreadPool W ι) : Except Exception (List Sample) :=
  if m.joined then .ok m.merged
  else
    .error (.logic_error ("ThreadPool::collect_samples requires the workers to be joined; " ++
      "call shutdown() or shutdown_now() first"))

def rejected_count (m : ThreadPool W ι) : ℕ := m.rejected

end ThreadPool

end TaskEngine
