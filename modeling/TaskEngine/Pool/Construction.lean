import TaskEngine.Pool.Progress
import TaskEngine.Pool.Threads

/-!
# TaskEngine.Pool.Construction — a constructor that cannot start all its threads

The constructor of `ThreadPool` starts `worker_count` threads in a loop.  Here starting one throws after
`k` of them: the handler closes the queue, joins the threads that were started and rethrows, while these
are anywhere in `worker_loop`.  To the `k` workers this looks like a pool of `k` workers whose one client
calls `shutdown` (`pool_run`), so the handler ends, each thread is joined once, and none is left when the
exception leaves the constructor (`constructor_failure`).
-/

namespace TaskEngine

open Interleaving

namespace ThreadPool

variable {k : ℕ}

/-! ## The constructor -/

section Model

/-- The members while the constructor runs, with the length of `threads_`.  The threads that start are
the first `k`, and none of them refers to the buffers from `k` on. -/
structure Construction (k : ℕ) where
  created : ℕ
  pool : ThreadPool k Unit

/-- In the loop, in the handler inside `queue_.close()` or `join_workers()`, or out by the exception. -/
inductive ConstructorPc
  | emplacing
  | closing (p : BlockingQueue.ClosePc)
  | joining (p : JoinPc)
  | threw

/-- The places of the workers and of the constructor. -/
@[reducible] def Construction.Pc : Thread k Unit → Type
  | .inl _ => WorkerPc
  | .inr _ => ConstructorPc

inductive ConstructorEvent (k : ℕ)
  | pool (ev : Event k)
  | emplace (w : ℕ)
  | caught
  | rethrow
  deriving DecidableEq

/-- A step of the constructor of a pool of `worker_count`. -/
inductive ConstructorRule (worker_count : ℕ) :
    Construction k → ConstructorPc → ConstructorEvent k → Construction k → ConstructorPc → Prop
  /-- `threads_.emplace_back`, which starts the thread -/
  | emplace {m} (hk : m.created < k) :
      ConstructorRule worker_count m .emplacing (.emplace m.created) { m with created := m.created + 1 }
        .emplacing
  /-- the same, and starting the thread throws -/
  | caught {m} (hk : m.created = k) (hn : k < worker_count) :
      ConstructorRule worker_count m .emplacing .caught m (.closing .enter)
  | close {m : Construction k} {p ev q p'} (h : BlockingQueue.CloseRule m.pool.queue p ev q p') :
      ConstructorRule worker_count m (.closing p) (.pool (.queue ev))
        { m with pool := { m.pool with queue := q } } (.closing p')
  | closed {m} : ConstructorRule worker_count m (.closing .done) (.pool (.close .shutdown)) m (.joining .lock)
  | join {m : Construction k} {p ev pool p'} (h : JoinRule () m.pool p ev pool p') :
      ConstructorRule worker_count m (.joining p) (.pool ev) { m with pool := pool } (.joining p')
  | rethrow {m} : ConstructorRule worker_count m (.joining .done) .rethrow m .threw

/-- A step of a worker whose thread was started. -/
inductive StartedRule (w : Fin k) :
    Construction k → WorkerPc → ConstructorEvent k → Construction k → WorkerPc → Prop
  | pool {m : Construction k} {p ev pool p'} (hw : w < m.created) (h : WorkerRule w m.pool p ev pool p') :
      StartedRule w m p (.pool ev) { m with pool := pool } p'

/-- The constructor among the workers that it has started. -/
def constructing (worker_count : ℕ) : Rules (Construction k) (ConstructorEvent k) (Construction.Pc (k := k))
  | .inl w => StartedRule w
  | .inr _ => ConstructorRule worker_count

/-- A configuration of the constructor and its workers. -/
abbrev Construction.System (k : ℕ) := Config (Construction k) (Construction.Pc (k := k))

/-- Past the initialiser list: the queue and the buffers are there, and no thread is. -/
def Construction.init : Construction.System k where
  shared := ⟨0, fresh⟩
  pc
    | .inl _ => .starting
    | .inr _ => .emplacing

/-- A step of the constructor, computed. -/
def ConstructorPc.act (worker_count : ℕ) (m : Construction k) :
    ConstructorPc → Option (ConstructorEvent k × Construction k × ConstructorPc)
  | .emplacing =>
    if m.created < k then some (.emplace m.created, { m with created := m.created + 1 }, .emplacing)
    else if m.created = k ∧ k < worker_count then some (.caught, m, .closing .enter) else none
  | .closing .done => some (.pool (.close .shutdown), m, .joining .lock)
  | .closing p => (p.act m.pool.queue).map fun r =>
      (.pool (.queue r.1), { m with pool := { m.pool with queue := r.2.1 } }, .closing r.2.2)
  | .joining .done => some (.rethrow, m, .threw)
  | .joining p => (p.act () m.pool).map fun r => (.pool r.1, { m with pool := r.2.1 }, .joining r.2.2)
  | .threw => none

/-- The step that a thread's choice leads to. -/
def Construction.act (worker_count : ℕ) : (t : Thread k Unit) → Act k Unit → Construction k →
    Construction.Pc t → Option (ConstructorEvent k × Construction k × Construction.Pc t)
  | .inl w, a, m, p =>
    if w < m.created then
      (WorkerPc.act w m.pool p a).map fun r => (.pool r.1, { m with pool := r.2.1 }, r.2.2)
    else none
  | .inr _, _, m, p => ConstructorPc.act worker_count m p

theorem ConstructorPc.act_sound {worker_count : ℕ} {m m' : Construction k} {p p' : ConstructorPc}
    {ev : ConstructorEvent k} (h : p.act worker_count m = some (ev, m', p')) :
    ConstructorRule worker_count m p ev m' p' := by
  unfold ConstructorPc.act at h
  split at h
  · split_ifs at h with hk hn
    · cases h; exact .emplace hk
    · cases h; exact .caught hn.1 hn.2
  · cases h; exact .closed
  · obtain ⟨⟨ev, q, p'⟩, hp, he⟩ := Option.map_eq_some_iff.mp h
    cases he
    exact .close (BlockingQueue.ClosePc.act_sound hp)
  · cases h; exact .rethrow
  · obtain ⟨⟨ev, pool, p'⟩, hp, he⟩ := Option.map_eq_some_iff.mp h
    cases he
    exact .join (JoinPc.act_sound hp)
  · cases h

theorem Construction.act_sound {worker_count : ℕ} (t : Thread k Unit) (a : Act k Unit) (m : Construction k)
    (p : Construction.Pc t) (ev : ConstructorEvent k) (m' : Construction k) (p' : Construction.Pc t)
    (h : Construction.act worker_count t a m p = some (ev, m', p')) :
    constructing worker_count t m p ev m' p' := by
  rcases t with w | i
  · obtain ⟨hw, h⟩ := Option.ite_none_right_eq_some.mp h
    obtain ⟨⟨ev, pool, p'⟩, hp, he⟩ := Option.map_eq_some_iff.mp h
    cases he
    exact .pool hw (WorkerPc.act_sound hp)
  · exact ConstructorPc.act_sound h

end Model

/-! ## What the workers see -/

section View

/-- The constructor as a client: until it has closed the queue it is a `shutdown` that has not begun. -/
def ConstructorPc.view : ConstructorPc → ClientPc
  | .emplacing => .closing .shutdown .enter
  | .closing p => .closing .shutdown p
  | .joining p => .joining (.close .shutdown) p
  | .threw => .idle

def shutdownPlace : (t : Thread k Unit) → Construction.Pc t → Pc t
  | .inl _, p => p
  | .inr _, p => ConstructorPc.view p

def ConstructorEvent.view : ConstructorEvent k → Option (Event k)
  | .pool ev => some ev
  | .rethrow => some (.leave (.close .shutdown))
  | _ => none

theorem constructing_view {worker_count : ℕ} (capacity : ℕ) {t : Thread k Unit} {m m' : Construction k}
    {p p' : Construction.Pc t} {ev : ConstructorEvent k} (h : constructing worker_count t m p ev m' p') :
    ev.view.elim (m'.pool = m.pool ∧ shutdownPlace t p' = shutdownPlace t p) fun ev' =>
      rules capacity t m.pool (shutdownPlace t p) ev' m'.pool (shutdownPlace t p') := by
  rcases t with w | i
  · cases (h : StartedRule w _ _ _ _ _) with
    | pool _ h => exact h
  · cases (h : ConstructorRule worker_count _ _ _ _ _) with
    | emplace _ => exact ⟨rfl, rfl⟩
    | caught _ _ => exact ⟨rfl, rfl⟩
    | close h => exact .close h
    | closed => exact .closed
    | join h => exact .join h
    | rethrow => exact .leave

/-- **The constructor's workers are those of a pool** whose one client shuts it down. -/
def toShutdown (worker_count capacity : ℕ) :
    Projection (constructing (k := k) worker_count) (rules (W := k) (ι := Unit) capacity) where
  mem m := m.pool
  place := shutdownPlace
  event := ConstructorEvent.view
  seen _ _ _ _ _ _ _ h he := by
    have := constructing_view capacity h
    rw [he] at this
    exact this
  unseen _ _ _ _ _ _ h he := by
    have := constructing_view 0 h
    rw [he] at this
    exact this

variable {worker_count capacity : ℕ} {c c' : Construction.System k}
  {log log' : List (Thread k Unit × ConstructorEvent k)}

variable (capacity) in
theorem shutdown_run (h : Run (constructing worker_count) Construction.init log c) :
    Run (rules capacity) init ((.inr (), .shutdown .shutdown) :: (toShutdown worker_count capacity).log log)
      ((toShutdown worker_count capacity).config c) := by
  have hcall : Step (rules capacity) init (.inr (), .shutdown .shutdown)
      ((toShutdown (k := k) worker_count capacity).config Construction.init) := by
    have hstart : (toShutdown (k := k) worker_count capacity).config Construction.init =
        ⟨fresh, Function.update init.pc (.inr ()) (.closing .shutdown .enter)⟩ := by
      simp only [Projection.config, toShutdown, Construction.init, Config.mk.injEq, true_and]
      funext t
      rcases t with w | i <;> rfl
    rw [hstart]
    exact .mk (show ClientRule capacity () fresh .idle (.shutdown .shutdown) fresh _ from .shutdown rfl)
  exact (Run.single hcall).trans ((toShutdown worker_count capacity).run h)

/-- The loop is left only when all `k` threads have been started. -/
theorem created_eq (h : Run (constructing worker_count) Construction.init log c) :
    c.shared.created ≤ k ∧ (c.pc (.inr ()) = .emplacing ∨ c.shared.created = k) := by
  refine h.preserves (P := fun d => d.shared.created ≤ k ∧
    (d.pc (.inr ()) = .emplacing ∨ d.shared.created = k)) ?_ ⟨Nat.zero_le k, .inl rfl⟩
  rintro d t ev m p ⟨hle, hd⟩ hr
  rcases t with w | i
  · cases (hr : StartedRule w _ _ _ _ _) with
    | pool _ _ => exact ⟨hle, by simpa using hd⟩
  · cases i
    generalize d.pc (.inr ()) = q at hr hd
    cases (hr : ConstructorRule worker_count _ _ _ _ _) with
    | emplace hk => exact ⟨hk, .inl (by simp)⟩
    | caught hk _ => exact ⟨hle, .inr hk⟩
    | _ => exact ⟨hle, .inr (hd.resolve_left (by simp))⟩

/-- The exception has left the constructor only through the end of its handler. -/
theorem rethrow_of_threw (h : Run (constructing worker_count) Construction.init log c)
    (hp : c.pc (.inr ()) = .threw) : (.inr (), .rethrow) ∈ log := by
  revert hp
  refine h.induct (I := fun log d => d.pc (.inr ()) = .threw → (.inr (), .rethrow) ∈ log)
    (fun h => by cases h) ?_
  intro log d t ev m p _ ih hr hp
  rcases t with w | i
  · exact List.mem_append_left _ (ih (by simpa using hp))
  · cases i
    obtain rfl : p = .threw := by simpa using hp
    generalize d.pc (.inr ()) = q at hr
    cases (hr : ConstructorRule worker_count _ _ _ _ _)
    exact List.mem_append_right _ (List.mem_singleton.mpr rfl)

end View

/-! ## The handler ends -/

section Handler

variable {worker_count : ℕ} {c c' : Construction.System k}
  {log log' : List (Thread k Unit × ConstructorEvent k)}

def ConstructorPc.weight (k : ℕ) : ConstructorPc → ℕ
  | .emplacing => k + 9
  | .closing p => k + 5 + p.weight
  | .joining p => p.weight k
  | .threw => 0

/-- What is left to do once the queue is closed. -/
def unwinding (worker_count : ℕ) : Measure (constructing (k := k) worker_count) where
  Good m := m.pool.queue.closed = true
  ok _ := True
  weight
    | .inl _, p => WorkerPc.weight p
    | .inr _, p => ConstructorPc.weight k p
  store m := m.pool.queue.weight + (k - m.created)
  good t _ _ _ _ _ hc h := by
    have hv := constructing_view 0 h
    generalize ConstructorEvent.view _ = ev at hv
    cases ev with
    | none => rw [hv.1]; exact hc
    | some ev => exact (rule_queue hv).1 hc
  lower t _ _ _ _ _ hc _ h := by
    rcases t with w | i
    · cases (h : StartedRule w _ _ _ _ _) with
      | pool _ h =>
        have := h.lower hc
        simp only
        omega
    · cases (h : ConstructorRule worker_count _ _ _ _ _) with
      | emplace hk => simp only; omega
      | caught _ _ => simp [ConstructorPc.weight, BlockingQueue.ClosePc.weight]
      | close h =>
        have := h.lower hc
        simp only [ConstructorPc.weight]
        omega
      | closed => simp [ConstructorPc.weight, JoinPc.weight, BlockingQueue.ClosePc.weight]
      | join h =>
        have := h.lower
        simp only [ConstructorPc.weight, h.toQueue.2]
        omega
      | rethrow => simp [ConstructorPc.weight, JoinPc.weight]

/-- Something can be done that is not a spurious wake-up. -/
def Construction.CanGoOn (worker_count : ℕ) (c : Construction.System k) : Prop :=
  ∃ l d, Step (constructing worker_count) c l d ∧ l.2 ≠ .pool (.queue .spurious)

theorem Construction.step {ev : ConstructorEvent k} {m : Construction k} {p p' : ConstructorPc}
    (hp : c.pc (.inr ()) = p) (hr : ConstructorRule worker_count c.shared p ev m p') :
    Step (constructing worker_count) c (.inr (), ev) ⟨m, Function.update c.pc (.inr ()) p'⟩ := by
  subst hp
  exact .mk (show constructing worker_count (.inr ()) _ _ _ _ _ from hr)

/-- The constructor goes on by itself up to the critical section of `close`. -/
theorem constructor_canGoOn (hn : k < worker_count)
    (h : Run (constructing worker_count) Construction.init log c)
    (hp : c.pc (.inr ()) = .emplacing ∨ c.pc (.inr ()) = .closing .enter) :
    ∃ ev d, Step (constructing worker_count) c (.inr (), ev) d ∧ ev ≠ .pool (.queue .spurious) := by
  rcases hp with hp | hp
  · rcases (created_eq h).1.lt_or_eq with hk | hk
    · exact ⟨_, _, Construction.step hp (.emplace hk), by simp⟩
    · exact ⟨_, _, Construction.step hp (.caught hk hn), by simp⟩
  · exact ⟨_, _, Construction.step hp (.close (.enter rfl)), fun he =>
      BlockingQueue.closeSection_ne_spurious (Event.queue.inj (ConstructorEvent.pool.inj he))⟩

theorem joined_of_threw (h : Run (constructing worker_count) Construction.init log c)
    (hp : c.pc (.inr ()) = .threw) : c.shared.pool.joined = true := by
  refine joined_of_returned (shutdown_run 0 h)
    ⟨(.inr (), .leave (.close .shutdown)), List.mem_cons_of_mem _ ?_, _, rfl⟩
  exact List.mem_filterMap.mpr ⟨_, rethrow_of_threw h hp, rfl⟩

/-- Past the critical section the queue is closed, and all `k` threads have been started. -/
theorem closed_of_handler (h : Run (constructing worker_count) Construction.init log c)
    (hp : ¬ (c.pc (.inr ()) = .emplacing ∨ c.pc (.inr ()) = .closing .enter)) :
    c.shared.pool.queue.closed = true ∧ c.shared.created = k := by
  rw [not_or] at hp
  refine ⟨?_, (created_eq h).2.resolve_left hp.1⟩
  by_cases ht : c.pc (.inr ()) = .threw
  · exact (joins (shutdown_run 0 h)).1.joined_closed (joined_of_threw h ht)
  · have hat := (joins (shutdown_run 0 h)).2 (.inr ())
    refine ClientPc.Joins.closed hat ?_
    show ClientPc.closes (ConstructorPc.view (c.pc (.inr ()))) = true
    generalize c.pc (.inr ()) = q at hp ht
    rcases q with _ | (_ | _ | _ | _) | _ | _
    · exact absurd rfl hp.1
    · exact absurd rfl hp.2
    all_goals first | rfl | exact absurd rfl ht

/-- **The handler ends**: until the exception has left the constructor something can be done. -/
theorem handler_canGoOn (hn : k < worker_count)
    (h : Run (constructing worker_count) Construction.init log c) (hp : c.pc (.inr ()) ≠ .threw) :
    Construction.CanGoOn worker_count c := by
  by_cases hearly : c.pc (.inr ()) = .emplacing ∨ c.pc (.inr ()) = .closing .enter
  · obtain ⟨ev, d, hs, hev⟩ := constructor_canGoOn hn h hearly
    exact ⟨_, d, hs, hev⟩
  · obtain ⟨hc, hk⟩ := closed_of_handler h hearly
    -- past the critical section the pool sees a shutdown in progress
    have hbusy : ((toShutdown worker_count 0).config c).pc (.inr ()) ≠ .idle := by
      show ConstructorPc.view (c.pc (.inr ())) ≠ .idle
      generalize c.pc (.inr ()) = q at hp
      cases q <;> simp [ConstructorPc.view] at hp ⊢
    obtain ⟨⟨t, ev⟩, d, hs, hev, hcall⟩ := progress (shutdown_run 0 h) hc (.inr ⟨(), hbusy⟩)
    cases hs with
    | mk hr =>
      rcases t with w | i
      · exact ⟨(.inl w, .pool ev), _, .mk (show StartedRule w c.shared (c.pc (.inl w)) _ _ _ from
          .pool (by rw [hk]; exact w.isLt) hr), by simpa using hev⟩
      · cases i
        have hr' : ClientRule 0 () c.shared.pool (ConstructorPc.view (c.pc (.inr ()))) ev _ _ := hr
        generalize hq : c.pc (.inr ()) = q at hr' hp hearly
        cases q with
        | emplacing => exact absurd (.inl rfl) hearly
        | threw => exact absurd rfl hp
        | closing p =>
          cases hr' with
          | close h => exact ⟨_, _, Construction.step hq (.close h), by simpa using hev⟩
          | closed => exact ⟨_, _, Construction.step hq .closed, by simp⟩
        | joining p =>
          cases hr' with
          | join h => exact ⟨_, _, Construction.step hq (.join h), by simpa using hev⟩
          | leave => exact ⟨_, _, Construction.step hq .rethrow, by simp⟩

theorem no_step_of_threw (h : Run (constructing worker_count) Construction.init log c)
    (hp : c.pc (.inr ()) = .threw) (l : Thread k Unit × ConstructorEvent k) (d : Construction.System k) :
    ¬ Step (constructing worker_count) c l d := by
  rintro ⟨hr⟩
  rename_i t ev m p
  rcases t with w | i
  · cases (hr : StartedRule w _ _ _ _ _) with
    | pool _ hr =>
      rw [show c.pc (.inl w) = .exited from
        (finished_of_joined (shutdown_run 0 h) (joined_of_threw h hp) w).2] at hr
      cases hr
  · cases i
    rw [hp] at hr
    cases (hr : ConstructorRule worker_count _ _ _ _ _)

/-- The threads joined, in the order of their joins. -/
def joinedThreads (log : List (Thread k Unit × ConstructorEvent k)) : List (Fin k) :=
  collect (fun ev => ev.view.elim [] Event.joining) log

theorem joinedThreads_eq (log : List (Thread k Unit × ConstructorEvent k)) :
    joinings ((.inr (), .shutdown .shutdown) :: (toShutdown worker_count 0).log log) = joinedThreads log := by
  rw [joinings, collect_cons, joinedThreads,
    (toShutdown worker_count 0).collect_log (f := fun ev => ev.view.elim [] Event.joining) fun _ => rfl]
  rfl

/-- **A constructor that fails leaves no worker behind.**  With `k` threads started and the next one
failing to start: until the exception has left the constructor something can be done, and up to the
critical section of `close` by the constructor itself; from there on the runs are bounded, and where one
cannot go on the exception has left; no thread is joined twice; and when it has left, each of the `k`
threads has been joined, has returned from `worker_loop`, and no step of any of them is possible. -/
theorem constructor_failure (hn : k < worker_count)
    (h : Run (constructing worker_count) Construction.init log c) :
    (c.pc (.inr ()) ≠ .threw → Construction.CanGoOn worker_count c) ∧
    (c.pc (.inr ()) = .emplacing ∨ c.pc (.inr ()) = .closing .enter →
      ∃ ev d, Step (constructing worker_count) c (.inr (), ev) d ∧ ev ≠ .pool (.queue .spurious)) ∧
    (¬ (c.pc (.inr ()) = .emplacing ∨ c.pc (.inr ()) = .closing .enter) → ∀ log' c',
      Run (constructing worker_count) c log' c' → log'.length ≤ (unwinding worker_count).total c ∧
        ((∀ l d, ¬ Step (constructing worker_count) c' l d) → c'.pc (.inr ()) = .threw)) ∧
    (∀ w, (joinedThreads log).count w ≤ 1) ∧
    (c.pc (.inr ()) = .threw → (∀ w, (joinedThreads log).count w = 1) ∧ (∀ w, c.pc (.inl w) = .exited) ∧
      ∀ log' c', Run (constructing worker_count) c log' c' → log' = []) := by
  have hpool := shutdown_run 0 h
  refine ⟨handler_canGoOn hn h, constructor_canGoOn hn h, fun hlate log' c' h' => ⟨?_, fun hmax => ?_⟩,
    fun w => ?_, fun hp => ⟨fun w => ?_, fun w => ?_, ?_⟩⟩
  · have := (unwinding worker_count).length_le h' (closed_of_handler h hlate).1 fun _ _ => trivial
    omega
  · by_contra hne
    obtain ⟨l, d, hs, -⟩ := handler_canGoOn hn (h.trans h') hne
    exact hmax l d hs
  · rw [← joinedThreads_eq]
    exact (joinings_count hpool w).le.trans' le_self_add
  · rw [← joinedThreads_eq]
    exact joinings_of_joined hpool (joined_of_threw h hp) w
  · exact (finished_of_joined hpool (joined_of_threw h hp) w).2
  · exact fun log' c' h' => h'.stuck (no_step_of_threw h hp)

/-- A schedule for a constructor of two workers: it starts worker 0, which blocks in `pop`; the next thread
fails to start; the handler closes the queue, joins the worker, which has exited, and rethrows. -/
def failingSchedule : List (Thread 1 Unit × Act 1 Unit) :=
  [(.inr (), .go), (.inl 0, .go), (.inl 0, .queue .lock), (.inr (), .go), (.inr (), .go), (.inr (), .go),
   (.inr (), .go), (.inr (), .go), (.inl 0, .queue .lock), (.inl 0, .go), (.inr (), .go), (.inr (), .go),
   (.inr (), .go), (.inr (), .go)]

/-- Its log, and the configuration in which the exception has left the constructor. -/
def failingRun : List (Thread 1 Unit × ConstructorEvent 1) × Construction.System 1 :=
  (play (Construction.act 2) failingSchedule Construction.init).get rfl

/-- The worker has been joined once and has returned. -/
theorem constructor_failure_failingRun :
    (joinedThreads failingRun.1).count 0 = 1 ∧ failingRun.2.pc (.inl 0) = .exited := by
  have hall := (constructor_failure (by decide)
    (play_run Construction.act_sound rfl :
      Run (constructing 2) Construction.init failingRun.1 failingRun.2)).2.2.2.2 rfl
  exact ⟨hall.1 0, hall.2.1 0⟩

end Handler

end ThreadPool

end TaskEngine
