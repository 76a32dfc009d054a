import TaskEngine.Metrics.RunSummary
import TaskEngine.Pool.Records

/-!
# TaskEngine.Engine.Model — the engine: ids and summaries over the pool

`task_engine.cpp`.  `submit` takes an id from `next_id_` and goes on to the pool; `shutdown` and
`shutdown_now` are the pool's.  `summary` evaluates its two arguments in either order: the load of
`rejected_`, and `collect_samples`, which reads `joined_` under `shutdown_mutex_` and then merges the
buffers.  Each of these is a step of its own.
-/

namespace TaskEngine

open Interleaving

/-- The members of a `TaskEngine`. -/
structure Engine (W : ℕ) (ι : Type) where
  next_id : TaskId
  pool : ThreadPool W ι

namespace Engine

variable {W : ℕ} {ι : Type}

/-! ## Places and events -/

/-- Inside `summary`, with the rejection count where that argument was evaluated first. -/
inductive SummaryPc
  | enter (rejected : Option ℕ)
  | collecting (rejected : Option ℕ)
  | collected (samples : List Sample)
  | done (result : Except Exception RunSummary)

/-- A client: in a call of the pool or idle, in `submit` past the id, or in `summary`. -/
inductive ClientPc
  | pool (p : ThreadPool.ClientPc)
  | assigned (id : TaskId) (task : Task)
  | summing (p : SummaryPc)

/-- The places of a thread. -/
@[reducible] def Pc : Thread W ι → Type
  | .inl _ => ThreadPool.WorkerPc
  | .inr _ => ClientPc

/-- What a step did. -/
inductive Event (W : ℕ)
  | pool (ev : ThreadPool.Event W)
  | assign (id : TaskId) (task : Task)
  | summary
  | load (rejected : ℕ)
  | check (joined : Bool)
  | collect (samples : List Sample)
  | summarized (result : Except Exception RunSummary)

/-! ## The steps -/

section Rules

/-- A step inside `summary`; none of them writes. -/
inductive SummaryRule (m : Engine W ι) : SummaryPc → Event W → SummaryPc → Prop
  | load_first :
      SummaryRule m (.enter none) (.load (ThreadPool.rejected_count m.pool))
        (.enter (some (ThreadPool.rejected_count m.pool)))
  | check {rejected} (hm : m.pool.shutdown_mutex = none) (hj : m.pool.joined = true) :
      SummaryRule m (.enter rejected) (.check true) (.collecting rejected)
  | throws {rejected e} (hm : m.pool.shutdown_mutex = none) (hj : m.pool.joined = false)
      (he : ThreadPool.collect_samples m.pool = .error e) :
      SummaryRule m (.enter rejected) (.check false) (.done (.error e))
  | collect : SummaryRule m (.collecting none) (.collect m.pool.merged) (.collected m.pool.merged)
  | collect_last {rejected} :
      SummaryRule m (.collecting (some rejected)) (.collect m.pool.merged)
        (.done (.ok (summarize m.pool.merged rejected)))
  | load {samples} :
      SummaryRule m (.collected samples) (.load (ThreadPool.rejected_count m.pool))
        (.done (.ok (summarize samples (ThreadPool.rejected_count m.pool))))

variable [DecidableEq ι]

/-- A step of client `i`. -/
inductive ClientRule (capacity : ℕ) (i : ι) :
    Engine W ι → ClientPc → Event W → Engine W ι → ClientPc → Prop
  /-- `submit(task)`: `next_id_.fetch_add(1)` -/
  | assign {m} (task : Task) (hl : m.pool.lifetime = .alive) :
      ClientRule capacity i m (.pool .idle) (.assign m.next_id task)
        { m with next_id := (m.next_id + 1) % 2 ^ 64 } (.assigned m.next_id task)
  /-- the envelope is built and handed to `pool_.submit` -/
  | submit {m : Engine W ι} {id task e pool p} (hid : e.id = id) (htask : e.task = task)
      (h : ThreadPool.ClientRule capacity i m.pool .idle (.submit e) pool p) :
      ClientRule capacity i m (.assigned id task) (.pool (.submit e)) { m with pool := pool } (.pool p)
  /-- the call or the step of any other function of the pool -/
  | pool {m : Engine W ι} {p ev pool p'} (hev : ev.submitted = [])
      (h : ThreadPool.ClientRule capacity i m.pool p ev pool p') :
      ClientRule capacity i m (.pool p) (.pool ev) { m with pool := pool } (.pool p')
  | summary {m} (hl : m.pool.lifetime = .alive) :
      ClientRule capacity i m (.pool .idle) .summary m (.summing (.enter none))
  | sum {m p ev p'} (h : SummaryRule m p ev p') :
      ClientRule capacity i m (.summing p) ev m (.summing p')
  | summarized {m result} :
      ClientRule capacity i m (.summing (.done result)) (.summarized result) m (.pool .idle)

/-- A step of worker `w`: one of the pool. -/
inductive WorkerRule (w : Fin W) :
    Engine W ι → ThreadPool.WorkerPc → Event W → Engine W ι → ThreadPool.WorkerPc → Prop
  | pool {m : Engine W ι} {p ev pool p'} (h : ThreadPool.WorkerRule w m.pool p ev pool p') :
      WorkerRule w m p (.pool ev) { m with pool := pool } p'

/-- The engine as an interleaving of its workers and its clients. -/
def rules (capacity : ℕ) : Rules (Engine W ι) (Event W) (Pc (W := W) (ι := ι))
  | .inl w => WorkerRule w
  | .inr i => ClientRule capacity i

end Rules

/-- A configuration of the engine. -/
abbrev System (W : ℕ) (ι : Type) := Config (Engine W ι) (Pc (W := W) (ι := ι))

/-- A new engine with no client inside. -/
def init : System W ι where
  shared := ⟨1, ThreadPool.fresh⟩
  pc
    | .inl _ => .starting
    | .inr _ => .pool .idle

/-- The constructor: that of the pool, with its checks. -/
def construct (worker_count queue_capacity : ℕ) : Except Exception (System worker_count ι) :=
  (ThreadPool.construct (ι := ι) worker_count queue_capacity).map fun _ => init

/-! ## Computing the steps -/

section Act

/-- The choice of a thread of the engine: one for the pool, a call, or the next step of a call. -/
inductive Act (W : ℕ) (ι : Type)
  | pool (a : ThreadPool.Act W ι)
  | assign (task : Task)
  | submit (submitted : TimePoint)
  | summary
  | load
  | go

/-- `load` evaluates the rejection count first, where there is a choice. -/
def SummaryPc.act (m : Engine W ι) : SummaryPc → Act W ι → Option (Event W × SummaryPc)
  | .enter none, .load =>
    some (.load (ThreadPool.rejected_count m.pool), .enter (some (ThreadPool.rejected_count m.pool)))
  | .enter rejected, .go =>
    if m.pool.shutdown_mutex = none then
      match ThreadPool.collect_samples m.pool with
      | .ok _ => some (.check true, .collecting rejected)
      | .error e => some (.check false, .done (.error e))
    else none
  | .collecting none, .go => some (.collect m.pool.merged, .collected m.pool.merged)
  | .collecting (some rejected), .go =>
    some (.collect m.pool.merged, .done (.ok (summarize m.pool.merged rejected)))
  | .collected samples, .go =>
    some (.load (ThreadPool.rejected_count m.pool),
      .done (.ok (summarize samples (ThreadPool.rejected_count m.pool))))
  | _, _ => none

variable [DecidableEq ι]

/-- A step of the pool, other than the call of `submit`. -/
def poolAct (capacity : ℕ) (i : ι) (m : Engine W ι) (p : ThreadPool.ClientPc)
    (a : ThreadPool.Act W ι) : Option (Event W × Engine W ι × ClientPc) :=
  match ThreadPool.ClientPc.act capacity i m.pool p a with
  | some (ev, pool, p') =>
    if ev.submitted = [] then some (.pool ev, { m with pool := pool }, .pool p') else none
  | none => none

def ClientPc.act (capacity : ℕ) (i : ι) (m : Engine W ι) :
    ClientPc → Act W ι → Option (Event W × Engine W ι × ClientPc)
  | .pool .idle, .assign task =>
    if m.pool.lifetime = .alive then
      some (.assign m.next_id task, { m with next_id := (m.next_id + 1) % 2 ^ 64 },
        .assigned m.next_id task)
    else none
  | .assigned id task, .submit submitted =>
    (ThreadPool.ClientPc.act capacity i m.pool .idle (.submit id task submitted)).map fun r =>
      (.pool r.1, { m with pool := r.2.1 }, .pool r.2.2)
  | .pool .idle, .summary =>
    if m.pool.lifetime = .alive then some (.summary, m, .summing (.enter none)) else none
  | .pool p, .pool a => poolAct capacity i m p a
  | .summing (.done result), .go => some (.summarized result, m, .pool .idle)
  | .summing p, a => (p.act m a).map fun r => (r.1, m, .summing r.2)
  | _, _ => none

/-- The step that a thread's choice leads to. -/
def act (capacity : ℕ) : (t : Thread W ι) → Act W ι → Engine W ι → Pc t →
    Option (Event W × Engine W ι × Pc t)
  | .inl w, .pool a, m, p =>
    (ThreadPool.WorkerPc.act w m.pool p a).map fun r => (.pool r.1, { m with pool := r.2.1 }, r.2.2)
  | .inl _, _, _, _ => none
  | .inr i, a, m, p => ClientPc.act capacity i m p a

variable {capacity : ℕ} {m m' : Engine W ι} {ev : Event W}

omit [DecidableEq ι] in
theorem SummaryPc.act_sound {p p' : SummaryPc} {a : Act W ι} (h : p.act m a = some (ev, p')) :
    SummaryRule m p ev p' := by
  unfold SummaryPc.act at h
  split at h
  · cases h; exact .load_first
  · split_ifs at h with hm
    cases hj : m.pool.joined with
    | true =>
      simp only [ThreadPool.collect_samples, hj, if_true, Option.some.injEq, Prod.mk.injEq] at h
      obtain ⟨rfl, rfl⟩ := h
      exact .check hm hj
    | false =>
      cases he : ThreadPool.collect_samples m.pool with
      | ok samples => simp [ThreadPool.collect_samples, hj] at he
      | error e =>
        simp only [he, Option.some.injEq, Prod.mk.injEq] at h
        obtain ⟨rfl, rfl⟩ := h
        exact .throws hm hj he
  · cases h; exact .collect
  · cases h; exact .collect_last
  · cases h; exact .load
  · cases h

theorem poolAct_sound {i : ι} {p : ThreadPool.ClientPc} {p' : ClientPc} {a : ThreadPool.Act W ι}
    (h : poolAct capacity i m p a = some (ev, m', p')) :
    ClientRule capacity i m (.pool p) ev m' p' := by
  unfold poolAct at h
  split at h
  · next ev pool p' ha =>
    split_ifs at h with hev
    cases h
    exact .pool hev (ThreadPool.ClientPc.act_sound ha)
  · cases h

theorem ClientPc.act_sound {i : ι} {p p' : ClientPc} {a : Act W ι}
    (h : p.act capacity i m a = some (ev, m', p')) : ClientRule capacity i m p ev m' p' := by
  unfold ClientPc.act at h
  split at h
  · split_ifs at h with hl; cases h; exact .assign _ hl
  · next id task submitted =>
    obtain ⟨⟨ev, pool, p'⟩, hp, he⟩ := Option.map_eq_some_iff.mp h
    cases he
    have hr := ThreadPool.ClientPc.act_sound hp
    simp only [ThreadPool.ClientPc.act, Option.ite_none_right_eq_some, Option.some.injEq,
      Prod.mk.injEq] at hp
    obtain ⟨-, rfl, rfl, rfl⟩ := hp
    exact .submit rfl rfl hr
  · split_ifs at h with hl; cases h; exact .summary hl
  · exact poolAct_sound h
  · cases h; exact .summarized
  · obtain ⟨⟨ev, p'⟩, hp, he⟩ := Option.map_eq_some_iff.mp h
    cases he
    exact .sum (SummaryPc.act_sound hp)
  · cases h

theorem act_sound (t : Thread W ι) (a : Act W ι) (m : Engine W ι) (p : Pc t) (ev : Event W)
    (m' : Engine W ι) (p' : Pc t) (h : act capacity t a m p = some (ev, m', p')) :
    rules capacity t m p ev m' p' := by
  rcases t with w | i
  · cases a with
    | pool a =>
      obtain ⟨⟨ev, pool, p'⟩, hp, he⟩ := Option.map_eq_some_iff.mp h
      cases he
      exact .pool (ThreadPool.WorkerPc.act_sound hp)
    | _ => cases h
  · exact ClientPc.act_sound h

end Act

/-! ## Queries -/

/-- `summary`, with nothing happening in between. -/
def summary (m : Engine W ι) : Except Exception RunSummary :=
  (ThreadPool.collect_samples m.pool).map fun samples =>
    summarize samples (ThreadPool.rejected_count m.pool)

/-- What a call of `summary` has so far is what it would have now. -/
def SummaryPc.Agrees (m : Engine W ι) : SummaryPc → Prop
  | .enter rejected => ∀ n ∈ rejected, n = ThreadPool.rejected_count m.pool
  | .collecting rejected =>
    m.pool.joined = true ∧ ∀ n ∈ rejected, n = ThreadPool.rejected_count m.pool
  | .collected samples => m.pool.joined = true ∧ samples = m.pool.merged
  | .done result => result = summary m

/-- Over a memory that stays, `summary` is computed by its steps, in either order. -/
theorem SummaryRule.agrees {m : Engine W ι} {p p' : SummaryPc} {ev : Event W}
    (h : SummaryRule m p ev p') (hp : p.Agrees m) : p'.Agrees m := by
  cases h with
  | load_first => simp [SummaryPc.Agrees]
  | check _ hj => exact ⟨hj, hp⟩
  | throws _ _ he => simp [SummaryPc.Agrees, summary, he, Except.map]
  | collect => exact ⟨hp.1, rfl⟩
  | collect_last => simp [SummaryPc.Agrees, summary, ThreadPool.collect_samples, hp.1, hp.2, Except.map]
  | load => simp [SummaryPc.Agrees, summary, ThreadPool.collect_samples, hp.1, hp.2, Except.map]

/-- `next_id_.load() - 1`. -/
def submitted_count (m : Engine W ι) : TaskId := (m.next_id + (2 ^ 64 - 1)) % 2 ^ 64

/-! ## The engine's pool -/

section Pool

/-- Where a client stands with respect to the pool. -/
def ClientPc.place : ClientPc → ThreadPool.ClientPc
  | .pool p => p
  | _ => .idle

def place : (t : Thread W ι) → Pc t → ThreadPool.Pc t
  | .inl _, p => p
  | .inr _, p => ClientPc.place p

/-- What a step of the engine is for the pool. -/
def Event.pool? : Event W → Option (ThreadPool.Event W)
  | .pool ev => some ev
  | _ => none

variable [DecidableEq ι]

/-- One step of the engine, seen through its pool. -/
theorem rule_toPool {capacity : ℕ} {t : Thread W ι} {m m' : Engine W ι} {p p' : Pc t} {ev : Event W}
    (h : rules capacity t m p ev m' p') :
    ev.pool?.elim (m'.pool = m.pool ∧ place t p' = place t p) fun ev' =>
      ThreadPool.rules capacity t m.pool (place t p) ev' m'.pool (place t p') := by
  rcases t with w | i
  · cases (h : WorkerRule w _ _ _ _ _) with
    | pool h => exact h
  · cases (h : ClientRule capacity i _ _ _ _ _) with
    | assign _ _ => exact ⟨rfl, rfl⟩
    | submit _ _ h => exact h
    | pool _ h => exact h
    | summary _ => exact ⟨rfl, rfl⟩
    | sum h => cases h <;> exact ⟨rfl, rfl⟩
    | summarized => exact ⟨rfl, rfl⟩

/-- **The engine's pool is a `ThreadPool`** used by the same workers and clients. -/
def toPool (capacity : ℕ) :
    Projection (rules (W := W) (ι := ι) capacity) (ThreadPool.rules (W := W) (ι := ι) capacity) where
  mem m := m.pool
  place := place
  event := Event.pool?
  seen _ _ _ _ _ _ _ h he := by
    have := rule_toPool h
    rw [he] at this
    exact this
  unseen _ _ _ _ _ _ h he := by
    have := rule_toPool h
    rw [he] at this
    exact this

/-- The steps of the pool in a log. -/
def poolLog (log : List (Thread W ι × Event W)) : List (Thread W ι × ThreadPool.Event W) :=
  log.filterMap fun l => l.2.pool?.map (Prod.mk l.1)

omit [DecidableEq ι] in
@[simp] theorem poolLog_nil : poolLog ([] : List (Thread W ι × Event W)) = [] := rfl

omit [DecidableEq ι] in
@[simp] theorem poolLog_append (l₁ l₂ : List (Thread W ι × Event W)) :
    poolLog (l₁ ++ l₂) = poolLog l₁ ++ poolLog l₂ := List.filterMap_append

variable {capacity : ℕ} {c c' : System W ι} {log : List (Thread W ι × Event W)}

theorem pool_run (h : Run (rules capacity) c log c') :
    Run (ThreadPool.rules capacity) ((toPool capacity).config c) (poolLog log)
      ((toPool capacity).config c') :=
  (toPool capacity).run h

theorem toPool_init : (toPool (W := W) (ι := ι) capacity).config init = ThreadPool.init := by
  simp only [Projection.config, toPool, init, ThreadPool.init, Config.mk.injEq, true_and]
  funext t
  rcases t with w | i <;> rfl

theorem pool_run_init (h : Run (rules capacity) init log c) :
    Run (ThreadPool.rules capacity) ThreadPool.init (poolLog log) ((toPool capacity).config c) := by
  have := pool_run h
  rwa [toPool_init] at this

end Pool

end Engine

end TaskEngine
