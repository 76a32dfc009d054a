import TaskEngine.Engine.Progress
import TaskEngine.Interleaving.Extension

/-!
# TaskEngine.Engine.Observers — tasks that observe the engine they run on

A task may call `submitted_count`, `worker_count`, `is_shut_down` and `summary` of the engine running it,
any number of times.  The first three return at once.  `summary` takes `shutdown_mutex_`, which
`join_workers` holds while it waits for the very thread that the task runs on: where a task is in
`summary` before the mutex while a join holds it, neither ever goes on (`observer_blocked`).  As long as
the two are kept apart, a shutdown waiting in `join_workers` never waits for good (`observers_progress`).
-/

namespace TaskEngine

open Interleaving

namespace Engine

variable {W : ℕ} {ι : Type}

/-! ## Workers whose tasks observe -/

section Model

/-- A worker: in its loop, or in a `summary` called by the task that it runs. -/
inductive WorkerPc
  | pool (p : ThreadPool.WorkerPc)
  | summing (e : TaskEnvelope) (dequeued : TimePoint) (p : SummaryPc)

/-- The places of a thread. -/
@[reducible] def ObservingPc : Thread W ι → Type
  | .inl _ => WorkerPc
  | .inr _ => ClientPc

/-- What an observer other than `summary` returned. -/
inductive Observation
  | submitted_count (n : TaskId)
  | worker_count (n : ℕ)
  | is_shut_down (closed : Bool)

/-- What the three observers return. -/
inductive Observation.Reads (m : Engine W ι) : Observation → Prop
  | submitted_count : Reads m (.submitted_count (Engine.submitted_count m))
  | worker_count : Reads m (.worker_count W)
  | is_shut_down : Reads m (.is_shut_down m.pool.queue.closed)

inductive ObservingEvent (W : ℕ)
  | engine (ev : Event W)
  | observe (o : Observation)

variable [DecidableEq ι]

/-- A step of worker `w`: one of the pool, or of its task between the start and the finish of its run. -/
inductive ObservingRule (w : Fin W) :
    Engine W ι → WorkerPc → ObservingEvent W → Engine W ι → WorkerPc → Prop
  | pool {m : Engine W ι} {p ev pool p'} (h : ThreadPool.WorkerRule w m.pool p ev pool p') :
      ObservingRule w m (.pool p) (.engine (.pool ev)) { m with pool := pool } (.pool p')
  | observe {m e dequeued o} (h : Observation.Reads m o) :
      ObservingRule w m (.pool (.running e dequeued)) (.observe o) m (.pool (.running e dequeued))
  | summary {m e dequeued} :
      ObservingRule w m (.pool (.running e dequeued)) (.engine .summary) m (.summing e dequeued (.enter none))
  | sum {m e dequeued p ev p'} (h : SummaryRule m p ev p') :
      ObservingRule w m (.summing e dequeued p) (.engine ev) m (.summing e dequeued p')
  | summarized {m e dequeued result} :
      ObservingRule w m (.summing e dequeued (.done result)) (.engine (.summarized result)) m
        (.pool (.running e dequeued))

/-- A step of client `i`: one of the engine. -/
inductive ObservedRule (capacity : ℕ) (i : ι) :
    Engine W ι → ClientPc → ObservingEvent W → Engine W ι → ClientPc → Prop
  | engine {m p ev m' p'} (h : ClientRule capacity i m p ev m' p') :
      ObservedRule capacity i m p (.engine ev) m' p'

/-- The engine whose tasks observe it. -/
def observing (capacity : ℕ) : Rules (Engine W ι) (ObservingEvent W) (ObservingPc (W := W) (ι := ι))
  | .inl w => ObservingRule w
  | .inr i => ObservedRule capacity i

/-- A configuration of that engine. -/
abbrev Observing (W : ℕ) (ι : Type) := Config (Engine W ι) (ObservingPc (W := W) (ι := ι))

def Observing.init : Observing W ι where
  shared := ⟨1, ThreadPool.fresh⟩
  pc
    | .inl _ => .pool .starting
    | .inr _ => .pool .idle

end Model

/-! ## The pool below -/

section View

/-- For the pool, a task in `summary` is running. -/
def WorkerPc.place : WorkerPc → ThreadPool.WorkerPc
  | .pool p => p
  | .summing e dequeued _ => .running e dequeued

def observingPlace : (t : Thread W ι) → ObservingPc t → ThreadPool.Pc t
  | .inl _, p => WorkerPc.place p
  | .inr _, p => ClientPc.place p

def ObservingEvent.pool? : ObservingEvent W → Option (ThreadPool.Event W)
  | .engine ev => ev.pool?
  | .observe _ => none

variable [DecidableEq ι]

omit [DecidableEq ι] in
theorem SummaryRule.pool? {m : Engine W ι} {p p' : SummaryPc} {ev : Event W} (h : SummaryRule m p ev p') :
    ev.pool? = none := by
  cases h <;> rfl

theorem observing_toPool {capacity : ℕ} {t : Thread W ι} {m m' : Engine W ι} {p p' : ObservingPc t}
    {ev : ObservingEvent W} (h : observing capacity t m p ev m' p') :
    ev.pool?.elim (m'.pool = m.pool ∧ observingPlace t p' = observingPlace t p) fun ev' =>
      ThreadPool.rules capacity t m.pool (observingPlace t p) ev' m'.pool (observingPlace t p') := by
  rcases t with w | i
  · cases (h : ObservingRule w _ _ _ _ _) with
    | pool h => exact h
    | observe _ => exact ⟨rfl, rfl⟩
    | summary => exact ⟨rfl, rfl⟩
    | sum h => rw [ObservingEvent.pool?, h.pool?]; exact ⟨rfl, rfl⟩
    | summarized => exact ⟨rfl, rfl⟩
  · cases (h : ObservedRule capacity i _ _ _ _ _) with
    | engine h => exact rule_toPool (t := .inr i) h

/-- **The pool of an engine that is observed** is a `ThreadPool`. -/
def observedPool (capacity : ℕ) :
    Projection (observing (W := W) (ι := ι) capacity) (ThreadPool.rules (W := W) (ι := ι) capacity) where
  mem m := m.pool
  place := observingPlace
  event := ObservingEvent.pool?
  seen _ _ _ _ _ _ _ h he := by
    have := observing_toPool h
    rw [he] at this
    exact this
  unseen _ _ _ _ _ _ h he := by
    have := observing_toPool h
    rw [he] at this
    exact this

theorem observed_run {capacity : ℕ} {c : Observing W ι} {log : List (Thread W ι × ObservingEvent W)}
    (h : Run (observing capacity) Observing.init log c) :
    Run (ThreadPool.rules capacity) ThreadPool.init ((observedPool capacity).log log)
      ((observedPool capacity).config c) := by
  have hstart : (observedPool (W := W) (ι := ι) capacity).config Observing.init = ThreadPool.init := by
    simp only [Projection.config, observedPool, Observing.init, ThreadPool.init, Config.mk.injEq, true_and]
    funext t
    rcases t with w | i <;> rfl
  rw [← hstart]
  exact (observedPool capacity).run h

end View

/-! ## Keeping `summary` and the join apart -/

section Apart

/-- In `summary`, ahead of `shutdown_mutex_`. -/
def WorkerPc.asking : WorkerPc → Bool
  | .summing _ _ (.enter _) => true
  | _ => false

attribute [simp] WorkerPc.asking.eq_1

/-- A task calls `summary` only while nobody holds `shutdown_mutex_`, and a shutdown takes it only while no
task is in `summary` ahead of it. -/
structure KeptApart (c : Observing W ι) (l : Thread W ι × ObservingEvent W) : Prop where
  call : ∀ w, l = (.inl w, .engine .summary) → c.shared.pool.shutdown_mutex = none
  lock : ∀ i k, l.1 = .inr i → c.pc (.inr i) = .pool (.joining k .lock) →
    ∀ w, (c.pc (.inl w)).asking = false

/-- Something can be done that is neither a spurious wake-up nor a new call. -/
def ObservingEvent.moves : ObservingEvent W → Bool
  | .engine (.pool ev) => decide (ev ≠ .queue .spurious) && !ev.starts
  | .engine .summary | .engine (.assign _ _) | .observe _ => false
  | _ => true

def CanGoOn (capacity : ℕ) [DecidableEq ι] (c : Observing W ι) : Prop :=
  ∃ l d, Step (observing capacity) c l d ∧ l.2.moves = true

variable [DecidableEq ι] {capacity : ℕ} {c c' : Observing W ι} {log log' : List (Thread W ι × ObservingEvent W)}

omit [DecidableEq ι] in
/-- No step of `summary` comes before the mutex again. -/
theorem SummaryRule.asking {m : Engine W ι} {p p' : SummaryPc} {ev : Event W} (h : SummaryRule m p ev p')
    (e : TaskEnvelope) (dequeued : TimePoint) :
    ((WorkerPc.summing e dequeued p').asking = true → (WorkerPc.summing e dequeued p).asking = true) ∧
      ((WorkerPc.summing e dequeued p).asking = true →
        (WorkerPc.summing e dequeued p').asking = true ∨ m.pool.shutdown_mutex = none) := by
  cases h <;> simp_all [WorkerPc.asking]

/-- A worker's step leaves the mutex alone; its task comes to ask for it by a call and gets past it only
while nobody holds it. -/
theorem ObservingRule.asking {w : Fin W} {m m' : Engine W ι} {p p' : WorkerPc} {ev : ObservingEvent W}
    (h : ObservingRule w m p ev m' p') : m'.pool.shutdown_mutex = m.pool.shutdown_mutex ∧
      (p'.asking = true → p.asking = true ∨ ev = .engine .summary) ∧
      (p.asking = true → p'.asking = true ∨ m.pool.shutdown_mutex = none) := by
  cases h with
  | pool h => exact ⟨by cases h <;> simp, by simp [WorkerPc.asking], by simp [WorkerPc.asking]⟩
  | observe _ => exact ⟨rfl, by simp [WorkerPc.asking], by simp [WorkerPc.asking]⟩
  | summary => exact ⟨rfl, fun _ => .inr rfl, by simp [WorkerPc.asking]⟩
  | @sum e dequeued p ev p' h =>
    obtain ⟨hback, hon⟩ := h.asking e dequeued
    exact ⟨rfl, fun hp' => .inl (hback hp'), hon⟩
  | summarized => exact ⟨rfl, by simp [WorkerPc.asking], by simp [WorkerPc.asking]⟩

/-- A client takes the mutex in `join_workers`, at its beginning. -/
theorem ObservedRule.locks {i : ι} {m m' : Engine W ι} {p p' : ClientPc} {ev : ObservingEvent W}
    (h : ObservedRule capacity i m p ev m' p') (hm : m'.pool.shutdown_mutex ≠ none) :
    m.pool.shutdown_mutex ≠ none ∨ ∃ k, p = .pool (.joining k .lock) := by
  cases h with
  | engine h =>
    cases h with
    | submit _ _ h => cases h; exact .inl hm
    | pool _ h =>
      cases h with
      | join h =>
        cases h with
        | lock _ _ => exact .inr ⟨_, rfl⟩
        | joined _ => exact absurd rfl hm
        | _ => exact .inl hm
      | _ => exact .inl (by simpa using hm)
    | _ => exact .inl hm

/-- While somebody holds the mutex, no task asks for it. -/
theorem apart (h : RunWith (observing capacity) KeptApart Observing.init log c)
    (hm : c.shared.pool.shutdown_mutex ≠ none) (w : Fin W) : (c.pc (.inl w)).asking = false := by
  revert hm w
  refine h.induct (I := fun _ d => d.shared.pool.shutdown_mutex ≠ none → ∀ w, (d.pc (.inl w)).asking = false)
    (fun hm => absurd rfl hm) ?_
  intro log d t ev m p _ ih hp hr hm w
  dsimp only at hm ⊢
  -- a task calls only while the mutex is free, and a client takes it only while no task asks
  rcases t with v | i
  · obtain ⟨hmutex, hback, -⟩ := ObservingRule.asking (w := v) hr
    have hd : d.shared.pool.shutdown_mutex ≠ none := by rwa [← hmutex]
    by_cases hw : (.inl w : Thread W ι) = .inl v
    · obtain rfl : w = v := Sum.inl.inj hw
      rw [Function.update_self, ← Bool.not_eq_true]
      intro ha
      rcases hback ha with hold | rfl
      · rw [ih hd w] at hold
        cases hold
      · exact hd (hp.call w rfl)
    · rw [Function.update_of_ne hw]
      exact ih hd w
  · rw [Function.update_of_ne (by simp)]
    rcases ObservedRule.locks (i := i) hr hm with hd | ⟨k, hk⟩
    · exact ih hd w
    · exact hp.lock i k rfl hk w

/-- Where no task calls `summary`, the two are kept apart. -/
theorem keptApart_of_not_called (h : Run (observing capacity) Observing.init log c)
    (hno : ∀ w, (.inl w, .engine .summary) ∉ log) :
    RunWith (observing capacity) KeptApart Observing.init log c := by
  suffices hall : RunWith (observing capacity) KeptApart Observing.init log c ∧
      ∀ w, (c.pc (.inl w)).asking = false from hall.1
  revert hno
  refine h.induct (I := fun log d => (∀ w, (.inl w, .engine .summary) ∉ log) →
    RunWith (observing capacity) KeptApart Observing.init log d ∧ ∀ w, (d.pc (.inl w)).asking = false)
    (fun _ => ⟨.refl, fun _ => rfl⟩) ?_
  intro log d t ev m p _ ih hr hno
  obtain ⟨hwith, hask⟩ := ih fun w hw => hno w (List.mem_append_left _ hw)
  have hlast : ∀ w, (t, ev) ≠ (.inl w, .engine .summary) := by
    intro w hw
    exact hno w (by rw [hw]; exact List.mem_append_right _ (List.mem_singleton.mpr rfl))
  refine ⟨hwith.tail ⟨fun w hw => absurd hw (hlast w), fun _ _ _ _ => hask⟩ (.mk hr), ?_⟩
  intro w
  dsimp only
  by_cases hw : (.inl w : Thread W ι) = t
  · subst hw
    rw [Function.update_self, ← Bool.not_eq_true]
    intro ha
    rcases (ObservingRule.asking (w := w) hr).2.1 ha with hold | rfl
    · rw [hask w] at hold
      cases hold
    · exact hlast w rfl
  · rw [Function.update_of_ne hw]
    exact hask w

end Apart

/-! ## Progress -/

section Progress

variable [DecidableEq ι] {capacity : ℕ} {c c' : Observing W ι} {log log' : List (Thread W ι × ObservingEvent W)}

/-- What the pool can do, the engine can do, or the task that the worker runs is in `summary` and goes on. -/
theorem canGoOn_of_pool (hapart : c.shared.pool.shutdown_mutex ≠ none → ∀ w, (c.pc (.inl w)).asking = false)
    (h : ThreadPool.CanGoOn capacity ((observedPool capacity).config c)) : CanGoOn capacity c := by
  obtain ⟨⟨t, ev⟩, d, hs, hsp, hstart⟩ := h
  have hmoves : (ObservingEvent.engine (.pool ev)).moves = true := by
    simp [ObservingEvent.moves, hstart, show ev ≠ .queue .spurious from hsp]
  cases hs with
  | @mk _ _ m p hr =>
    rcases t with w | i
    · generalize hp : c.pc (.inl w) = q
      have hplace : ((observedPool capacity).config c).pc (.inl w) = WorkerPc.place q := by rw [← hp]; rfl
      rw [hplace] at hr
      cases q with
      | pool q =>
        exact ⟨_, _, .mk (t := .inl w) (show observing capacity (.inl w) _ _ _ _ _ from
          by rw [hp]; exact .pool hr), hmoves⟩
      | summing e dequeued q =>
        -- a task that asks for the mutex finds it free
        have hfree : ∀ rejected, q = .enter rejected → c.shared.pool.shutdown_mutex = none := by
          rintro rejected rfl
          by_contra hm
          have := hapart hm w
          rw [hp] at this
          cases this
        rcases SummaryRule.enabled hfree with ⟨ev', q', hq⟩ | ⟨result, rfl⟩
        · exact ⟨_, _, .mk (t := .inl w) (show observing capacity (.inl w) _ _ _ _ _ from
            by rw [hp]; exact .sum hq), by cases hq <;> rfl⟩
        · exact ⟨_, _, .mk (t := .inl w) (show observing capacity (.inl w) _ _ _ _ _ from
            by rw [hp]; exact .summarized), rfl⟩
    · generalize hp : c.pc (.inr i) = q
      have hplace : ((observedPool capacity).config c).pc (.inr i) = ClientPc.place q := by rw [← hp]; rfl
      rw [hplace] at hr
      have hidle : ¬ ThreadPool.ClientRule capacity i c.shared.pool .idle ev m p := by
        intro h
        cases h <;> cases hstart
      cases q with
      | pool q =>
        have hev : ev.submitted = [] := by
          cases ev <;> first | rfl | cases hstart
        exact ⟨_, _, .mk (t := .inr i) (show observing capacity (.inr i) _ _ _ _ _ from
          by rw [hp]; exact .engine (.pool hev hr)), hmoves⟩
      | assigned id task => exact absurd hr hidle
      | summing q => exact absurd hr hidle

variable [Fintype ι]

/-- **A shutdown that waits in `join_workers` never waits for good**, in every run in which a task calls
`summary` only while nobody holds `shutdown_mutex_`, and a shutdown takes it only while no task is in
`summary` ahead of it.  What can be done is no spurious wake-up, no new call and no further observation. -/
theorem observers_progress (h : RunWith (observing capacity) KeptApart Observing.init log c) {i : ι}
    {k : ThreadPool.Caller} {p : ThreadPool.JoinPc} (hp : c.pc (.inr i) = .pool (.joining k p)) :
    CanGoOn capacity c := by
  have hrun := observed_run h.run
  have hplace : ((observedPool capacity).config c).pc (.inr i) = .joining k p := by
    change ClientPc.place (c.pc (.inr i)) = _
    rw [hp]
    rfl
  have hclosed : ((observedPool capacity).config c).shared.queue.closed = true :=
    ThreadPool.ClientPc.Joins.closed ((ThreadPool.joins hrun).2 (.inr i)) (by rw [hplace]; rfl)
  exact canGoOn_of_pool (apart h) (ThreadPool.progress hrun hclosed (.inr ⟨i, by rw [hplace]; simp⟩))

omit [Fintype ι] in
/-- A client that holds the mutex gives it back once every worker has exited. -/
theorem ObservedRule.keeps {i j : ι} {m m' : Engine W ι} {p p' : ClientPc} {ev : ObservingEvent W}
    (h : ObservedRule capacity i m p ev m' p') (hm : m.pool.shutdown_mutex = some j) :
    m'.pool.shutdown_mutex = some j ∨ ∃ k n, W ≤ n ∧ p = .pool (.joining k (.loop n)) := by
  cases h with
  | engine h =>
    cases h with
    | submit _ _ h => cases h; exact .inl hm
    | pool _ h =>
      cases h with
      | join h =>
        cases h with
        | lock hfree _ => rw [hm] at hfree; cases hfree
        | joined hn => exact .inr ⟨_, _, hn, rfl⟩
        | _ => exact .inl hm
      | _ => exact .inl (by simpa using hm)
    | _ => exact .inl hm

omit [Fintype ι] in
/-- **Otherwise it does**: with a task in `summary` ahead of a held `shutdown_mutex_`, the holder keeps it
and the task stays there, whatever is done. -/
theorem observer_blocked (h : Run (observing capacity) Observing.init log c) {w : Fin W} {j : ι}
    (hm : c.shared.pool.shutdown_mutex = some j) (ha : (c.pc (.inl w)).asking = true)
    (h' : Run (observing capacity) c log' c') :
    c'.shared.pool.shutdown_mutex = some j ∧ (c'.pc (.inl w)).asking = true := by
  refine h'.induct (I := fun _ d => d.shared.pool.shutdown_mutex = some j ∧ (d.pc (.inl w)).asking = true)
    ⟨hm, ha⟩ ?_
  rintro log' d t ev m p hd ⟨hm, ha⟩ hr
  dsimp only
  rcases t with v | i
  · obtain ⟨hmutex, -, hon⟩ := ObservingRule.asking (w := v) hr
    refine ⟨hmutex.trans hm, ?_⟩
    by_cases hw : (.inl w : Thread W ι) = .inl v
    · obtain rfl : w = v := Sum.inl.inj hw
      rw [Function.update_self]
      exact (hon ha).resolve_right (by rw [hm]; simp)
    · rwa [Function.update_of_ne hw]
  · rw [Function.update_of_ne (by simp)]
    refine ⟨(ObservedRule.keeps (i := i) hr hm).resolve_right ?_, ha⟩
    -- the loop over the threads ends only when the thread of the task has returned
    rintro ⟨k, n, hn, hp⟩
    obtain ⟨hg, hat⟩ := ThreadPool.joins (observed_run (h.trans hd))
    have hloop := (ThreadPool.ClientPc.Joins.loop (hat (.inr i)) k n
      (show ClientPc.place (d.pc (.inr i)) = _ by rw [hp]; rfl)).2 w (w.isLt.trans_le hn)
    have hexit := (ThreadPool.WorkerPc.Joins.finished (hat (.inl w))).mp (hg.joined_finished w hloop)
    change WorkerPc.place (d.pc (.inl w)) = .exited at hexit
    generalize d.pc (.inl w) = q at ha hexit
    cases q with
    | pool q => cases ha
    | summing e dequeued q => cases hexit

end Progress

/-! ## A task whose `summary` meets a shutdown -/

section Blocked

variable [DecidableEq ι]

/-- A step computed, other than an observation that returns at once. -/
def WorkerPc.act (w : Fin W) (m : Engine W ι) :
    WorkerPc → Act W ι → Option (ObservingEvent W × Engine W ι × WorkerPc)
  | .pool (.running e dequeued), .summary => some (.engine .summary, m, .summing e dequeued (.enter none))
  | .pool p, .pool a =>
    (ThreadPool.WorkerPc.act w m.pool p a).map fun r =>
      (.engine (.pool r.1), { m with pool := r.2.1 }, .pool r.2.2)
  | .summing e dequeued (.done result), .go =>
    some (.engine (.summarized result), m, .pool (.running e dequeued))
  | .summing e dequeued p, a => (p.act m a).map fun r => (.engine r.1, m, .summing e dequeued r.2)
  | _, _ => none

def observingAct (capacity : ℕ) : (t : Thread W ι) → Act W ι → Engine W ι → ObservingPc t →
    Option (ObservingEvent W × Engine W ι × ObservingPc t)
  | .inl w, a, m, p => WorkerPc.act w m p a
  | .inr i, a, m, p => (ClientPc.act capacity i m p a).map fun r => (.engine r.1, r.2)

theorem WorkerPc.act_sound {w : Fin W} {m m' : Engine W ι} {p p' : WorkerPc} {a : Act W ι}
    {ev : ObservingEvent W} (h : p.act w m a = some (ev, m', p')) : ObservingRule w m p ev m' p' := by
  unfold WorkerPc.act at h
  split at h
  · cases h; exact .summary
  · obtain ⟨⟨ev, pool, p'⟩, hp, he⟩ := Option.map_eq_some_iff.mp h
    cases he
    exact .pool (ThreadPool.WorkerPc.act_sound hp)
  · cases h; exact .summarized
  · obtain ⟨⟨ev, p'⟩, hp, he⟩ := Option.map_eq_some_iff.mp h
    cases he
    exact .sum (SummaryPc.act_sound hp)
  · cases h

theorem observingAct_sound {capacity : ℕ} (t : Thread W ι) (a : Act W ι) (m : Engine W ι) (p : ObservingPc t)
    (ev : ObservingEvent W) (m' : Engine W ι) (p' : ObservingPc t)
    (h : observingAct capacity t a m p = some (ev, m', p')) : observing capacity t m p ev m' p' := by
  rcases t with w | i
  · exact WorkerPc.act_sound h
  · obtain ⟨⟨ev, m', p'⟩, hp, he⟩ := Option.map_eq_some_iff.mp h
    cases he
    exact .engine (ClientPc.act_sound hp)

/-- A schedule: the client submits a task, the worker begins to run it, and the client shuts down, up to
the join of the worker. -/
def joiningSchedule : List (Thread 1 (Fin 1) × Act 1 (Fin 1)) :=
  [(.inr 0, .assign ⟨.returns⟩), (.inr 0, .submit 0), (.inr 0, .pool (.queue .lock)),
   (.inr 0, .pool (.queue (.notify none))), (.inr 0, .pool .go), (.inl 0, .pool .go),
   (.inl 0, .pool (.queue .lock)), (.inl 0, .pool (.queue (.notify none))), (.inl 0, .pool (.clock 1)),
   (.inr 0, .pool (.shutdown .shutdown)), (.inr 0, .pool (.queue .lock)), (.inr 0, .pool (.queue .lock)),
   (.inr 0, .pool (.queue .lock)), (.inr 0, .pool .go), (.inr 0, .pool .go)]

/-- Its log, and the configuration in which the client waits for the worker. -/
def joiningRun : List (Thread 1 (Fin 1) × ObservingEvent 1) × Observing 1 (Fin 1) :=
  (play (observingAct 1) joiningSchedule Observing.init).get rfl

theorem joiningRun_run : Run (observing 1) Observing.init joiningRun.1 joiningRun.2 :=
  play_run observingAct_sound rfl

/-- No task has called `summary` there, so the shutdown does not wait for good. -/
theorem observers_progress_joiningRun : CanGoOn 1 joiningRun.2 := by
  have hno : joiningRun.1.all (fun l => match l.2 with | .engine .summary => false | _ => true) = true := rfl
  have hapart := keptApart_of_not_called joiningRun_run fun w hw =>
    Bool.false_ne_true (List.all_eq_true.mp hno _ hw)
  exact observers_progress hapart (i := 0) (k := .close .shutdown) (p := .loop 0) rfl

/-- The task then calls `summary`, which evaluates the rejection count first. -/
def blockedRun : List (Thread 1 (Fin 1) × ObservingEvent 1) × Observing 1 (Fin 1) :=
  (play (observingAct 1) (joiningSchedule ++ [(.inl 0, .summary), (.inl 0, .load)]) Observing.init).get rfl

theorem blockedRun_run : Run (observing 1) Observing.init blockedRun.1 blockedRun.2 :=
  play_run observingAct_sound rfl

/-- **A deadlock**: the client waits for the worker, whose task waits for the mutex that the client holds,
and no thread can take a step. -/
theorem observer_deadlock :
    ¬ ∀ (W capacity : ℕ) (log : List (Thread W (Fin 1) × ObservingEvent W)) (c : Observing W (Fin 1))
      (i : Fin 1) (k : ThreadPool.Caller) (p : ThreadPool.JoinPc), 0 < W → 0 < capacity →
      Run (observing capacity) Observing.init log c → c.pc (.inr i) = .pool (.joining k p) →
      ∃ l d, Step (observing capacity) c l d := by
  intro hall
  obtain ⟨⟨t, ev⟩, d, hs⟩ := hall _ _ _ _ 0 (.close .shutdown) (.loop 0) (by decide) (by decide)
    blockedRun_run rfl
  cases hs with
  | mk hr =>
    rcases t with w | i
    · have hp : blockedRun.2.pc (.inl w) = .summing ⟨1, ⟨.returns⟩, 0, 0⟩ 1 (.enter (some 0)) := by
        fin_cases w; rfl
      rw [hp] at hr
      cases (hr : ObservingRule w _ _ _ _ _) with
      | sum h =>
        cases h with
        | check hm _ => cases hm
        | throws hm _ _ => cases hm
    · have hp : blockedRun.2.pc (.inr i) = .pool (.joining (.close .shutdown) (.loop 0)) := by
        fin_cases i; rfl
      rw [hp] at hr
      cases (hr : ObservedRule 1 i _ _ _ _ _) with
      | engine h =>
        cases h with
        | pool _ h =>
          cases h with
          | join h =>
            cases h with
            | join _ _ hf => cases hf
            | skip _ hj => cases hj
            | joined hn => cases hn

end Blocked

end Engine

end TaskEngine
