import TaskEngine.Interleaving.Refinement
import TaskEngine.Pool.Modes
import TaskEngine.Pool.Progress

/-!
# TaskEngine.Pool.Server — the pool as a server with a waiting line

What a pool is for, without threads: a `Server` has a line of at most `capacity` jobs and serves at most
`W` of them at a time, in the order of the line.  It can be closed, after which it turns jobs away, and
aborted, which turns away the whole line as well.

`implements_server`: every run of the pool, seen by its critical sections and its fulfilments, is a
sequence that the server allows, and the futures report what the server settled.  `server_traces`: it is
no more than that, as every sequence that the server allows is one of some run.
-/

namespace TaskEngine

open Interleaving

/-! ## The server -/

/-- The jobs in line and those being served, in no order. -/
structure Server (α : Type) where
  closed : Bool
  line : List α
  serving : Multiset α

namespace Server

variable {α V : Type}

inductive Op (α : Type)
  | submit (job : α)
  | take
  | finish (job : α)
  | close
  | abort

inductive Answer (α V : Type)
  | accepted (accepted : Bool)
  | took (job : α)
  | ended (verdict : V)
  | closed
  | discarded (jobs : List α)

/-- What each operation does; a job that is served to its end gets the verdict that it deserves. -/
inductive Perform (W capacity : ℕ) (verdict : α → V) :
    Server α → Op α → Answer α V → Server α → Prop
  | accept {job line serving} (hl : line.length < capacity) :
      Perform W capacity verdict ⟨false, line, serving⟩ (.submit job) (.accepted true)
        ⟨false, line ++ [job], serving⟩
  | refuse {job line serving} :
      Perform W capacity verdict ⟨true, line, serving⟩ (.submit job) (.accepted false) ⟨true, line, serving⟩
  | take {closed job line serving} (hs : Multiset.card serving < W) :
      Perform W capacity verdict ⟨closed, job :: line, serving⟩ .take (.took job)
        ⟨closed, line, job ::ₘ serving⟩
  | finish {closed line job serving} :
      Perform W capacity verdict ⟨closed, line, job ::ₘ serving⟩ (.finish job) (.ended (verdict job))
        ⟨closed, line, serving⟩
  | close {line serving} :
      Perform W capacity verdict ⟨false, line, serving⟩ .close .closed ⟨true, line, serving⟩
  | abort {closed line serving} :
      Perform W capacity verdict ⟨closed, line, serving⟩ .abort (.discarded line) ⟨true, [], serving⟩

/-- A server with `W` places and a line of `capacity`. -/
def object (W capacity : ℕ) (verdict : α → V) : SeqObject (Server α) (Op α) (Answer α V) where
  initial := ⟨false, [], 0⟩
  Perform := Perform W capacity verdict

/-- The jobs that an operation settles, with their verdicts; `rejected` is that of a job turned away. -/
def settles (rejected : V) : Op α × Answer α V → List (α × V)
  | (.submit job, .accepted false) => [(job, rejected)]
  | (.finish job, .ended verdict) => [(job, verdict)]
  | (.abort, .discarded jobs) => jobs.map fun job => (job, rejected)
  | _ => []

/-- What a sequence of operations has settled. -/
def settled (rejected : V) (seq : List (Op α × Answer α V)) : List (α × V) := seq.flatMap (settles rejected)

end Server

/-! ## Jobs -/

/-- A task under its id. -/
abbrev Job := TaskId × Task

def TaskEnvelope.job (e : TaskEnvelope) : Job := (e.id, e.task)

/-- The job, turned away. -/
def TaskEnvelope.away (e : TaskEnvelope) : Job × TaskState := (e.job, .Rejected)

/-- `Succeeded` if `execute()` returns. -/
def Job.verdict (job : Job) : TaskState := if job.2.execute = .returns then .Succeeded else .Failed

theorem TaskEnvelope.verdict_job (e : TaskEnvelope) : Job.verdict e.job = e.outcome := by
  rw [Job.verdict, TaskEnvelope.job]
  split_ifs with h
  · exact (e.outcome_eq_succeeded.mpr h).symm
  · exact (e.outcome_eq_failed.mpr h).symm

namespace ThreadPool

variable {W : ℕ} {ι : Type}

/-! ## The pool as a server -/

section View

/-- What a step is for the server. -/
def Event.operation : Event W → Option (Server.Op Job × Server.Answer Job TaskState)
  | .queue (.push e) => some (.submit e.job, .accepted true)
  | .queue (.refuse e) => some (.submit e.job, .accepted false)
  | .queue (.pop e) => some (.take, .took e.job)
  | .queue .close => some (.close, .closed)
  | .queue (.drain es) => some (.abort, .discarded (es.map TaskEnvelope.job))
  | .fulfil e r => some (.finish e.job, .ended r.state)
  | _ => none

/-- The queue is the line; what a worker holds is being served. -/
def server (c : System W ι) : Server Job :=
  ⟨c.shared.queue.closed, c.shared.queue.items.map TaskEnvelope.job,
    (workingAll .fulfil c).map TaskEnvelope.job⟩

variable [DecidableEq ι] {capacity : ℕ}

theorem rule_fifo {t : Thread W ι} {m m' : ThreadPool W ι} {p p' : Pc t} {ev : Event W}
    (h : rules capacity t m p ev m' p') :
    (ev.label.bind BlockingQueue.Label.toFifo).elim
      ((⟨m'.queue.items, m'.queue.closed⟩ : Fifo TaskEnvelope) = ⟨m.queue.items, m.queue.closed⟩)
      fun fev => Fifo.Rule capacity ⟨m.queue.items, m.queue.closed⟩ fev ⟨m'.queue.items, m'.queue.closed⟩ := by
  have hq := rule_toQueue h
  cases hl : ev.label with
  | none =>
    rw [hl] at hq
    simp [hq.1]
  | some l =>
    rw [hl] at hq
    exact hq.toFifo

/-- A worker delivers the verdict. -/
theorem rule_verdict {t : Thread W ι} {m m' : ThreadPool W ι} {p p' : Pc t} {e : TaskEnvelope}
    {r : TaskResult} (h : rules capacity t m p (.fulfil e r) m' p') : r.state = Job.verdict e.job := by
  rcases t with w | i
  · cases (h : WorkerRule w _ _ _ _ _)
    rw [TaskEnvelope.result_state, TaskEnvelope.verdict_job]
  · cases (h : ClientRule capacity i _ _ _ _ _) with
    | join h => cases h

variable [Fintype ι]

/-- A step is an operation of the server, or changes nothing there. -/
theorem rule_server {c : System W ι} {t : Thread W ι} {ev : Event W} {m : ThreadPool W ι} {p : Pc t}
    (hr : rules capacity t c.shared (c.pc t) ev m p) :
    ev.operation.elim (server ⟨m, Function.update c.pc t p⟩ = server c) fun o =>
      Server.Perform W capacity Job.verdict (server c) o.1 o.2 (server ⟨m, Function.update c.pc t p⟩) := by
  have hfifo := rule_fifo hr
  have hwork := working_balance .fulfil (Run.single (.mk hr))
  have hcard := (Multiset.card_le_card (workingAll_le .fulfil ⟨m, Function.update c.pc t p⟩).1).trans
    (workingAll_le .fulfil ⟨m, Function.update c.pc t p⟩).2
  have hverdict : ∀ e r, ev = .fulfil e r → r.state = Job.verdict e.job := by
    rintro e r rfl
    exact rule_verdict hr
  simp only [server]
  generalize c.shared.queue.items = items at hfifo ⊢
  generalize c.shared.queue.closed = closed at hfifo ⊢
  generalize m.queue.items = items' at hfifo ⊢
  generalize m.queue.closed = closed' at hfifo ⊢
  generalize workingAll .fulfil c = held at hwork ⊢
  generalize workingAll .fulfil ⟨m, Function.update c.pc t p⟩ = held' at hwork hcard ⊢
  -- a step that neither pops nor fulfils leaves what is being served
  have hstill : popped [(t, ev)] = [] → reached .fulfil [(t, ev)] = [] → held' = held := fun hp hf => by
    simpa [hp, hf] using hwork
  cases ev with
  | queue qev =>
    cases qev with
    | push e =>
      obtain rfl := hstill rfl rfl
      cases hfifo with
      | put hl =>
        rw [List.map_append]
        exact .accept (by simpa using hl)
    | refuse e =>
      obtain rfl := hstill rfl rfl
      cases hfifo
      exact .refuse
    | pop e =>
      have hheld : held' = e ::ₘ held := by
        rw [← Multiset.singleton_add, add_comm]
        simpa using hwork
      rw [hheld, Multiset.card_cons] at hcard
      cases hfifo
      rw [hheld, Multiset.map_cons, List.map_cons]
      exact .take (by rw [Multiset.card_map]; omega)
    | close =>
      obtain rfl := hstill rfl rfl
      cases hfifo
      exact .close
    | drain es =>
      obtain rfl := hstill rfl rfl
      cases hfifo
      exact .abort
    | exhaust =>
      obtain rfl := hstill rfl rfl
      cases hfifo
      rfl
    | _ =>
      obtain rfl := hstill rfl rfl
      cases hfifo
      rfl
  | fulfil e r =>
    have hheld : held = e ::ₘ held' := by
      rw [← Multiset.singleton_add, add_comm]
      simpa using hwork.symm
    cases hfifo
    rw [hheld, Multiset.map_cons]
    simp only [Event.operation, Option.elim_some, hverdict e r rfl]
    exact .finish
  | _ =>
    obtain rfl := hstill rfl rfl
    cases hfifo
    rfl

/-- **The pool serves**: each step is an operation of the server, or none. -/
def serves (W capacity : ℕ) : Refinement (rules (W := W) (ι := ι) capacity) init
    (Server.object W capacity Job.verdict) where
  state := server
  operation := Event.operation
  initial := by
    rw [server, init_holds_nothing.2.2.2]
    rfl
  step _ _ _ _ _ _ _ hr := rule_server hr

end View

/-! ## What the futures report -/

section Reports

/-- The jobs that a step reports on, and those that it settles. -/
def Event.reported (ev : Event W) : List (Job × TaskState) := ev.fulfilment.map fun f => (f.1.job, f.2.state)

def Event.settled (ev : Event W) : List (Job × TaskState) :=
  ev.operation.elim [] (Server.settles .Rejected)

/-- The jobs that the futures have reported on, with the states reported. -/
abbrev reported (log : List (Thread W ι × Event W)) : List (Job × TaskState) := collect Event.reported log

/-- The jobs turned away by a client that has yet to report it. -/
def ClientPc.unreported (p : ClientPc) : Multiset (Job × TaskState) :=
  (p.refusal .fulfil + p.discards .fulfil).map TaskEnvelope.away

/-- What the server has settled is what the settling steps have. -/
theorem settled_eq (log : List (Thread W ι × Event W)) :
    Server.settled .Rejected (operations Event.operation log) = collect Event.settled log := by
  induction log with
  | nil => rfl
  | cons l log ih =>
    rw [← List.singleton_append, operations_append, operations_singleton, Server.settled,
      List.flatMap_append, ← Server.settled, ← Server.settled, ih, collect_append]
    congr 1
    cases h : l.2.operation <;> simp [Server.settled, Event.settled, h]

variable [DecidableEq ι]

/-- From the server to the futures. -/
def reporting (capacity : ℕ) :
    Ledger (rules (W := W) (ι := ι) capacity) (Multiset (Job × TaskState)) where
  hand
    | .inl _, _ => 0
    | .inr _, p => ClientPc.unreported p
  store _ := 0
  inflow ev := ev.settled
  outflow ev := ev.reported
  balance t _ _ _ _ _ h := by
    rcases t with w | i
    · cases (h : WorkerRule w _ _ _ _ _) with
      | pop h =>
        cases h with
        | enter h => cases BlockingQueue.popSection_cases h <;> rfl
        | resume _ h => cases BlockingQueue.popSection_cases h <;> rfl
        | _ => rfl
      | _ => rfl
    · cases (h : ClientRule capacity i _ _ _ _ _) with
      | push h =>
        cases h with
        | enter h => cases BlockingQueue.pushSection_cases h <;> rfl
        | resume _ h => cases BlockingQueue.pushSection_cases h <;> rfl
        | _ => rfl
      | close h =>
        cases h with
        | enter h => cases BlockingQueue.closeSection_cases h <;> rfl
        | _ => rfl
      | drain h =>
        cases h with
        | enter h =>
          cases h
          simp [ClientPc.unreported, Event.settled, Event.reported, Event.operation, Server.settles]
          rfl
        | _ => rfl
      | drained _ => rfl
      | discard =>
        simp [ClientPc.unreported, Event.settled, Event.reported, Event.operation, TaskEnvelope.away,
          ← Multiset.cons_coe, ← Multiset.singleton_add, add_comm]
      | join h => cases h <;> rfl
      | _ => rfl

variable [Fintype ι] {capacity : ℕ} {c : System W ι} {log : List (Thread W ι × Event W)}

/-- The rejections on their way to the futures. -/
def unreported (c : System W ι) : Multiset (Job × TaskState) := ∑ i, ClientPc.unreported (c.pc (.inr i))

/-- **The futures report what the server settled**, but for the rejections on their way. -/
theorem reported_from_init (h : Run (rules capacity) init log c) :
    unreported c + (reported log : Multiset (Job × TaskState)) =
      (Server.settled .Rejected (operations Event.operation log) : List (Job × TaskState)) := by
  have hrun := (reporting capacity).run h
  simpa [Ledger.hands, Ledger.income, Ledger.expense, reporting, sum_map_coe, unreported, settled_eq, init,
    ClientPc.unreported] using hrun

/-- **The pool implements the server**: a run is a sequence of its operations, and what the futures hold is
what these have settled, once the rejections on their way have arrived. -/
theorem implements_server (hW : 0 < W) (h : Run (rules capacity) init log c) :
    (Server.object W capacity Job.verdict).Legal (Server.object W capacity Job.verdict).initial
      (operations Event.operation log) (server c) ∧
    unreported c + (reported log : Multiset (Job × TaskState)) =
      (Server.settled .Rejected (operations Event.operation log) : List (Job × TaskState)) ∧
    ∀ k r, c.shared.promises[k]? = some (.value r) ↔ ∃ e, (e, r) ∈ fulfilments log ∧ e.promise = k :=
  ⟨(serves W capacity).legal h, reported_from_init h, fun _ _ => value_iff hW h⟩

/-- The drain: a job is accepted and served to its end between, and another turned away. -/
theorem implements_server_drainRun :
    operations Event.operation drainRun.1 =
      [(.submit (1, ⟨.returns⟩), .accepted true), (.close, .closed),
       (.submit (2, ⟨.throws "late"⟩), .accepted false), (.take, .took (1, ⟨.returns⟩)),
       (.finish (1, ⟨.returns⟩), .ended .Succeeded)] ∧
    (Server.object 1 1 Job.verdict).Legal (Server.object 1 1 Job.verdict).initial
      (operations Event.operation drainRun.1) (server drainRun.2) :=
  ⟨rfl, (implements_server (by decide) drainRun_run).1⟩

end Reports

/-! ## Every sequence of the server -/

section Traces

variable {capacity N n : ℕ}

/-- Ready to take a job, or past having taken one. -/
def WorkerPc.Parked (p : WorkerPc) : Prop :=
  p = .starting ∨ p = .popping .enter ∨ ∃ e, p = .popping (.notifying e)

/-- The pool is in a state of the server, with its workers parked and the clients from the `n`th on idle. -/
structure Parked (n : ℕ) (s : Server Job) (c : System W (Fin N)) : Prop where
  view : server c = s
  alive : c.shared.lifetime = .alive
  worker : ∀ w, (c.pc (.inl w)).Parked
  idle : ∀ i : Fin N, n ≤ i → c.pc (.inr i) = .idle

theorem parked_init : Parked 0 (Server.object W capacity Job.verdict).initial (init : System W (Fin N)) where
  view := (serves W capacity).initial
  alive := rfl
  worker _ := .inl rfl
  idle _ _ := rfl

variable {s : Server Job} {c : System W (Fin N)}

/-- What a thread alone adds to what is being served. -/
theorem serving_of_solo {t : Thread W (Fin N)} {evs : List (Event W)} {m : ThreadPool W (Fin N)} {p : Pc t}
    (h : Solo (rules capacity) t c.shared (c.pc t) evs m p) :
    workingAll .fulfil ⟨m, Function.update c.pc t p⟩ + (evs.flatMap (Event.reached .fulfil) : List TaskEnvelope) =
      workingAll .fulfil c + (evs.flatMap Event.popped : List TaskEnvelope) := by
  have hb := working_balance .fulfil h.run
  rwa [reached, popped, collect, collect, List.flatMap_map, List.flatMap_map] at hb

/-- The next client makes a call, up to its critical section. -/
theorem Parked.client (hp : Parked n s c) (hn : n < N) {evs : List (Event W)} {m : ThreadPool W (Fin N)}
    {p : ClientPc} (h : Solo (rules capacity) (.inr ⟨n, hn⟩) c.shared (c.pc (.inr ⟨n, hn⟩)) evs m p)
    (hf : evs.flatMap (Event.reached .fulfil) = []) (ht : evs.flatMap Event.popped = [])
    (hl : m.lifetime = .alive) :
    Parked (n + 1) ⟨m.queue.closed, m.queue.items.map TaskEnvelope.job, s.serving⟩
      ⟨m, Function.update c.pc (.inr ⟨n, hn⟩) p⟩ where
  view := by
    have hs := serving_of_solo h
    rw [hf, ht] at hs
    rw [← hp.view]
    simp only [server, Server.mk.injEq, true_and]
    rw [show workingAll .fulfil _ = workingAll .fulfil c by simpa using hs]
  alive := hl
  worker w := by simpa using hp.worker w
  idle i hi := by
    have hne : i ≠ ⟨n, hn⟩ := by
      rintro rfl
      simp at hi
    exact (update_client_of_ne c hne p).trans (hp.idle i (by omega))

/-- A worker takes steps without a client. -/
theorem Parked.of_worker (hp : Parked n s c) {w : Fin W} {evs : List (Event W)} {m : ThreadPool W (Fin N)}
    {p : WorkerPc} (h : Solo (rules capacity) (.inl w) c.shared (c.pc (.inl w)) evs m p) (hw : p.Parked)
    (hl : m.lifetime = .alive) {serving : Multiset Job}
    (hs : serving + (evs.flatMap (Event.reached .fulfil)).map TaskEnvelope.job =
      s.serving + (evs.flatMap Event.popped).map TaskEnvelope.job) :
    Parked (n + 1) ⟨m.queue.closed, m.queue.items.map TaskEnvelope.job, serving⟩
      ⟨m, Function.update c.pc (.inl w) p⟩ where
  view := by
    have hsolo := congrArg (Multiset.map TaskEnvelope.job) (serving_of_solo h)
    rw [Multiset.map_add, Multiset.map_add] at hsolo
    simp only [server, Server.mk.injEq, true_and]
    rw [← hp.view] at hs
    refine add_right_cancel (hsolo.trans (Eq.trans ?_ hs.symm))
    rfl
  alive := hl
  worker v := by
    by_cases hv : v = w
    · subst hv
      simpa using hw
    · have hne : (.inl v : Thread W (Fin N)) ≠ .inl w := fun heq => hv (Sum.inl_injective heq)
      simpa [Function.update_of_ne hne] using hp.worker v
  idle i hi := by simpa using hp.idle i (by omega)

/-- With a place free, some worker holds nothing. -/
theorem exists_free (hp : Parked n s c) (hs : Multiset.card s.serving < W) :
    ∃ w, c.pc (.inl w) = .starting ∨ c.pc (.inl w) = .popping .enter := by
  by_contra hno
  have hone : ∀ w, Multiset.card ((c.pc (.inl w)).before .fulfil) = 1 := fun w => by
    rcases hp.worker w with h | h | ⟨e, h⟩
    · exact absurd ⟨w, .inl h⟩ hno
    · exact absurd ⟨w, .inr h⟩ hno
    · simp [h]
  rw [← hp.view] at hs
  simp only [server, Multiset.card_map, workingAll, Multiset.card_sum, hone] at hs
  simp at hs

theorem exists_serving (hp : Parked n s c) {job : Job} (hj : job ∈ s.serving) :
    ∃ w e, c.pc (.inl w) = .popping (.notifying e) ∧ e.job = job := by
  rw [← hp.view] at hj
  obtain ⟨e, he, hej⟩ := Multiset.mem_map.mp hj
  obtain ⟨w, -, hw⟩ := Multiset.mem_sum.mp he
  rcases hp.worker w with h | h | ⟨e', h⟩
  · simp [h] at hw
  · simp [h] at hw
  · rw [h] at hw
    obtain rfl : e = e' := by simpa using hw
    exact ⟨w, e, h, hej⟩

/-- A thread carries out an operation from where the threads are parked, and is parked again. -/
def Carried (capacity n : ℕ) (c : System W (Fin N)) (o : Server.Op Job × Server.Answer Job TaskState)
    (s : Server Job) : Prop :=
  ∃ t evs m p, Solo (rules capacity) t c.shared (c.pc t) evs m p ∧ evs.filterMap Event.operation = [o] ∧
    Parked (n + 1) s ⟨m, Function.update c.pc t p⟩

theorem Parked.solo (hp : Parked n s c) (hn : n < N) {evs : List (Event W)} {m : ThreadPool W (Fin N)}
    {p : ClientPc} (h : Solo (rules capacity) (.inr ⟨n, hn⟩) c.shared ClientPc.idle evs m p) :
    Solo (rules capacity) (.inr ⟨n, hn⟩) c.shared (c.pc (.inr ⟨n, hn⟩)) evs m p := by
  rwa [hp.idle ⟨n, hn⟩ le_rfl]

theorem Parked.accept {job : Job} {line : List Job} {serving : Multiset Job}
    (hp : Parked n ⟨false, line, serving⟩ c) (hn : n < N) (hl : line.length < capacity) :
    Carried capacity n c (.submit job, .accepted true) ⟨false, line ++ [job], serving⟩ := by
  obtain ⟨hclosed, hline, -⟩ := by simpa only [server, Server.mk.injEq] using hp.view
  have hroom : c.shared.queue.items.length < capacity := by rwa [← hline, List.length_map] at hl
  let e : TaskEnvelope := ⟨job.1, job.2, 0, c.shared.promises.length⟩
  have hsection : BlockingQueue.pushSection capacity (.inr ⟨n, hn⟩) c.shared.queue e =
      (.push e, { c.shared.queue with items := c.shared.queue.items ++ [e] }, .notifying e) := by
    simp [BlockingQueue.pushSection, hclosed, hroom]
  have hsolo := hp.solo hn (.cons (ClientRule.submit e hp.alive rfl)
    (.cons (ClientRule.push (.enter hsection)) .nil))
  have hparked := hp.client hn hsolo rfl rfl hp.alive
  rw [List.map_append, hline, hclosed] at hparked
  exact ⟨_, _, _, _, hsolo, rfl, hparked⟩

theorem Parked.refuse {job : Job} {line : List Job} {serving : Multiset Job}
    (hp : Parked n ⟨true, line, serving⟩ c) (hn : n < N) :
    Carried capacity n c (.submit job, .accepted false) ⟨true, line, serving⟩ := by
  obtain ⟨hclosed, hline, -⟩ := by simpa only [server, Server.mk.injEq] using hp.view
  let e : TaskEnvelope := ⟨job.1, job.2, 0, c.shared.promises.length⟩
  have hsection : BlockingQueue.pushSection capacity (.inr ⟨n, hn⟩) c.shared.queue e =
      (.refuse e, c.shared.queue, .refused e) := by
    simp [BlockingQueue.pushSection, hclosed]
  have hsolo := hp.solo hn (.cons (ClientRule.submit e hp.alive rfl)
    (.cons (ClientRule.push (.enter hsection)) .nil))
  have hparked := hp.client hn hsolo rfl rfl hp.alive
  rw [hline, hclosed] at hparked
  exact ⟨_, _, _, _, hsolo, rfl, hparked⟩

theorem Parked.take {closed : Bool} {job : Job} {line : List Job} {serving : Multiset Job}
    (hp : Parked n ⟨closed, job :: line, serving⟩ c) (hs : Multiset.card serving < W) :
    Carried capacity n c (.take, .took job) ⟨closed, line, job ::ₘ serving⟩ := by
  obtain ⟨hclosed, hline, -⟩ := by simpa only [server, Server.mk.injEq] using hp.view
  obtain ⟨e, items, hitems, rfl, hrest⟩ := List.map_eq_cons_iff.mp hline
  obtain ⟨w, hw⟩ := exists_free hp hs
  have hsection : BlockingQueue.popSection (.inl w) c.shared.queue =
      (.pop e, { c.shared.queue with items := items }, .notifying e) := by
    simp [BlockingQueue.popSection, hitems]
  have hpop : Solo (rules capacity) (.inl w) c.shared (WorkerPc.popping .enter) [.queue (.pop e)]
      { c.shared with queue := { c.shared.queue with items := items } }
      (WorkerPc.popping (.notifying e)) := .cons (WorkerRule.pop (.enter hsection)) .nil
  -- a worker that has not begun yet takes one step more
  obtain ⟨evs, hsolo, hop, htaken, hful⟩ : ∃ evs, Solo (rules capacity) (.inl w) c.shared (c.pc (.inl w)) evs
      { c.shared with queue := { c.shared.queue with items := items } } (WorkerPc.popping (.notifying e)) ∧
      evs.filterMap Event.operation = [(.take, .took e.job)] ∧ evs.flatMap Event.popped = [e] ∧
      evs.flatMap (Event.reached .fulfil) = [] := by
    rcases hw with hw | hw
    · rw [hw]
      exact ⟨_, .cons WorkerRule.enter hpop, rfl, rfl, rfl⟩
    · rw [hw]
      exact ⟨_, hpop, rfl, rfl, rfl⟩
  have hparked : Parked (n + 1) ⟨_, _, e.job ::ₘ serving⟩ _ :=
    hp.of_worker hsolo (.inr (.inr ⟨e, rfl⟩)) hp.alive
      (by simp [htaken, hful, add_comm serving, Multiset.singleton_add])
  rw [hrest, hclosed] at hparked
  exact ⟨_, _, _, _, hsolo, hop, hparked⟩

theorem Parked.finish {closed : Bool} {job : Job} {line : List Job} {serving : Multiset Job}
    (hp : Parked n ⟨closed, line, job ::ₘ serving⟩ c) :
    Carried capacity n c (.finish job, .ended (Job.verdict job)) ⟨closed, line, serving⟩ := by
  obtain ⟨rfl, rfl, -⟩ := by simpa only [server, Server.mk.injEq] using hp.view
  obtain ⟨w, e, hw, rfl⟩ := exists_serving hp (Multiset.mem_cons_self job serving)
  obtain ⟨cv, hcv⟩ := c.shared.queue.not_full.exists_notifyOne
  have hsolo : Solo (rules capacity) (.inl w) c.shared (WorkerPc.popping (.notifying e)) _ _ _ :=
    .cons (WorkerRule.pop (.notify_one hcv)) (.cons (WorkerRule.start 0) (.cons (WorkerRule.finish 0)
      (.cons WorkerRule.fulfil (.cons WorkerRule.record .nil))))
  rw [← hw] at hsolo
  have hparked : Parked (n + 1) ⟨_, _, serving⟩ _ :=
    hp.of_worker hsolo (.inr (.inl rfl)) ((fulfil_lifetime _ _ _).trans hp.alive)
      (by simp [add_comm serving, Multiset.singleton_add])
  simp only [record_queue, fulfil_queue] at hparked
  refine ⟨_, _, _, _, hsolo, ?_, hparked⟩
  rw [TaskEnvelope.verdict_job, ← TaskEnvelope.result_state e 0 0]
  rfl

theorem Parked.close {line : List Job} {serving : Multiset Job} (hp : Parked n ⟨false, line, serving⟩ c)
    (hn : n < N) : Carried capacity n c (.close, .closed) ⟨true, line, serving⟩ := by
  obtain ⟨hclosed, hline, -⟩ := by simpa only [server, Server.mk.injEq] using hp.view
  have hsection : BlockingQueue.closeSection c.shared.queue =
      (.close, { c.shared.queue with closed := true }, .notifyingEmpty) := by
    simp [BlockingQueue.closeSection, hclosed]
  have hsolo : Solo (rules capacity) _ _ _ _ _ _ := hp.solo hn
    (.cons (ClientRule.shutdown hp.alive) (.cons (ClientRule.close (.enter hsection)) .nil))
  have hparked := hp.client hn hsolo rfl rfl hp.alive
  rw [hline] at hparked
  exact ⟨_, _, _, _, hsolo, rfl, hparked⟩

theorem Parked.abort {closed : Bool} {line : List Job} {serving : Multiset Job}
    (hp : Parked n ⟨closed, line, serving⟩ c) (hn : n < N) :
    Carried capacity n c (.abort, .discarded line) ⟨true, [], serving⟩ := by
  obtain ⟨-, rfl, -⟩ := by simpa only [server, Server.mk.injEq] using hp.view
  have hsolo : Solo (rules capacity) _ _ _ _ _ _ := hp.solo hn
    (.cons (ClientRule.shutdown_now hp.alive) (.cons (ClientRule.drain (.enter rfl)) .nil))
  exact ⟨_, _, _, _, hsolo, rfl, hp.client hn hsolo rfl rfl hp.alive⟩

/-- **The pool allows whatever the server does**: the sequences of operations of its runs, with some number
of clients, are the sequences that the server allows. -/
theorem server_traces (W capacity : ℕ) (seq : List (Server.Op Job × Server.Answer Job TaskState)) :
    (∃ N log c, Run (rules capacity) (init : System W (Fin N)) log c ∧ operations Event.operation log = seq) ↔
      ∃ s, (Server.object W capacity Job.verdict).Legal (Server.object W capacity Job.verdict).initial seq s := by
  constructor
  · rintro ⟨N, log, c, h, rfl⟩
    exact ⟨_, (serves W capacity).legal h⟩
  · rintro ⟨s, h⟩
    have hstep : ∀ n s s' op answer (c : System W (Fin seq.length)), n < seq.length → Parked n s c →
        Server.Perform W capacity Job.verdict s op answer s' → Carried capacity n c (op, answer) s' := by
      intro n s s' op answer c hn hp hperform
      cases hperform with
      | accept hl => exact hp.accept hn hl
      | refuse => exact hp.refuse hn
      | take hs => exact hp.take hs
      | finish => exact hp.finish
      | close => exact hp.close hn
      | abort => exact hp.abort hn
    obtain ⟨log, c, hrun, hops, -⟩ := h.realize Parked parked_init hstep
    exact ⟨_, log, c, hrun, hops⟩

end Traces

end ThreadPool

end TaskEngine
