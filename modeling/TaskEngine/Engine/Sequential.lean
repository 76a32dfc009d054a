import TaskEngine.Engine.Accounting
import TaskEngine.Pool.Outcomes

/-!
# TaskEngine.Engine.Sequential — an engine used from one thread

With one client the calls come one after the other, and the schedule hardly matters: what is submitted up
to the first shutdown call is accepted, what comes after it is rejected, and how many of the accepted tasks
are run only `shutdown_now` leaves open (`Account.Allows`).  `sequential` gives the futures and every
`summary` of a run from the calls made and from that number.
-/

namespace TaskEngine

open Interleaving

/-! ## The account of the calls -/

namespace Engine

section Account

/-- How a shutdown call treats what is queued.  The destructor drains, as `shutdown` does. -/
inductive Mode
  | drain
  | abort
  deriving DecidableEq

/-- A call of the interface. -/
inductive Call
  | submit (task : Task)
  | shutdown
  | shutdown_now
  | destructor
  | summary
  deriving DecidableEq

/-- What was submitted before the first shutdown call, what after it, and which one that was. -/
structure Account where
  early : List Task
  late : List Task
  mode : Option Mode

namespace Account

/-- Only the first shutdown call counts. -/
def close (a : Account) (mode : Mode) : Account := { a with mode := a.mode.or (some mode) }

def add (a : Account) : Call → Account
  | .submit task =>
    if a.mode = none then { a with early := a.early ++ [task] } else { a with late := a.late ++ [task] }
  | .shutdown | .destructor => a.close .drain
  | .shutdown_now => a.close .abort
  | .summary => a

def of (calls : List Call) : Account := calls.foldl add ⟨[], [], none⟩

/-- What the futures tell when the first `ran` tasks were run: the others were rejected. -/
def outcomes (a : Account) (ran : ℕ) : List (TaskState × String) :=
  (a.early.take ran).map Task.outcome ++ (a.early.drop ran ++ a.late).map fun _ => (.Rejected, "")

/-- The number of tasks run is all of them, or with a `shutdown_now` first, all but a queue's worth. -/
structure Allows (a : Account) (capacity ran : ℕ) : Prop where
  closed : a.mode ≠ none
  ran_le : ran ≤ a.early.length
  backlog : a.early.length ≤ ran + capacity
  drain : a.mode = some .drain → ran = a.early.length

end Account

/-- What `summary` returns or throws. -/
def Account.Reports (a : Account) (capacity ran : ℕ) : Except Exception RunSummary → Prop
  | .error e => a.mode = none ∧ e = .logic_error ("ThreadPool::collect_samples requires the workers " ++
      "to be joined; call shutdown() or shutdown_now() first")
  | .ok s => a.Allows capacity ran ∧ Counts (a.outcomes ran) s

variable {W : ℕ} {ι : Type}

def Event.call : Event W → List Call
  | .assign _ task => [.submit task]
  | .pool (.shutdown .shutdown) => [.shutdown]
  | .pool (.shutdown .destructor) => [.destructor]
  | .pool .shutdown_now => [.shutdown_now]
  | .summary => [.summary]
  | _ => []

attribute [simp] Event.call.eq_1 Event.call.eq_2 Event.call.eq_3 Event.call.eq_4 Event.call.eq_5

theorem Event.call_pool {ev : ThreadPool.Event W} (h : ev.closing = false) : (Event.pool ev).call = [] := by
  cases ev <;> first | rfl | cases h

/-- The calls made, in their order. -/
abbrev calls (log : List (Thread W ι × Event W)) : List Call := collect Event.call log

theorem calls_append (l₁ l₂ : List (Thread W ι × Event W)) : calls (l₁ ++ l₂) = calls l₁ ++ calls l₂ :=
  collect_append _ _ _

theorem calls_singleton (l : Thread W ι × Event W) : calls [l] = l.2.call := by
  simp [calls]

/-- What the calls of a log amount to. -/
abbrev account (log : List (Thread W ι × Event W)) : Account := .of (calls log)

theorem account_snoc (log : List (Thread W ι × Event W)) (l : Thread W ι × Event W) :
    account (log ++ [l]) = l.2.call.foldl Account.add (account log) := by
  simp [account, Account.of, List.foldl_append]

theorem account_quiet (log : List (Thread W ι × Event W)) {l : Thread W ι × Event W} (hl : l.2.call = []) :
    account (log ++ [l]) = account log := by
  rw [account_snoc, hl, List.foldl_nil]

end Account

/-! ## Where the client stands -/

section Told

variable {W : ℕ} {capacity : ℕ}

/-- The task of a `submit` that has not yet reached the pool. -/
def ClientPc.unsubmitted : ClientPc → List Task
  | .assigned _ task => [task]
  | _ => []

attribute [simp] ClientPc.unsubmitted.eq_1 ClientPc.unsubmitted.eq_2

/-- In a shutdown call of the mode. -/
def ClientPc.Shuts : Mode → ClientPc → Prop
  | .drain, .pool (.closing _ _) | .drain, .pool (.joining (.close _) _)
  | .abort, .pool (.draining _) | .abort, .pool (.discarding _ _ _)
  | .abort, .pool (.joining (.shutdown_now _) _) => True
  | _, _ => False

theorem ClientPc.Shuts.place_ne {p : ClientPc} {mode : Mode} (h : p.Shuts mode) : p.place ≠ .idle := by
  intro hp
  cases mode <;> cases p with
  | pool q => cases q <;> first | exact h.elim | cases hp
  | _ => exact h.elim

/-- What the calls so far say of the pool. -/
structure Told (log : List (Thread W Unit × Event W)) (m : Engine W Unit) (p : ClientPc) : Prop where
  tasks : (ThreadPool.submitted (poolLog log)).map (·.task) ++ p.unsubmitted =
    (account log).early ++ (account log).late
  unclosed : (account log).mode = none →
    (account log).late = [] ∧ ∀ l ∈ poolLog log, l.2.closing = false
  early : (account log).mode ≠ none →
    (ThreadPool.pushed (poolLog log)).map (·.task) = (account log).early
  joined : ∀ mode, (account log).mode = some mode → p.Shuts mode ∨ m.pool.joined = true
  drained : (account log).mode = some .drain → ThreadPool.drained (poolLog log) = []
  agrees : ∀ q, p = .summing q → q.Agrees m

variable {log : List (Thread W Unit × Event W)} {m m' : Engine W Unit} {p p' : ClientPc}
  {l : Thread W Unit × Event W}

theorem Told.snoc (h : Told log m p) (hacc : account (log ++ [l]) = account log)
    (htasks : (ThreadPool.submitted (poolLog [l])).map (·.task) ++ p'.unsubmitted = p.unsubmitted)
    (hclosing : (account log).mode = none → ∀ l' ∈ poolLog [l], l'.2.closing = false)
    (hpush : (account log).mode ≠ none → ThreadPool.pushed (poolLog [l]) = [])
    (hdrain : (account log).mode = some .drain → ThreadPool.drained (poolLog [l]) = [])
    (hjoined : ∀ mode, p.Shuts mode ∨ m.pool.joined = true → p'.Shuts mode ∨ m'.pool.joined = true)
    (hagrees : ∀ q, p' = .summing q → q.Agrees m') : Told (log ++ [l]) m' p' := by
  refine ⟨?_, ?_, ?_, ?_, ?_, hagrees⟩
  · rw [hacc, ← h.tasks, poolLog_append, ThreadPool.submitted, collect_append, List.map_append,
      List.append_assoc, htasks]
  · rw [hacc, poolLog_append]
    intro hm
    obtain ⟨hlate, hno⟩ := h.unclosed hm
    exact ⟨hlate, fun l' hl' => (List.mem_append.mp hl').elim (hno l') (hclosing hm l')⟩
  · rw [hacc, poolLog_append, ThreadPool.pushed, collect_append, List.map_append]
    intro hm
    rw [h.early hm, show collect ThreadPool.Event.pushed (poolLog [l]) = [] from hpush hm, List.map_nil,
      List.append_nil]
  · rw [hacc]
    exact fun mode hm => hjoined mode (h.joined mode hm)
  · rw [hacc, poolLog_append, ThreadPool.drained, collect_append]
    exact fun hm => List.append_eq_nil_iff.mpr ⟨h.drained hm, hdrain hm⟩

/-- Short of the join, a `summary` depends on the rejections only. -/
theorem SummaryPc.Agrees.unjoined {q : SummaryPc} (h : q.Agrees m) (hj : m.pool.joined = false)
    (hj' : m'.pool.joined = false)
    (hr : ThreadPool.rejected_count m'.pool = ThreadPool.rejected_count m.pool) : q.Agrees m' := by
  cases q with
  | enter rejected => exact fun n hn => (h n hn).trans hr.symm
  | collecting rejected => exact absurd (hj.symm.trans h.1) Bool.false_ne_true
  | collected samples => exact absurd (hj.symm.trans h.1) Bool.false_ne_true
  | done result =>
    have hsame : summary m' = summary m := by
      simp [summary, ThreadPool.collect_samples, hj, hj', Except.map]
    exact (show result = summary m from h).trans hsame.symm

variable {c d : System W Unit} {ev : Event W}

/-- A worker changes nothing of it. -/
theorem Told.worker {w : Fin W} {pw : ThreadPool.WorkerPc} (hrun : Run (rules capacity) init log d)
    (hr : WorkerRule w d.shared (d.pc (.inl w)) ev m pw) (h : Told log d.shared p) :
    Told (log ++ [(.inl w, ev)]) m p := by
  have hj : d.shared.pool.joined = false := by
    by_contra hj
    rw [Bool.not_eq_false] at hj
    have hx : d.pc (.inl w) = .exited := (ThreadPool.finished_of_joined (pool_run_init hrun) hj w).2
    rw [hx] at hr
    cases hr with
    | pool hr => cases hr
  generalize hpc : d.pc (.inl w) = q at hr
  cases hr with
  | @pool ev pool _ hr =>
    have hlog : poolLog [((.inl w, .pool ev) : Thread W Unit × Event W)] = [(.inl w, ev)] := rfl
    obtain ⟨-, hsub, hpush, -, hdrain, -⟩ := hr.flow
    have hmem : pool.joined = d.shared.pool.joined ∧ pool.rejected = d.shared.pool.rejected ∧
        ev.closing = false ∧ (Event.pool ev : Event W).call = [] := by
      cases hr with
      | fulfil => exact ⟨by simp, ThreadPool.fulfil_rejected _ _ _, rfl, rfl⟩
      | _ => exact ⟨rfl, rfl, rfl, rfl⟩
    obtain ⟨hj', hrej, hclosing, hcall⟩ := hmem
    refine h.snoc (account_quiet _ hcall) ?_ ?_ ?_ ?_ ?_ ?_
    · simp [hlog, hsub]
    · exact fun _ => by simpa [hlog] using hclosing
    · simp [hlog, hpush]
    · simp [hlog, hdrain]
    · exact fun mode => Or.imp_right hj'.trans
    · exact fun q hq => (h.agrees q hq).unjoined hj (hj'.trans hj) hrej

/-- A shutdown call pushes nothing, and one that closes the queue drains nothing; it goes on to its return. -/
theorem ClientPc.Shuts.step {m m' : ThreadPool W Unit} {p p' : ThreadPool.ClientPc}
    {ev : ThreadPool.Event W} {mode : Mode} (h : ThreadPool.ClientRule capacity () m p ev m' p')
    (hs : (ClientPc.pool p).Shuts mode) :
    ev.pushed = [] ∧ (mode = .drain → ev.drained = []) ∧
      ((ClientPc.pool p').Shuts mode ∨ ∃ k, ev = .leave k) := by
  cases h with
  | close h => cases mode <;> first | exact hs.elim | exact ⟨h.flow.1, fun _ => h.flow.2.2.2, .inl trivial⟩
  | drain h => cases mode <;> first | exact hs.elim | exact ⟨h.flow.2.1, nofun, .inl trivial⟩
  | join h =>
    have hev : ev.pushed = [] ∧ ev.drained = [] := by cases h <;> exact ⟨rfl, rfl⟩
    exact ⟨hev.1, fun _ => hev.2, .inl (by rename_i k _ _; cases mode <;> cases k <;> exact hs)⟩
  | leave => exact ⟨rfl, fun _ => rfl, .inr ⟨_, rfl⟩⟩
  | _ => cases mode <;> first | exact hs.elim | exact ⟨rfl, fun _ => rfl, .inl trivial⟩

theorem Told.unseen {t : Thread W Unit} (h : Told log m p) (hacc : account (log ++ [(t, ev)]) = account log)
    (hpool : poolLog [((t, ev) : Thread W Unit × Event W)] = []) (hunsub : p'.unsubmitted = p.unsubmitted)
    (hjoined : ∀ mode, p.Shuts mode → p'.Shuts mode) (hagrees : ∀ q, p' = .summing q → q.Agrees m) :
    Told (log ++ [(t, ev)]) m p' :=
  h.snoc hacc (by simpa [hpool] using hunsub) (by simp [hpool]) (by simp [hpool]) (by simp [hpool])
    (fun mode => Or.imp_left (hjoined mode)) hagrees

theorem Told.pool {p p' : ThreadPool.ClientPc} {ev : ThreadPool.Event W} {pool : ThreadPool W Unit}
    (hW : 0 < W) (hrun : Run (rules capacity) init log d) (hp : d.pc (.inr ()) = .pool p)
    (hr : ThreadPool.ClientRule capacity () d.shared.pool p ev pool p') (hev : ev.submitted = [])
    (hclosing : ev.closing = false) (hleave : ∀ k, ev = .leave k → pool.joined = true)
    (h : Told log d.shared (.pool p)) :
    Told (log ++ [(.inr (), .pool ev)]) { d.shared with pool := pool } (.pool p') := by
  have hlog : poolLog [((.inr (), .pool ev) : Thread W Unit × Event W)] = [(.inr (), ev)] := rfl
  have hpool := pool_run_init hrun
  have hplace : ((toPool capacity).config d).pc (.inr ()) = p :=
    show ClientPc.place (d.pc (.inr ())) = p by rw [hp]; rfl
  have hstep : ThreadPool.rules capacity (.inr ()) ((toPool capacity).config d).shared
      (((toPool capacity).config d).pc (.inr ())) ev pool p' := by
    rw [hplace]
    exact hr
  have hguarantee := ThreadPool.rule_guarantee ((ThreadPool.joins hpool).2 (.inr ())) hstep
  refine h.snoc (account_quiet _ (Event.call_pool hclosing)) ?_ ?_ ?_ ?_ ?_ fun _ hq => by cases hq
  · simp [hlog, hev]
  · exact fun _ => by simpa [hlog] using hclosing
  · intro hm
    obtain ⟨mode, hm⟩ := Option.ne_none_iff_exists'.mp hm
    -- either the shutdown call is under way, which pushes nothing, or the queue is closed
    rcases h.joined mode hm with hs | hj
    · simp [hlog, (hs.step hr).1]
    · exact (ThreadPool.queue_closed_stable (.single (.mk hstep))
        ((ThreadPool.joins hpool).1.joined_closed hj)).2
  · intro hm
    rcases h.joined _ hm with hs | hj
    · simp [hlog, (hs.step hr).2.1 rfl]
    · obtain ⟨hc, hi⟩ := (ThreadPool.exited_of_joined hW hpool hj).1
      exact (ThreadPool.queue_exhausted (.single (.mk hstep)) hc hi).2.2.2
  · rintro mode (hs | hj)
    · exact (hs.step hr).2.2.imp_right fun ⟨k, hk⟩ => hleave k hk
    · exact .inr (hguarantee.joined hj)

theorem Told.close {ev : ThreadPool.Event W} (mode : Mode) (hrun : Run (rules capacity) init log d)
    (hp : d.pc (.inr ()) = .pool .idle)
    (hcall : ∀ a, (Event.pool ev : Event W).call.foldl Account.add a = a.close mode)
    (hev : ev.submitted = [] ∧ ev.pushed = [] ∧ ev.drained = []) (hs : p'.Shuts mode)
    (hunsub : p'.unsubmitted = []) (hagrees : ∀ q, p' = .summing q → q.Agrees m)
    (hj : d.shared.pool.joined = true → m.pool.joined = true) (h : Told log d.shared (.pool .idle)) :
    Told (log ++ [(.inr (), .pool ev)]) m p' := by
  have hlog : poolLog [((.inr (), .pool ev) : Thread W Unit × Event W)] = [(.inr (), ev)] := rfl
  have hacc : account (log ++ [(.inr (), .pool ev)]) = (account log).close mode := by
    rw [account_snoc, hcall]
  -- the first shutdown call fixes the early tasks, a further one changes nothing in the account
  cases hm : (account log).mode with
  | some first =>
    have hsame : (account log).close mode = account log := by
      rw [Account.close, hm, Option.some_or, ← hm]
    refine h.snoc (hacc.trans hsame) ?_ ?_ ?_ ?_ ?_ hagrees
    · simp [hlog, hev, hunsub]
    · exact fun hn => by rw [hm] at hn; cases hn
    · simp [hlog, hev]
    · simp [hlog, hev]
    · exact fun mode' hs' => .inr (hj (hs'.resolve_left fun hs => hs.place_ne rfl))
  | none =>
    obtain ⟨hlate, hno⟩ := h.unclosed hm
    have hpool := pool_run_init hrun
    have hmode : ((account log).close mode).mode = some mode := by
      rw [Account.close, hm, Option.none_or]
    have hsub : ThreadPool.submitted (poolLog log) = ThreadPool.pushed (poolLog log) := by
      rw [← ThreadPool.submitted_in_order hpool, (ThreadPool.open_of_no_shutdown hpool hno).2,
        show ((toPool capacity).config d).pc (.inr ()) = .idle from congrArg ClientPc.place hp]
      simp
    have htasks : (ThreadPool.pushed (poolLog log)).map (·.task) = (account log).early := by
      rw [← hsub]
      simpa [hlate] using h.tasks
    refine ⟨?_, ?_, ?_, ?_, ?_, hagrees⟩
    · rw [hacc, hunsub, poolLog_append, hlog, ThreadPool.submitted, collect_append]
      simp [hev, htasks, hsub, Account.close, hlate]
    · rw [hacc, hmode]
      exact fun hn => by cases hn
    · rw [hacc, poolLog_append, hlog, ThreadPool.pushed, collect_append]
      simp [hev, htasks, Account.close]
    · rw [hacc, hmode]
      rintro mode' hmode'
      exact .inl (Option.some.inj hmode' ▸ hs)
    · rw [poolLog_append, hlog, ThreadPool.drained, collect_append]
      have hnone := ThreadPool.drained_of_no_abort hpool fun l hl hnow => by
        have := hno l hl
        rw [hnow] at this
        cases this
      simp [hev, hnone]

theorem Told.assign {id : TaskId} {task : Task} (h : Told log m (.pool .idle)) (hm : m'.pool = m.pool) :
    Told (log ++ [(.inr (), .assign id task)]) m' (.assigned id task) := by
  have hpool : poolLog (log ++ [((.inr (), .assign id task) : Thread W Unit × Event W)]) = poolLog log := by
    rw [poolLog_append]
    exact List.append_nil _
  have hacc : account (log ++ [((.inr (), .assign id task) : Thread W Unit × Event W)]) =
      (account log).add (.submit task) := by
    rw [account_snoc]
    rfl
  have htasks := h.tasks
  have hjoined : ∀ mode, (account log).mode = some mode → m'.pool.joined = true := fun mode hmode => by
    rw [hm]
    exact (h.joined mode hmode).resolve_left fun hs => hs.place_ne rfl
  -- the task is an early one up to the first shutdown call, and a late one after it
  by_cases hopen : (account log).mode = none
  · obtain ⟨hlate, hno⟩ := h.unclosed hopen
    refine ⟨?_, ?_, ?_, ?_, ?_, fun _ hq => by cases hq⟩
    all_goals rw [hacc, Account.add, if_pos hopen]
    · simpa [hpool, hlate] using htasks
    · exact fun _ => ⟨hlate, hpool ▸ hno⟩
    · exact fun hne => absurd hopen hne
    · exact fun mode hmode => .inr (hjoined mode hmode)
    · exact fun hmode => hpool ▸ h.drained hmode
  · refine ⟨?_, ?_, ?_, ?_, ?_, fun _ hq => by cases hq⟩
    all_goals rw [hacc, Account.add, if_neg hopen]
    · rw [hpool, ← List.append_assoc, ← htasks]
      simp
    · exact fun hnone => absurd hnone hopen
    · exact fun hne => hpool ▸ h.early hne
    · exact fun mode hmode => .inr (hjoined mode hmode)
    · exact fun hmode => hpool ▸ h.drained hmode

theorem Told.client (hW : 0 < W) (hrun : Run (rules capacity) init log d)
    (hr : ClientRule capacity () d.shared (d.pc (.inr ())) ev m p')
    (hleave : ∀ k, ev = .pool (.leave k) → m.pool.joined = true)
    (h : Told log d.shared (d.pc (.inr ()))) : Told (log ++ [(.inr (), ev)]) m p' := by
  generalize hp : d.pc (.inr ()) = p at hr h
  cases hr with
  | assign task _ => exact h.assign rfl
  | @submit id task e pool p hid htask hr =>
    cases hr with
    | submit _ _ _ =>
      have hlog : poolLog [((.inr (), .pool (.submit e)) : Thread W Unit × Event W)] =
          [(.inr (), .submit e)] := rfl
      refine h.snoc (account_quiet _ rfl) ?_ ?_ ?_ ?_ ?_ fun _ hq => by cases hq
      · simp [hlog, htask]
      · simp [hlog, ThreadPool.Event.closing]
      · simp [hlog]
      · simp [hlog]
      · exact fun mode hs => .inr (hs.resolve_left fun hs => hs.place_ne rfl)
  | @pool p ev pool p' hev hr =>
    -- the calls that close are in the account, the other steps of the pool are not
    by_cases hclosing : ev.closing = false
    · exact h.pool hW hrun hp hr hev hclosing fun k hk => hleave k (by rw [hk])
    · cases hr with
      | shutdown _ =>
        exact h.close .drain hrun hp (fun _ => rfl) ⟨rfl, rfl, rfl⟩ trivial rfl (fun _ hq => by cases hq) id
      | destructor _ =>
        exact h.close .drain hrun hp (fun _ => rfl) ⟨rfl, rfl, rfl⟩ trivial rfl (fun _ hq => by cases hq) id
      | shutdown_now _ =>
        exact h.close .abort hrun hp (fun _ => rfl) ⟨rfl, rfl, rfl⟩ trivial rfl (fun _ hq => by cases hq) id
      | join hr => cases hr <;> exact absurd rfl hclosing
      | _ => exact absurd rfl hclosing
  | summary _ =>
    refine h.unseen (account_snoc _ _) rfl rfl (fun mode hs => absurd rfl hs.place_ne) fun q hq => ?_
    cases hq
    simp [SummaryPc.Agrees]
  | sum hr =>
    have hev : ev.call = [] ∧ poolLog [((.inr (), ev) : Thread W Unit × Event W)] = [] := by
      cases hr <;> exact ⟨rfl, rfl⟩
    refine h.unseen (account_quiet _ hev.1) hev.2 rfl (fun mode hs => absurd rfl hs.place_ne) fun q hq => ?_
    cases hq
    exact hr.agrees (h.agrees _ rfl)
  | summarized =>
    exact h.unseen (account_quiet _ rfl) rfl rfl (fun mode hs => absurd rfl hs.place_ne) fun q hq => by cases hq

/-- **What the calls so far say of the pool**, at every moment. -/
theorem told (hW : 0 < W) (h : Run (rules capacity) init log c) :
    Told log c.shared (c.pc (.inr ())) := by
  refine h.induct (I := fun log d => Told log d.shared (d.pc (.inr ()))) ?_ ?_
  · have hnone : ∀ {mode}, (account ([] : List (Thread W Unit × Event W))).mode ≠ some mode := by
      simp [Account.of]
    exact ⟨rfl, fun _ => ⟨rfl, by simp⟩, fun hne => absurd rfl hne, fun _ hm => absurd hm hnone,
      fun hm => absurd hm hnone, fun _ hq => by cases hq⟩
  · intro log d t ev m p hrun ih hr
    rcases t with w | ⟨⟩
    · dsimp only
      rw [Function.update_of_ne (by simp)]
      exact ih.worker hrun hr
    · dsimp only
      rw [Function.update_self]
      refine Told.client hW hrun hr ?_ ih
      rintro k rfl
      have hpool := pool_run_init (hrun.tail (.mk hr))
      refine ThreadPool.joined_of_returned hpool ⟨(.inr (), .leave k), ?_, k, rfl⟩
      rw [poolLog_append]
      exact List.mem_append_right _
        (show _ ∈ [(Sum.inr (), ThreadPool.Event.leave k)] from List.mem_singleton.mpr rfl)

end Told

/-! ## What the client is told -/

section Results

variable {W : ℕ} {capacity : ℕ} {c : System W Unit} {log : List (Thread W Unit × Event W)}

/-- The client is outside of the calls that submit and of those that shut down. -/
structure ClientPc.Apart (p : ClientPc) : Prop where
  place : p.place = .idle
  unsubmitted : p.unsubmitted = []

/-- After a shutdown call the workers are joined; what they popped was run, and the rest rejected. -/
theorem settled (hW : 0 < W) (h : Run (rules capacity) init log c)
    (hp : ClientPc.Apart (c.pc (.inr ()))) (hm : (account log).mode ≠ none) :
    c.shared.pool.joined = true ∧
      (account log).Allows capacity (ThreadPool.popped (poolLog log)).length ∧
      (account log).outcomes (ThreadPool.popped (poolLog log)).length = ThreadPool.outcomes (poolLog log) := by
  have ht := told hW h
  have hpool := pool_run_init h
  obtain ⟨mode, hmode⟩ := Option.ne_none_iff_exists'.mp hm
  have hj := (ht.joined mode hmode).resolve_left fun hs => hs.place_ne hp.place
  -- past the join nothing is queued, so what was pushed was popped or drained
  have hpushed := ThreadPool.queue_from_init hpool
  rw [(ThreadPool.exited_of_joined hW hpool hj).1.2, List.append_nil] at hpushed
  have hearly := ht.early hm
  have hlate : (ThreadPool.refused (poolLog log)).map (·.task) = (account log).late := by
    have htasks := ht.tasks
    rw [hp.unsubmitted, List.append_nil, ← ThreadPool.submitted_in_order hpool,
      show ((toPool capacity).config c).pc (.inr ()) = .idle from hp.place, ← hearly] at htasks
    simpa using htasks
  rw [← hpushed, List.map_append] at hearly
  refine ⟨hj, ⟨hm, ?_, ?_, ?_⟩, ?_⟩
  · simp [← hearly]
  · have := ThreadPool.queue_drained_le hpool
    simp only [← hearly, List.length_append, List.length_map]
    omega
  · intro hdrain
    simp [← hearly, ht.drained hdrain]
  · have hlen : (ThreadPool.popped (poolLog log)).length =
        ((ThreadPool.popped (poolLog log)).map (·.task)).length := (List.length_map _).symm
    rw [Account.outcomes, ← hearly, ← hlate, hlen, List.take_left, List.drop_left, List.map_map]
    simp [ThreadPool.outcomes, Function.comp_def, TaskEnvelope.delivery_snd]

theorem reports (hW : 0 < W) (h : Run (rules capacity) init log c) {result : Except Exception RunSummary}
    (hp : c.pc (.inr ()) = .summing (.done result)) :
    (account log).Reports capacity (ThreadPool.popped (poolLog log)).length result := by
  have ht := told hW h
  have hpool := pool_run_init h
  have hapart : ClientPc.Apart (c.pc (.inr ())) := by
    rw [hp]
    exact ⟨rfl, rfl⟩
  have hresult : result = summary c.shared := ht.agrees _ hp
  -- before the first shutdown call nothing is joined, so `summary` throws
  by_cases hm : (account log).mode = none
  · have hopen := (ThreadPool.open_of_no_shutdown hpool (ht.unclosed hm).2).1
    have hj : c.shared.pool.joined = false := by
      by_contra hj
      have hclosed := (ThreadPool.joins hpool).1.joined_closed (Bool.not_eq_false _ ▸ hj)
      rw [hopen] at hclosed
      cases hclosed
    rw [hresult, summary, ThreadPool.collect_samples, hj]
    exact ⟨hm, rfl⟩
  · obtain ⟨hj, hallows, hout⟩ := settled hW h hapart hm
    rw [hresult, summary, ThreadPool.collect_samples_of_joined hj]
    refine ⟨hallows, ?_⟩
    rw [hout]
    exact ThreadPool.summarize_outcomes hpool (fun _ => hapart.place)
      (ThreadPool.exited_of_joined hW hpool hj).2

theorem done_of_summarized {result : Except Exception RunSummary} {c' : System W Unit}
    (hs : Step (rules capacity) c (.inr (), .summarized result) c') :
    c.pc (.inr ()) = .summing (.done result) := by
  cases hs with
  | mk hr =>
    generalize c.pc (.inr ()) = p at hr
    cases (hr : ClientRule capacity () _ _ _ _ _) with
    | summarized => rfl
    | sum hr => cases hr

/-- **An engine used from one thread.**  One number fixes what a run tells its client: how many of the tasks
submitted before the first shutdown call were run.  These are the first ones, all of them if that call was
`shutdown`, and the futures and each `summary` say so; before that call `summary` throws. -/
theorem sequential (hW : 0 < W) (h : Run (rules capacity) (init : System W Unit) log c) :
    ∃ ran,
      ((account log).mode ≠ none → c.pc (.inr ()) = .pool .idle →
        (account log).Allows capacity ran ∧
        (ThreadPool.futures c.shared.pool).map Prod.snd = (account log).outcomes ran) ∧
      ∀ before result after, log = before ++ (.inr (), .summarized result) :: after →
        (account before).Reports capacity ran result := by
  refine ⟨(ThreadPool.popped (poolLog log)).length, fun hm hp => ?_, ?_⟩
  · have hpool := pool_run_init h
    have hapart : ClientPc.Apart (c.pc (.inr ())) := by
      rw [hp]
      exact ⟨rfl, rfl⟩
    obtain ⟨hj, hallows, hout⟩ := settled hW h hapart hm
    refine ⟨hallows, ?_⟩
    rw [hout]
    refine ThreadPool.futures_outcomes hW hpool (fun _ => hapart.place)
      (ThreadPool.exited_of_joined hW hpool hj).2 ?_
    rw [← ThreadPool.submitted_in_order hpool,
      show ((toPool capacity).config c).pc (.inr ()) = .idle from hapart.place]
    simp
  · rintro before result after rfl
    obtain ⟨d, d', hbefore, hs, hafter⟩ := h.split_at
    have hp := done_of_summarized hs
    have hreports := reports hW hbefore hp
    cases result with
    | error e => exact hreports
    | ok s =>
      -- nothing is popped after the join
      have hpool := pool_run_init hbefore
      have hapart : ClientPc.Apart (d.pc (.inr ())) := by
        rw [hp]
        exact ⟨rfl, rfl⟩
      have hj := (settled hW hbefore hapart hreports.1.closed).1
      obtain ⟨hc, hi⟩ := (ThreadPool.exited_of_joined hW hpool hj).1
      have hrest := (ThreadPool.queue_exhausted (pool_run ((Run.single hs).trans hafter)) hc hi).2.2.1
      have hpopped : ThreadPool.popped (poolLog (before ++ (.inr (), .summarized (.ok s)) :: after)) =
          ThreadPool.popped (poolLog before) := by
        rw [poolLog_append, ThreadPool.popped, collect_append]
        exact (congrArg _ hrest).trans (List.append_nil _)
      rw [hpopped]
      exact hreports

/-- One task is run and one discarded, with a `summary` before the `shutdown_now` and one after a third task. -/
def soloRun : List (Thread 1 Unit × Event 1) × System 1 Unit :=
  (play (act 1) (List.flatten
    [[(.inr (), .assign ⟨.returns⟩), (.inr (), .submit 0)],
      [.queue .lock, .queue (.notify none), .go].map fun a => (.inr (), .pool a),
      [(.inr (), .summary), (.inr (), .go), (.inr (), .go)],
      [.go, .queue .lock, .queue (.notify none), .clock 5].map fun a => (.inl 0, .pool a),
      [(.inr (), .assign ⟨.throwsOther⟩), (.inr (), .submit 6)],
      [.queue .lock, .queue (.notify none), .go, .shutdown_now, .queue .lock, .queue .lock, .queue .lock,
        .clock 7, .go, .go].map fun a => (.inr (), .pool a),
      [.clock 10, .go, .go, .queue .lock, .go].map fun a => (.inl 0, .pool a),
      [.go, .go, .go, .go].map fun a => (.inr (), .pool a),
      [(.inr (), .assign ⟨.throws "late"⟩), (.inr (), .submit 11)],
      [.queue .lock, .clock 12, .go].map fun a => (.inr (), .pool a),
      [(.inr (), .summary), (.inr (), .go), (.inr (), .go), (.inr (), .go), (.inr (), .go)]]) init).get rfl

theorem sequential_soloRun :
    ∃ ran, ran ≤ 2 ∧ 2 ≤ ran + 1 ∧ (ThreadPool.futures soloRun.2.shared.pool).map Prod.snd =
      Account.outcomes ⟨[⟨.returns⟩, ⟨.throwsOther⟩], [⟨.throws "late"⟩], some .abort⟩ ran := by
  have hacc : account soloRun.1 = ⟨[⟨.returns⟩, ⟨.throwsOther⟩], [⟨.throws "late"⟩], some .abort⟩ := rfl
  have hrun : Run (rules 1) init soloRun.1 soloRun.2 := play_run act_sound rfl
  obtain ⟨ran, hout, -⟩ := sequential (by decide) hrun
  rw [hacc] at hout
  obtain ⟨hallows, hfutures⟩ := hout (by decide) rfl
  exact ⟨ran, hallows.ran_le, hallows.backlog, hfutures⟩

end Results

end Engine

end TaskEngine
