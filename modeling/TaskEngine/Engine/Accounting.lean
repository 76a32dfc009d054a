import TaskEngine.Engine.Model
import TaskEngine.Pool.Accounts

/-!
# TaskEngine.Engine.Accounting — the summary agrees with the futures

The ids given out by `submit` are `1, 2, …` in the order of the `fetch_add` (`assigned_eq`), and each
one goes to the pool with its own task (`numbering`).  Over a pool at rest, where the samples with the
rejections are the results of the futures, this makes the ids recorded those of the submissions
(`accounting_agrees`).
-/

namespace TaskEngine

open Interleaving

namespace Engine

variable {W : ℕ} {ι : Type}

/-! ## The ids -/

section Ids

/-- The id given out by a step, with the task that it is given to. -/
def Event.assignment : Event W → List (TaskId × Task)
  | .assign id task => [(id, task)]
  | _ => []

/-- What a step hands to the pool's `submit`. -/
def Event.submission (ev : Event W) : List TaskEnvelope := ev.pool?.elim [] ThreadPool.Event.submitted

/-- The id and the task of a `submit` that has not yet reached the pool. -/
def ClientPc.unsent : ClientPc → Multiset (TaskId × Task)
  | .assigned id task => {(id, task)}
  | _ => 0

attribute [simp] Event.assignment.eq_1 Event.assignment.eq_2 ClientPc.unsent.eq_1 ClientPc.unsent.eq_2

/-- The ids given out, with their tasks. -/
abbrev assignments (log : List (Thread W ι × Event W)) : List (TaskId × Task) :=
  collect Event.assignment log

/-- The ids given out. -/
def assigned (log : List (Thread W ι × Event W)) : List TaskId := (assignments log).map Prod.fst

variable [DecidableEq ι] {capacity : ℕ} {c : System W ι} {log : List (Thread W ι × Event W)}

theorem rule_assigned {t : Thread W ι} {m m' : Engine W ι} {p p' : Pc t} {ev : Event W}
    (h : rules capacity t m p ev m' p') :
    (ev.assignment = [] ∧ m'.next_id = m.next_id) ∨
      (ev.assignment.map Prod.fst = [m.next_id] ∧ m'.next_id = (m.next_id + 1) % 2 ^ 64) := by
  rcases t with w | i
  · cases (h : WorkerRule w _ _ _ _ _) with
    | pool h => exact .inl ⟨rfl, rfl⟩
  · cases (h : ClientRule capacity i _ _ _ _ _) with
    | assign task _ => exact .inr ⟨rfl, rfl⟩
    | sum h => cases h <;> exact .inl ⟨rfl, rfl⟩
    | _ => exact .inl ⟨rfl, rfl⟩

/-- The ids count up from one, modulo `2 ^ 64`. -/
theorem assigned_eq (h : Run (rules capacity) init log c) :
    c.shared.next_id = ((assigned log).length + 1) % 2 ^ 64 ∧
      assigned log = (List.range (assigned log).length).map fun k => (k + 1) % 2 ^ 64 := by
  refine h.induct (I := fun log d => d.shared.next_id = ((assigned log).length + 1) % 2 ^ 64 ∧
    assigned log = (List.range (assigned log).length).map fun k => (k + 1) % 2 ^ 64)
    (by simp [init, assigned]) ?_
  rintro log d t ev m p _ ⟨hnext, hids⟩ hr
  rcases rule_assigned hr with ⟨hev, hm⟩ | ⟨hev, hm⟩
  · have hlog : assigned (log ++ [(t, ev)]) = assigned log := by simp [assigned, hev]
    rw [hlog, hm]
    exact ⟨hnext, hids⟩
  · have hlog : assigned (log ++ [(t, ev)]) = assigned log ++ [d.shared.next_id] := by
      simp [assigned, hev]
    have hlen : (assigned (log ++ [(t, ev)])).length = (assigned log).length + 1 := by simp [hlog]
    refine ⟨?_, ?_⟩
    · simp only [hm, hnext, hlen]
      omega
    · rw [hlen, List.range_succ, List.map_append, ← hids, hlog, hnext]
      rfl

/-- Every id given out goes to the pool with its task, in the envelope of the two. -/
def numbering (capacity : ℕ) :
    Ledger (rules (W := W) (ι := ι) capacity) (Multiset (TaskId × Task)) where
  hand
    | .inl _, _ => 0
    | .inr _, p => ClientPc.unsent p
  store _ := 0
  inflow ev := ev.assignment
  outflow ev := ↑(ev.submission.map fun e => (e.id, e.task))
  balance t _ _ _ _ _ h := by
    rcases t with w | i
    · cases (h : WorkerRule w _ _ _ _ _) with
      | pool h =>
        simp [Event.submission, Event.pool?, (ThreadPool.WorkerRule.flow h).2.1]
    · cases (h : ClientRule capacity i _ _ _ _ _) with
      | assign _ _ => simp [Event.submission, Event.pool?]
      | submit hid htask _ => simp [Event.submission, Event.pool?, hid, htask]
      | pool hev _ => simp [Event.submission, Event.pool?, hev]
      | summary _ => simp [Event.submission, Event.pool?]
      | sum h => cases h <;> simp [Event.submission, Event.pool?]
      | summarized => simp [Event.submission, Event.pool?]

/-- With no `submit` between its two steps, what was submitted to the pool are the tasks under the ids
given out. -/
theorem submitted_perm [Fintype ι] (h : Run (rules capacity) init log c)
    (hi : ∀ i, ClientPc.unsent (c.pc (.inr i)) = 0) :
    ((ThreadPool.submitted (poolLog log)).map fun e => (e.id, e.task)).Perm (assignments log) := by
  have hb := (numbering capacity).run h
  have hsub : ThreadPool.submitted (poolLog log) = collect Event.submission log :=
    (toPool capacity).collect_log (f := Event.submission) (fun _ => rfl) log
  rw [hsub, map_collect, ← Multiset.coe_eq_coe, ← sum_map_coe, ← sum_map_coe]
  simpa [Ledger.hands, Ledger.income, Ledger.expense, numbering, hi, init] using hb

end Ids

/-! ## The accounts -/

section Accounts

theorem mem_poolLog {log : List (Thread W ι × Event W)} {l : Thread W ι × ThreadPool.Event W} :
    l ∈ poolLog log ↔ (l.1, .pool l.2) ∈ log := by
  simp only [poolLog, List.mem_filterMap, Option.map_eq_some_iff]
  constructor
  · rintro ⟨⟨t, ev⟩, hl, ev', hev, rfl⟩
    cases ev with
    | pool ev => cases hev; exact hl
    | _ => cases hev
  · intro hl
    exact ⟨_, hl, l.2, rfl, rfl⟩

variable [DecidableEq ι] [Fintype ι] {capacity : ℕ} {c : System W ι} {log : List (Thread W ι × Event W)}

/-- **Run accounting.**  With a shutdown call returned and no `submit` or shutdown call under way,
`summary` succeeds, its counts are those of the futures and add up to `submitted_count`, and the ids
of the samples with those of the `Rejected` results are `1, …, submitted_count`, each once. -/
theorem accounting_agrees (hW : 0 < W) (h : Run (rules capacity) init log c)
    (hn : (assigned log).length < 2 ^ 64) (hret : ∃ l ∈ log, ∃ k, l.2 = .pool (.leave k))
    (hi : ∀ i, c.pc (.inr i) = .pool .idle ∨ ∃ p, c.pc (.inr i) = .summing p) :
    ∃ s, summary c.shared = .ok s ∧
      s.succeeded = (ThreadPool.futures c.shared.pool).countP (fun d => d.2.1 = .Succeeded) ∧
      s.failed = (ThreadPool.futures c.shared.pool).countP (fun d => d.2.1 = .Failed) ∧
      s.rejected = (ThreadPool.futures c.shared.pool).countP (fun d => d.2.1 = .Rejected) ∧
      s.total = s.succeeded + s.failed + s.rejected ∧ s.total = submitted_count c.shared ∧
      (ThreadPool.futures c.shared.pool).length = c.shared.pool.promises.length ∧
      (ThreadPool.ids c.shared.pool).Nodup ∧
      ∀ k : ℕ, k ∈ ThreadPool.ids c.shared.pool ↔ 1 ≤ k ∧ k ≤ submitted_count c.shared := by
  have hpool := pool_run_init h
  have hj : c.shared.pool.joined = true := by
    obtain ⟨l, hl, k, hk⟩ := hret
    exact ThreadPool.joined_of_returned hpool ⟨(l.1, .leave k), mem_poolLog.mpr (hk ▸ hl), k, rfl⟩
  have hw := (ThreadPool.exited_of_joined hW hpool hj).2
  have hidle : ∀ i, ((toPool capacity).config c).pc (.inr i) = .idle := fun i => by
    show ClientPc.place (c.pc (.inr i)) = .idle
    rcases hi i with hp | ⟨p, hp⟩ <;> rw [hp] <;> rfl
  have hsent : ∀ i, ClientPc.unsent (c.pc (.inr i)) = 0 := fun i => by
    rcases hi i with hp | ⟨p, hp⟩ <;> rw [hp] <;> rfl
  -- with no `submit` under way, every id given out has reached the pool
  have hperm : ((ThreadPool.submitted (poolLog log)).map (·.id)).Perm (assigned log) := by
    simpa [assigned, Function.comp_def] using (submitted_perm h hsent).map Prod.fst
  have hlen : (ThreadPool.submitted (poolLog log)).length = (assigned log).length := by
    simpa using hperm.length_eq
  obtain ⟨hnext, hids⟩ := assigned_eq h
  have hcount : submitted_count c.shared = (assigned log).length := by
    rw [submitted_count, hnext]
    change (((assigned log).length + 1) % 2 ^ 64 + (2 ^ 64 - 1)) % 2 ^ 64 = (assigned log).length
    omega
  -- the ids have not wrapped
  have hsucc : assigned log = (List.range (assigned log).length).map (· + 1) := by
    refine hids.trans (List.map_congr_left fun k hk => Nat.mod_eq_of_lt ?_)
    have := List.mem_range.mp hk
    omega
  obtain ⟨h1, h2, h3, h4, h5⟩ := ThreadPool.summarize_settled hW hpool hidle hw (by omega)
    (s := summarize c.shared.pool.merged (ThreadPool.rejected_count c.shared.pool)) rfl
  have hall : (ThreadPool.ids c.shared.pool).Perm (assigned log) :=
    (ThreadPool.ids_perm hW hpool hidle hw).trans hperm
  refine ⟨_, ?_, h1, h2, h3, h4, by rw [h5, hlen, hcount], ?_, ?_, ?_⟩
  · rw [summary, ThreadPool.collect_samples_of_joined hj]
    rfl
  · have hf := congrArg List.length (ThreadPool.futures_of_submitted hW hpool hidle hw)
    have hp := congrArg List.length (ThreadPool.promises_of_submitted hpool)
    simp only [List.length_map, List.length_range] at hf hp
    exact hf.trans hp
  · rw [hall.nodup_iff, hsucc]
    exact List.nodup_range.map (add_left_injective 1)
  · intro k
    rw [hall.mem_iff, hsucc, hcount]
    simp only [List.mem_map, List.mem_range]
    constructor
    · rintro ⟨j, hj, rfl⟩
      omega
    · rintro ⟨hk, hk'⟩
      exact ⟨k - 1, by omega, Nat.sub_add_cancel hk⟩

/-- The choices of a thread of the pool, made by a thread of the engine. -/
def ofPool (l : Thread W ι × ThreadPool.Act W ι) : List (Thread W ι × Act W ι) :=
  match l.2 with
  | .submit _ task submitted => [(l.1, .assign task), (l.1, .submit submitted)]
  | a => [(l.1, .pool a)]

/-- The run of the abort, through the engine. -/
def abortRun : List (Thread 1 (Fin 2) × Event 1) × System 1 (Fin 2) :=
  (play (act 1) (ThreadPool.abortSchedule.flatMap ofPool) init).get rfl

theorem accounting_agrees_abortRun :
    ∃ s, summary abortRun.2.shared = .ok s ∧ s.succeeded = 1 ∧ s.rejected = 2 ∧ s.total = 3 := by
  obtain ⟨s, hs, h1, -, h3, -, h5, -⟩ := accounting_agrees (c := abortRun.2) (by decide)
    (play_run act_sound rfl : Run (rules 1) init abortRun.1 abortRun.2) (by decide)
    ⟨(.inr 1, .pool (.leave (.shutdown_now [⟨2, ⟨.returns⟩, 6, 1⟩]))), List.mem_of_getLast? rfl, _, rfl⟩
    fun i => .inl (by fin_cases i <;> rfl)
  exact ⟨s, hs, h1, h3, h5⟩

end Accounts

end Engine

end TaskEngine
