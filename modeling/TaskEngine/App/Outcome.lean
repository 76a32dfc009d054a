import TaskEngine.App.Model
import TaskEngine.Engine.Accounting

/-!
# TaskEngine.App.Outcome — the summary and the exit code of a whole run

Where the main thread is tells what it has submitted, whether the flag was read set, that nothing was
refused before the shutdown, and later that the workers are joined (`controlled`).  With the accounts
of the engine this gives the counts at the moment `summary` returns (`settled_outcome`), and so the
exit code.
-/

namespace TaskEngine

open Interleaving

namespace App

variable {W : ℕ}

/-! ## The tasks that fail -/

section Failures

/-- The multiples of `fail_every` in `1, …, n`. -/
def multiples (fail_every n : ℕ) : Finset ℕ := (Finset.Icc 1 n).filter (fail_every ∣ ·)

theorem card_multiples (fail_every n : ℕ) : (multiples fail_every n).card = n / fail_every :=
  Nat.Ioc_filter_dvd_card_eq_div n fail_every

theorem card_multiples_succ (fail_every n : ℕ) :
    (multiples fail_every (n + 1)).card =
      (multiples fail_every n).card + if fail_every ∣ n + 1 then 1 else 0 := by
  rw [card_multiples, card_multiples, Nat.succ_div]

/-- `make_task` injects the failure into the tasks counted `fail_every`, `2 * fail_every`, … -/
theorem make_task_throws {options : Options} {index : ℕ} (hi : index + 1 < 2 ^ 64) :
    (make_task options index).execute ≠ .returns ↔ options.fail_every ∣ index + 1 := by
  rw [make_task, Nat.mod_eq_of_lt hi]
  split_ifs with h
  · simp [FailingTask, Nat.dvd_of_mod_eq_zero h.2]
  · refine iff_of_false (by simp) fun hd => h ⟨?_, Nat.mod_eq_zero_of_dvd hd⟩
    rintro h0
    rw [h0, zero_dvd_iff] at hd
    omega

/-- Of the first `n` tasks, those that throw are counted by the multiples. -/
theorem countP_make_task {options : Options} {n : ℕ} (hn : n < 2 ^ 64) :
    ((List.range n).map (make_task options)).countP (fun task => task.execute ≠ .returns) =
      (multiples options.fail_every n).card := by
  induction n with
  | zero => rfl
  | succ n ih =>
    rw [List.range_succ, List.map_append, List.countP_append, ih (by omega), card_multiples_succ]
    simp [List.countP_cons, make_task_throws hn]

end Failures

/-! ## The history of a run -/

section History

/-- The task handed to `engine.submit` by a step. -/
def Event.made : Event W → List Task
  | .engine (.assign _ task) => [task]
  | _ => []

/-- The second reading of the flag. -/
def Event.reading : Event W → List Bool
  | .read interrupted => [interrupted]
  | _ => []

attribute [simp] Event.made.eq_1 Event.made.eq_2 Event.reading.eq_1 Event.reading.eq_2

/-- The tasks submitted, in their order. -/
abbrev made (log : List (Thread W Client × Event W)) : List Task := collect Event.made log

/-- What the flag was found to be after the loop. -/
abbrev readings (log : List (Thread W Client × Event W)) : List Bool := collect Event.reading log

/-- The steps of the pool in a log. -/
def poolLog (log : List (Thread W Client × Event W)) : List (Thread W Client × ThreadPool.Event W) :=
  Engine.poolLog (engineLog log)

@[simp] theorem poolLog_nil : poolLog ([] : List (Thread W Client × Event W)) = [] := rfl

@[simp] theorem poolLog_append (l₁ l₂ : List (Thread W Client × Event W)) :
    poolLog (l₁ ++ l₂) = poolLog l₁ ++ poolLog l₂ := by
  simp [poolLog]

/-- The main thread has submitted its first `n` tasks. -/
structure Sent (options : Options) (log : List (Thread W Client × Event W)) (n : ℕ) : Prop where
  made_eq : made log = (List.range n).map (make_task options)
  le : n ≤ options.tasks

/-- Nothing has closed the queue. -/
def Unclosed (log : List (Thread W Client × Event W)) : Prop :=
  ∀ l ∈ poolLog log, l.2.closing = false

/-- The submissions are over, and the flag was read as `interrupted`; all were accepted, and only an
interrupted run calls `shutdown_now`. -/
structure Submitted (options : Options) (log : List (Thread W Client × Event W)) (interrupted : Bool) :
    Prop where
  sent : ∃ n, Sent options log n ∧ (interrupted = false → n = options.tasks)
  readings_eq : readings log = [interrupted]
  accepted : ThreadPool.refused (poolLog log) = []
  drains : interrupted = false → ∀ l ∈ poolLog log, l.2 ≠ .shutdown_now

/-- The flag was not set after the loop: what `run` reports, and the code. -/
structure Completed (options : Options) (log : List (Thread W Client × Event W)) (code : ℕ)
    (s : RunSummary) : Prop where
  unset : readings log = [false]
  submitted : made log = (List.range options.tasks).map (make_task options)
  total : s.total = options.tasks
  failed : s.failed = options.tasks / options.fail_every
  rejected : s.rejected = 0
  succeeded : s.succeeded = options.tasks - s.failed
  code_eq : code = if s.failed = 0 then kExitSuccess else kExitTaskFailure

/-- The flag was set after the loop. -/
structure Interrupted (options : Options) (log : List (Thread W Client × Event W)) (code : ℕ)
    (s : RunSummary) : Prop where
  set : readings log = [true]
  total : s.total = (made log).length
  le : s.total ≤ options.tasks
  balance : s.succeeded + s.failed + s.rejected = s.total
  failed_le : s.failed ≤ (multiples options.fail_every s.total).card
  code_eq : code = kExitTaskFailure

/-- What a run comes to. -/
def Outcome (options : Options) (log : List (Thread W Client × Event W)) (code : ℕ)
    (summary : Option RunSummary) : Prop :=
  ∃ s, summary = some s ∧ (Completed options log code s ∨ Interrupted options log code s)

end History

/-! ## The main thread -/

section Control

/-- In `submit`, or outside of all calls. -/
def submits : Engine.ClientPc → Bool
  | .assigned _ _ | .pool .idle | .pool (.pushing _) | .pool (.counting _) => true
  | _ => false

/-- In a shutdown call, or outside of all calls. -/
def stops : Engine.ClientPc → Bool
  | .pool .idle | .pool (.closing _ _) | .pool (.draining _) | .pool (.discarding _ _ _)
  | .pool (.joining _ _) => true
  | _ => false

/-- What the place of the main thread says of the run so far. -/
def MainPc.Controls (options : Options) (log : List (Thread W Client × Event W)) (m : Process W) :
    MainPc → Prop
  | ⟨.loop n, p⟩ => Sent options log n ∧ readings log = [] ∧ Unclosed log ∧ submits p = true
  | ⟨.body n, p⟩ =>
    Sent options log n ∧ readings log = [] ∧ Unclosed log ∧ p = .pool .idle ∧ n < options.tasks
  | ⟨.after n, p⟩ =>
    Sent options log n ∧ readings log = [] ∧ Unclosed log ∧ p = .pool .idle ∧
      (m.interrupted = false → n = options.tasks)
  | ⟨.stop interrupted, p⟩ => Submitted options log interrupted ∧ Unclosed log ∧ p = .pool .idle
  | ⟨.stopped interrupted, p⟩ =>
    Submitted options log interrupted ∧ stops p = true ∧
      (p = .pool .idle → m.engine.pool.joined = true)
  | ⟨.summing interrupted, p⟩ =>
    Submitted options log interrupted ∧ m.engine.pool.joined = true ∧
      ∃ q, p = .summing q ∧ q.Agrees m.engine
  | ⟨.leaving code summary, p⟩ => Outcome options log code summary ∧ p = .pool .idle
  | ⟨.destroying code summary, p⟩ => Outcome options log code summary ∧ stops p = true
  | ⟨.exited code summary, _⟩ => Outcome options log code summary

/-- A step that neither submits, nor reads the flag, nor touches the closing of the queue. -/
structure Quiet (l : Thread W Client × Event W) : Prop where
  made : l.2.made = []
  reading : l.2.reading = []
  closing : ∀ l' ∈ poolLog [l], l'.2.closing = false

variable {options : Options} {log : List (Thread W Client × Event W)}
  {l : Thread W Client × Event W} {n : ℕ}

theorem poolLog_unseen {l : Thread W Client × Event W}
    (hl : l.2.engine?.bind Engine.Event.pool? = none) : poolLog [l] = [] := by
  obtain ⟨t, ev⟩ := l
  cases ev with
  | engine ev =>
    cases ev with
    | pool ev => cases hl
    | _ => rfl
  | _ => rfl

theorem Sent.snoc (h : Sent options log n) (hl : l.2.made = []) : Sent options (log ++ [l]) n :=
  ⟨by simpa [hl] using h.made_eq, h.le⟩

theorem Unclosed.snoc (h : Unclosed log) (hl : ∀ l' ∈ poolLog [l], l'.2.closing = false) :
    Unclosed (log ++ [l]) := by
  intro l' hl'
  rw [poolLog_append] at hl'
  exact (List.mem_append.mp hl').elim (h l') (hl l')

theorem Unclosed.unseen (h : Unclosed log) (hl : l.2.engine?.bind Engine.Event.pool? = none) :
    Unclosed (log ++ [l]) :=
  h.snoc fun l' hl' => by rw [poolLog_unseen hl] at hl'; cases hl'

theorem Submitted.snoc {interrupted : Bool} (h : Submitted options log interrupted) (hl : l.2.made = [])
    (hr : l.2.reading = []) (href : ThreadPool.refused (poolLog [l]) = [])
    (hnow : interrupted = false → ∀ l' ∈ poolLog [l], l'.2 ≠ .shutdown_now) :
    Submitted options (log ++ [l]) interrupted where
  sent := by
    obtain ⟨n, hn, hall⟩ := h.sent
    exact ⟨n, hn.snoc hl, hall⟩
  readings_eq := by simpa [hr] using h.readings_eq
  accepted := by
    rw [poolLog_append, ThreadPool.refused, collect_append]
    exact List.append_eq_nil_iff.mpr ⟨h.accepted, href⟩
  drains hi l' hl' := by
    rw [poolLog_append] at hl'
    exact (List.mem_append.mp hl').elim (h.drains hi l') (hnow hi l')

theorem Submitted.quiet {interrupted : Bool} (h : Submitted options log interrupted) (hl : Quiet l)
    (href : ThreadPool.refused (poolLog [l]) = []) : Submitted options (log ++ [l]) interrupted :=
  h.snoc hl.made hl.reading href fun _ l' hl' hnow => by
    have := hl.closing l' hl'
    rw [hnow] at this
    cases this

theorem Submitted.unseen {interrupted : Bool} (h : Submitted options log interrupted)
    (hl : l.2.engine?.bind Engine.Event.pool? = none) (hm : l.2.made = []) (hr : l.2.reading = []) :
    Submitted options (log ++ [l]) interrupted :=
  h.snoc hm hr (by rw [poolLog_unseen hl]; rfl) fun _ l' hl' => by
    rw [poolLog_unseen hl] at hl'
    cases hl'

theorem Outcome.snoc {code : ℕ} {summary : Option RunSummary} (h : Outcome options log code summary)
    (hl : l.2.made = []) (hr : l.2.reading = []) : Outcome options (log ++ [l]) code summary := by
  obtain ⟨s, hs, h⟩ := h
  have hmade : made (log ++ [l]) = made log := by simp [hl]
  have hread : readings (log ++ [l]) = readings log := by simp [hr]
  refine ⟨s, hs, h.imp ?_ ?_⟩
  · intro h
    exact ⟨hread.trans h.unset, hmade.trans h.submitted, h.total, h.failed, h.rejected, h.succeeded, h.code_eq⟩
  · intro h
    exact ⟨hread.trans h.set, hmade ▸ h.total, h.le, h.balance, h.failed_le, h.code_eq⟩

/-- A worker takes no part in the closing. -/
theorem worker_quiet {w : Fin W} {m m' : Process W} {p p' : ThreadPool.WorkerPc} {ev : Event W}
    (h : WorkerRule w m p ev m' p') :
    Quiet ((.inl w, ev) : Thread W Client × Event W) ∧
      ThreadPool.refused (poolLog [((.inl w, ev) : Thread W Client × Event W)]) = [] := by
  cases h with
  | engine h =>
    cases h with
    | @pool ev _ _ h =>
      have hlog : poolLog [((.inl w, .engine (.pool ev)) : Thread W Client × Event W)] =
          [(.inl w, ev)] := rfl
      have hflow := h.flow
      refine ⟨⟨rfl, rfl, ?_⟩, by rw [hlog]; simpa using hflow.2.2.2.1⟩
      intro l' hl'
      rw [hlog, List.mem_singleton] at hl'
      subst hl'
      cases h <;> rfl

variable {capacity : ℕ} {m m' : Engine W Client} {p p' : Engine.ClientPc} {ev : Engine.Event W}

/-- Neither does a call once it has been made. -/
theorem call_quiet (h : Engine.ClientRule capacity .main m p ev m' p') (hp : p ≠ .pool .idle) :
    Quiet ((.inr .main, .engine ev) : Thread W Client × Event W) := by
  cases h with
  | assign _ _ => exact absurd rfl hp
  | summary _ => exact absurd rfl hp
  | submit _ _ _ =>
    refine ⟨rfl, rfl, ?_⟩
    intro l' hl'
    rw [List.mem_singleton.mp (show l' ∈ [(Sum.inr Client.main, ThreadPool.Event.submit _)] from hl')]
    rfl
  | @pool _ ev _ _ _ h =>
    refine ⟨rfl, rfl, ?_⟩
    intro l' hl'
    rw [List.mem_singleton.mp (show l' ∈ [(Sum.inr Client.main, ev)] from hl')]
    cases h with
    | shutdown _ => exact absurd rfl hp
    | destructor _ => exact absurd rfl hp
    | shutdown_now _ => exact absurd rfl hp
    | join h => cases h <;> rfl
    | _ => rfl
  | sum h => cases h <;> exact ⟨rfl, rfl, fun l' hl' => by cases hl'⟩
  | summarized => exact ⟨rfl, rfl, fun l' hl' => by cases hl'⟩

theorem submits_step (h : Engine.ClientRule capacity .main m p ev m' p') (hp : p ≠ .pool .idle)
    (hs : submits p = true) : submits p' = true := by
  cases h with
  | assign _ _ => exact absurd rfl hp
  | summary _ => exact absurd rfl hp
  | submit _ _ h => cases h; rfl
  | pool _ h =>
    cases h with
    | submit _ _ _ => exact absurd rfl hp
    | shutdown _ => exact absurd rfl hp
    | destructor _ => exact absurd rfl hp
    | shutdown_now _ => exact absurd rfl hp
    | _ => first | rfl | cases hs
  | sum h => cases hs
  | summarized => cases hs

/-- A shutdown call goes on to its return, past the join. -/
theorem stops_step (h : Engine.ClientRule capacity .main m p ev m' p') (hp : p ≠ .pool .idle)
    (hs : stops p = true) :
    stops p' = true ∧ (p' = .pool .idle → ∃ k, ev = .pool (.leave k)) ∧
      ThreadPool.refused (poolLog [((.inr .main, .engine ev) : Thread W Client × Event W)]) = [] := by
  cases h with
  | assign _ _ => exact absurd rfl hp
  | summary _ => exact absurd rfl hp
  | submit _ _ h => cases hs
  | @pool _ ev _ _ _ h =>
    have hlog : poolLog [((.inr .main, .engine (.pool ev)) : Thread W Client × Event W)] =
        [(.inr .main, ev)] := rfl
    rw [hlog]
    cases h with
    | submit _ _ _ => exact absurd rfl hp
    | shutdown _ => exact absurd rfl hp
    | destructor _ => exact absurd rfl hp
    | shutdown_now _ => exact absurd rfl hp
    | push _ => cases hs
    | accept => cases hs
    | reject _ => cases hs
    | refuse => cases hs
    | leave => exact ⟨rfl, fun _ => ⟨_, rfl⟩, rfl⟩
    | close h => exact ⟨rfl, nofun, by simp [h.flow]⟩
    | drain h => exact ⟨rfl, nofun, by simp [h.flow]⟩
    | join h => exact ⟨rfl, nofun, by cases h <;> rfl⟩
    | _ => exact ⟨rfl, nofun, rfl⟩
  | sum h => cases hs
  | summarized => cases hs

end Control

/-! ## The accounts of a run -/

section Accounts

/-- The pool of the process. -/
abbrev pool (options : Options) (c : System W) : ThreadPool.System W Client :=
  (Engine.toPool options.queue_capacity).config ((toEngine options).config c)

variable {options : Options} {c : System W} {log : List (Thread W Client × Event W)}

theorem pool_run (h : Run (rules options) init log c) :
    Run (ThreadPool.rules options.queue_capacity) ThreadPool.init (poolLog log) (pool options c) :=
  Engine.pool_run_init (engine_run h)

/-- The tasks submitted are those that were given ids. -/
theorem made_eq_assignments (options : Options) (log : List (Thread W Client × Event W)) :
    made log = (Engine.assignments (engineLog log)).map Prod.snd := by
  rw [map_collect]
  refine ((toEngine options).collect_log ?_ log).symm
  intro ev
  cases ev with
  | engine ev => cases ev <;> rfl
  | _ => rfl

/-- With no call of the pool under way, the pool has been handed the tasks submitted. -/
theorem submitted_perm (h : Run (rules options) init log c) {q : Engine.SummaryPc}
    (hq : (c.pc (.inr .main)).call = .summing q) :
    ((ThreadPool.submitted (poolLog log)).map (·.task)).Perm (made log) := by
  have hunsent : ∀ i, Engine.ClientPc.unsent (((toEngine options).config c).pc (.inr i)) = 0 := by
    rintro (_ | _)
    · show Engine.ClientPc.unsent (c.pc (.inr .main)).call = 0
      rw [hq]
      rfl
    · rfl
  rw [made_eq_assignments options]
  have hperm := (Engine.submitted_perm (engine_run h) hunsent).map Prod.snd
  rw [List.map_map] at hperm
  exact hperm

/-- What `summary` counts once the workers are joined: a failure for each task run that throws. -/
theorem settled (hW : 0 < W) (h : Run (rules options) init log c) {q : Engine.SummaryPc}
    (hq : (c.pc (.inr .main)).call = .summing q) (hj : c.shared.engine.pool.joined = true)
    (hn : (made log).length < 2 ^ 64) {s : RunSummary} (hs : Engine.summary c.shared.engine = .ok s) :
    s.total = (made log).length ∧ s.succeeded + s.failed + s.rejected = s.total ∧
      s.failed ≤ (made log).countP (fun task => task.execute ≠ .returns) ∧
      (ThreadPool.drained (poolLog log) = [] → ThreadPool.refused (poolLog log) = [] →
        s.rejected = 0 ∧ s.failed = (made log).countP fun task => task.execute ≠ .returns) := by
  have hpool := pool_run h
  have hi : ∀ i, (pool options c).pc (.inr i) = .idle := by
    rintro (_ | _)
    · show Engine.ClientPc.place (c.pc (.inr .main)).call = .idle
      rw [hq]
      rfl
    · rfl
  have hw := (ThreadPool.exited_of_joined hW hpool hj).2
  have hperm := submitted_perm h hq
  have hlen : (ThreadPool.submitted (poolLog log)).length = (made log).length := by
    simpa using hperm.length_eq
  rw [Engine.summary, ThreadPool.collect_samples_of_joined hj] at hs
  cases hs
  obtain ⟨-, hfail, hrej, hbal, htotal⟩ :=
    ThreadPool.summarize_settled hW hpool hi hw (by omega)
      (s := summarize c.shared.engine.pool.merged (ThreadPool.rejected_count c.shared.engine.pool)) rfl
  rw [ThreadPool.countP_futures hW hpool hi hw] at hfail hrej
  -- the samples that failed are the envelopes popped whose task throws
  have hpopped := congrArg (Multiset.countP fun d : TaskId × TaskState => d.2 = .Failed)
    (ThreadPool.samples_eq hpool)
  rw [ThreadPool.reached_of_exited hpool hw, Multiset.map_coe, Multiset.map_coe, Multiset.coe_countP,
    Multiset.coe_countP, List.countP_map, List.countP_map] at hpopped
  have hall := congrArg (Multiset.countP fun e : TaskEnvelope => e.outcome = .Failed)
    (ThreadPool.submitted_settled hW hpool hi hw)
  rw [Multiset.countP_add, Multiset.coe_countP, Multiset.coe_countP] at hall
  have hmade : (ThreadPool.submitted (poolLog log)).countP (fun e => e.outcome = .Failed) =
      (made log).countP fun task => task.execute ≠ .returns := by
    rw [← hperm.countP_eq, List.countP_map]
    exact List.countP_congr fun e _ => by simp [TaskEnvelope.outcome_eq_failed]
  simp only [reduceCtorEq, if_false, if_true, add_zero] at hfail hrej
  refine ⟨htotal.trans hlen, hbal.symm, ?_, fun hd hr => ⟨?_, ?_⟩⟩
  · rw [hfail, ← hmade, hall]
    exact hpopped.trans_le (Nat.le_add_right _ _)
  · rw [hrej, (ThreadPool.merged_countP hpool).2, hd, hr]
    rfl
  · rw [hd, hr] at hall
    rw [hfail, ← hmade, hall]
    exact hpopped

theorem Sent.made_length {n : ℕ} (h : Sent options log n) : (made log).length = n := by
  simp [h.made_eq]

theorem Sent.failures {n : ℕ} (h : Sent options log n) :
    (made log).countP (fun task => task.execute ≠ .returns) = (multiples options.fail_every n).card := by
  rw [h.made_eq, countP_make_task (h.le.trans_lt options.tasks_lt)]

/-- The summary of a run in which the flag was not set after the loop, and its exit code. -/
theorem Submitted.completed (hW : 0 < W) (h : Run (rules options) init log c) {q : Engine.SummaryPc}
    (hsub : Submitted options log false) (hq : (c.pc (.inr .main)).call = .summing q)
    (hj : c.shared.engine.pool.joined = true) {s : RunSummary}
    (hs : Engine.summary c.shared.engine = .ok s) :
    Completed options log (exit_code_for s.failed s.rejected) s := by
  obtain ⟨n, hsent, hall⟩ := hsub.sent
  obtain rfl := hall rfl
  have hlen := hsent.made_length
  obtain ⟨htotal, hbal, -, hcounts⟩ :=
    settled hW h hq hj (hlen.trans_lt options.tasks_lt) hs
  have hdrained := ThreadPool.drained_of_no_abort (pool_run h) (hsub.drains rfl)
  obtain ⟨hrej, hfail⟩ := hcounts hdrained hsub.accepted
  refine ⟨hsub.readings_eq, hsent.made_eq, htotal.trans hlen, ?_, hrej, by omega, ?_⟩
  · rw [hfail, hsent.failures, card_multiples]
  · simp [exit_code_for, hrej]

/-- The summary of a run in which it was. -/
theorem Submitted.interrupted (hW : 0 < W) (h : Run (rules options) init log c) {q : Engine.SummaryPc}
    (hsub : Submitted options log true) (hq : (c.pc (.inr .main)).call = .summing q)
    (hj : c.shared.engine.pool.joined = true) {s : RunSummary}
    (hs : Engine.summary c.shared.engine = .ok s) : Interrupted options log kExitTaskFailure s := by
  obtain ⟨n, hsent, -⟩ := hsub.sent
  have hlen := hsent.made_length
  obtain ⟨htotal, hbal, hfail, -⟩ :=
    settled hW h hq hj (by have := hsent.le; have := options.tasks_lt; omega) hs
  rw [hsent.failures, ← hlen, ← htotal] at hfail
  exact ⟨hsub.readings_eq, htotal, by rw [htotal, hlen]; exact hsent.le, hbal, hfail, rfl⟩

end Accounts

/-! ## The run of the main thread -/

section Controlled

variable {options : Options} {c d : System W} {log : List (Thread W Client × Event W)}

/-- A quiet step of another thread tells the main thread nothing. -/
theorem MainPc.Controls.snoc {q : MainPc} {m m' : Process W} {l : Thread W Client × Event W}
    (hq : q.Controls options log m) (hl : Quiet l) (href : ThreadPool.refused (poolLog [l]) = [])
    (hf : m.interrupted = true → m'.interrupted = true)
    (he : m.engine.pool.joined = true → m'.engine = m.engine) :
    q.Controls options (log ++ [l]) m' := by
  have hread : readings log = [] → readings (log ++ [l]) = [] := fun h => by simp [h, hl.reading]
  obtain ⟨frame, call⟩ := q
  cases frame with
  | loop n =>
    obtain ⟨hsent, hr, hopen, hp⟩ := hq
    exact ⟨hsent.snoc hl.made, hread hr, hopen.snoc hl.closing, hp⟩
  | body n =>
    obtain ⟨hsent, hr, hopen, hp⟩ := hq
    exact ⟨hsent.snoc hl.made, hread hr, hopen.snoc hl.closing, hp⟩
  | after n =>
    obtain ⟨hsent, hr, hopen, hp, hall⟩ := hq
    refine ⟨hsent.snoc hl.made, hread hr, hopen.snoc hl.closing, hp, fun h => hall ?_⟩
    -- a flag that is unset now was unset before
    by_contra hi
    rw [hf (by simpa using hi)] at h
    cases h
  | stop interrupted =>
    obtain ⟨hsub, hopen, hp⟩ := hq
    exact ⟨hsub.quiet hl href, hopen.snoc hl.closing, hp⟩
  | stopped interrupted =>
    obtain ⟨hsub, hp, hj⟩ := hq
    exact ⟨hsub.quiet hl href, hp, fun hi => he (hj hi) ▸ hj hi⟩
  | summing interrupted =>
    obtain ⟨hsub, hj, q, hp, ha⟩ := hq
    exact ⟨hsub.quiet hl href, he hj ▸ hj, q, hp, he hj ▸ ha⟩
  | leaving code summary => exact ⟨hq.1.snoc hl.made hl.reading, hq.2⟩
  | destroying code summary => exact ⟨hq.1.snoc hl.made hl.reading, hq.2⟩
  | exited code summary => exact Outcome.snoc hq hl.made hl.reading

/-- Once the workers are joined, none of them takes a step. -/
theorem joined_still (h : Run (rules options) init log d) (hj : d.shared.engine.pool.joined = true)
    {w : Fin W} {ev : Event W} {m : Process W} {p : ThreadPool.WorkerPc} :
    ¬ WorkerRule w d.shared (d.pc (.inl w)) ev m p := by
  intro hr
  rw [show d.pc (.inl w) = .exited from (ThreadPool.finished_of_joined (pool_run h) hj w).2] at hr
  cases hr with
  | engine hr =>
    cases hr with
    | pool hr => cases hr

theorem joined_of_leave {k : ThreadPool.Caller}
    (h : Run (rules options) init (log ++ [(.inr .main, .engine (.pool (.leave k)))]) c) :
    c.shared.engine.pool.joined = true := by
  refine ThreadPool.joined_of_returned (pool_run h) ⟨(.inr .main, .leave k), ?_, k, rfl⟩
  rw [poolLog_append]
  exact List.mem_append_right _
    (show _ ∈ [(Sum.inr Client.main, ThreadPool.Event.leave k)] from List.mem_singleton.mpr rfl)

theorem call_controls {m : Process W} {frame : Frame} {p p' : Engine.ClientPc} {ev : Engine.Event W}
    {engine : Engine W Client} (hp : p ≠ .pool .idle) (hev : ∀ result, ev ≠ .summarized result)
    (hr : Engine.ClientRule options.queue_capacity .main m.engine p ev engine p')
    (hj : ∀ k, ev = .pool (.leave k) → engine.pool.joined = true)
    (hc : MainPc.Controls options log m ⟨frame, p⟩) :
    MainPc.Controls options (log ++ [(.inr .main, .engine ev)]) { m with engine := engine } ⟨frame, p'⟩ := by
  have hl := call_quiet hr hp
  have hread : readings log = [] → readings (log ++ [(.inr .main, .engine ev)]) = [] :=
    fun h => by simp [h]
  cases frame with
  | loop n =>
    obtain ⟨hsent, hr', hopen, hs⟩ := hc
    exact ⟨hsent.snoc hl.made, hread hr', hopen.snoc hl.closing, submits_step hr hp hs⟩
  | body n => exact absurd hc.2.2.2.1 hp
  | after n => exact absurd hc.2.2.2.1 hp
  | stop interrupted => exact absurd hc.2.2 hp
  -- inside the shutdown call; when it returns, the workers have been joined
  | stopped interrupted =>
    obtain ⟨hsub, hs, -⟩ := hc
    obtain ⟨hs', hleave, href⟩ := stops_step hr hp hs
    refine ⟨hsub.quiet hl href, hs', ?_⟩
    intro hi
    obtain ⟨k, hk⟩ := hleave hi
    exact hj k hk
  | summing interrupted =>
    obtain ⟨hsub, hjoined, q, rfl, ha⟩ := hc
    cases hr with
    | sum hr =>
      exact ⟨hsub.quiet hl (by cases hr <;> rfl), hjoined, _, rfl, hr.agrees ha⟩
    | summarized => exact absurd rfl (hev _)
  | leaving code summary => exact absurd hc.2 hp
  | destroying code summary => exact ⟨hc.1.snoc hl.made hl.reading, (stops_step hr hp hc.2).1⟩
  | exited code summary => exact Outcome.snoc hc hl.made hl.reading

/-- After the loop the flag is read, with nothing refused and nothing closed so far. -/
theorem Sent.submitted (h : Run (rules options) init log d) {n : ℕ} (hsent : Sent options log n)
    (hr : readings log = []) (hopen : Unclosed log) {interrupted : Bool}
    (hall : interrupted = false → n = options.tasks) :
    Submitted options (log ++ [(.inr .main, .read interrupted)]) interrupted where
  sent := ⟨n, hsent.snoc rfl, hall⟩
  readings_eq := by simp [hr]
  accepted := by
    rw [poolLog_append, poolLog_unseen rfl, List.append_nil]
    exact (ThreadPool.open_of_no_shutdown (pool_run h) hopen).2
  drains _ l hl hnow := by
    have := hopen.unseen rfl l hl
    rw [hnow] at this
    cases this

theorem MainRule.controls (hW : 0 < W) (h : Run (rules options) init log d) {ev : Event W} {m : Process W}
    {p : MainPc} (hr : MainRule options d.shared (d.pc (.inr .main)) ev m p)
    (hj : ∀ k, ev = .engine (.pool (.leave k)) → m.engine.pool.joined = true)
    (hc : (d.pc (.inr .main)).Controls options log d.shared) :
    p.Controls options (log ++ [(.inr .main, ev)]) m := by
  generalize hd : d.pc (.inr .main) = q at hr hc
  cases hr with
  | poll hn hf =>
    obtain ⟨hsent, hr, hopen, -⟩ := hc
    exact ⟨hsent.snoc rfl, by simp [hr], hopen.unseen rfl, rfl, hn⟩
  | interrupt hn hf =>
    obtain ⟨hsent, hr, hopen, -⟩ := hc
    exact ⟨hsent.snoc rfl, by simp [hr], hopen.unseen rfl, rfl, fun h => by rw [hf] at h; cases h⟩
  | ended hn =>
    obtain ⟨hsent, hr, hopen, -⟩ := hc
    exact ⟨hsent.snoc rfl, by simp [hr], hopen.unseen rfl, rfl, fun _ => le_antisymm hsent.le hn⟩
  | @submit n id engine p h =>
    obtain ⟨hsent, hr, hopen, -, hn⟩ := hc
    cases h with
    | assign _ _ =>
      refine ⟨⟨?_, hn⟩, by simp [hr], hopen.unseen rfl, rfl⟩
      rw [made, collect_append, List.range_succ, List.map_append, ← hsent.made_eq]
      rfl
  -- the second reading: it chooses between `shutdown` and `shutdown_now`
  | read =>
    obtain ⟨hsent, hr, hopen, -, hall⟩ := hc
    exact ⟨hsent.submitted h hr hopen hall, hopen.unseen rfl, rfl⟩
  | shutdown h =>
    obtain ⟨hsub, hopen, -⟩ := hc
    cases h with
    | pool _ h =>
      cases h with
      | shutdown _ =>
        refine ⟨hsub.snoc rfl rfl rfl ?_, rfl, nofun⟩
        intro _ l hl
        rw [List.mem_singleton.mp (show l ∈ [(Sum.inr Client.main, ThreadPool.Event.shutdown .shutdown)] from hl)]
        simp
  | shutdown_now h =>
    obtain ⟨hsub, hopen, -⟩ := hc
    cases h with
    | pool _ h =>
      cases h with
      | shutdown_now _ => exact ⟨hsub.snoc rfl rfl rfl fun h => Bool.noConfusion h, rfl, nofun⟩
  | summary h =>
    obtain ⟨hsub, -, hjoined⟩ := hc
    cases h with
    | summary _ =>
      exact ⟨hsub.unseen rfl rfl rfl, hjoined rfl, _, rfl, by simp [Engine.SummaryPc.Agrees]⟩
  | @summarized interrupted engine s hr =>
    obtain ⟨hsub, hjoined, q, hq, ha⟩ := hc
    cases hq
    cases hr with
    | summarized =>
      have hcall : (d.pc (.inr .main)).call = .summing (.done (.ok s)) := by rw [hd]
      refine ⟨Outcome.snoc ⟨s, rfl, ?_⟩ rfl rfl, rfl⟩
      cases interrupted with
      | false => exact .inl (hsub.completed hW h hcall hjoined ha.symm)
      | true => exact .inr (hsub.interrupted hW h hcall hjoined ha.symm)
  | threw _ =>
    -- `summary` does not throw once the workers are joined
    obtain ⟨-, hjoined, q, hq, ha⟩ := hc
    cases hq
    simp [Engine.SummaryPc.Agrees, Engine.summary, ThreadPool.collect_samples_of_joined hjoined,
      Except.map] at ha
  | destructor h =>
    obtain ⟨hout, -⟩ := hc
    cases h with
    | pool _ h =>
      cases h with
      | destructor _ => exact ⟨hout.snoc rfl rfl, rfl⟩
  | exit => exact hc.1.snoc rfl rfl
  | call hp hev h => exact call_controls hp hev h (fun k hk => hj k (by rw [hk])) hc

/-- **What the place of the main thread says of the run so far.** -/
theorem controlled (hW : 0 < W) (h : Run (rules options) init log c) :
    (c.pc (.inr .main)).Controls options log c.shared := by
  refine h.induct (I := fun log d => (d.pc (.inr .main)).Controls options log d.shared)
    ⟨⟨rfl, Nat.zero_le _⟩, rfl, by simp [Unclosed], rfl⟩ ?_
  intro log d t ev m p hrun hc hr
  rcases t with w | _ | _
  · dsimp only
    rw [Function.update_of_ne (by simp)]
    obtain ⟨hl, href⟩ := worker_quiet (hr : WorkerRule w _ _ _ _ _)
    refine hc.snoc hl href ?_ fun hj => absurd hr (joined_still hrun hj)
    intro hf
    cases (hr : WorkerRule w _ _ _ _ _)
    exact hf
  · have hj : ∀ k, ev = .engine (.pool (.leave k)) → m.engine.pool.joined = true := by
      rintro k rfl
      exact joined_of_leave (hrun.tail (.mk hr))
    simpa using MainRule.controls hW hrun hr hj hc
  · dsimp only
    rw [Function.update_of_ne (by simp)]
    cases (hr : HandlerRule _ _ _) with
    | signal =>
      exact hc.snoc ⟨rfl, rfl, fun l' hl' => by rw [poolLog_unseen rfl] at hl'; cases hl'⟩
        (by rw [poolLog_unseen rfl]; rfl) (fun _ => rfl) fun _ => rfl

/-- **The outcome of a run** that has exited. -/
theorem outcome_of_exited (hW : 0 < W) (h : Run (rules options) init log c) {code : ℕ}
    {summary : Option RunSummary} (hx : (c.pc (.inr .main)).frame = .exited code summary) :
    Outcome options log code summary := by
  have hc := controlled hW h
  generalize c.pc (.inr .main) = p at hc hx
  obtain ⟨frame, call⟩ := p
  obtain rfl : frame = .exited code summary := hx
  exact hc

end Controlled
end App

end TaskEngine
