import TaskEngine.Engine.Accounting
import TaskEngine.Interleaving.Extension

/-!
# TaskEngine.Engine.FailedSubmit — a `submit` that cannot allocate

`submit` takes its id first; then the promise's shared state or a node of the queue's deque may fail to
be allocated, and the exception leaves `submit`.  The queue is then as if the call had not happened
(`submitting_leaves_queue`), the id is gone: nothing under it is recorded or rejected, so the run's
accounts agree with `submitted_count` exactly when no `submit` has thrown (`throwing_submit`).
-/

namespace TaskEngine

open Interleaving

namespace Engine

variable {W : ℕ} {ι : Type}

/-! ## The failures -/

section Failures

/-- The allocation that threw. -/
inductive SubmitFailure
  | envelope
  | push
  deriving DecidableEq

/-- `std::bad_alloc` out of `submit`. -/
inductive SubmitFailureRule (capacity : ℕ) (i : ι) :
    Engine W ι → ClientPc → SubmitFailure → Engine W ι → ClientPc → Prop
  /-- the shared state of the envelope's promise -/
  | envelope {m id task} : SubmitFailureRule capacity i m (.assigned id task) .envelope m (.pool .idle)
  /-- `items_.push_back`, past the wait; the envelope is destroyed with its unset promise -/
  | push {m : Engine W ι} {e} (hc : m.pool.queue.closed = false)
      (hs : m.pool.queue.items.length < capacity) :
      SubmitFailureRule capacity i m (.pool (.pushing (.enter e))) .push
        { m with pool := { m.pool with promises := destroy m.pool.promises e } } (.pool .idle)
  /-- the same for a call that had to wait -/
  | push_resumed [DecidableEq ι] {m : Engine W ι} {e} (hw : .inr i ∉ m.pool.queue.not_full.waiting)
      (hc : m.pool.queue.closed = false) (hs : m.pool.queue.items.length < capacity) :
      SubmitFailureRule capacity i m (.pool (.pushing (.waiting e))) .push
        { m with pool := { m.pool with
          queue := { m.pool.queue with not_full := m.pool.queue.not_full.resume (.inr i) }
          promises := destroy m.pool.promises e } } (.pool .idle)

/-- The failing steps of the threads. -/
def submitFailures (capacity : ℕ) : Rules (Engine W ι) SubmitFailure (Pc (W := W) (ι := ι))
  | .inl _ => fun _ _ _ _ _ => False
  | .inr i => SubmitFailureRule capacity i

variable [DecidableEq ι]

/-- The engine whose `submit` may throw. -/
abbrev throwing (capacity : ℕ) : Rules (Engine W ι) (Event W ⊕ SubmitFailure) (Pc (W := W) (ι := ι)) :=
  (rules capacity).extend (submitFailures capacity)

/-- A failing step, computed. -/
def submitFailAct : (t : Thread W ι) → Engine W ι → Pc t → Option (SubmitFailure × Engine W ι × Pc t)
  | .inr _, m, .assigned _ _ => some (.envelope, m, .pool .idle)
  | _, _, _ => none

omit [DecidableEq ι] in
theorem submitFailAct_sound {capacity : ℕ} (t : Thread W ι) (m : Engine W ι) (p : Pc t) (ev : SubmitFailure)
    (m' : Engine W ι) (p' : Pc t) (h : submitFailAct t m p = some (ev, m', p')) :
    submitFailures capacity t m p ev m' p' := by
  unfold submitFailAct at h
  split at h
  · cases h
    exact .envelope
  · cases h

end Failures

/-! ## What a failure leaves alone -/

section Frames

/-- What a failure leaves as it was. -/
structure LeftAlone (m m' : Engine W ι) : Prop where
  items : m'.pool.queue.items = m.pool.queue.items
  closed : m'.pool.queue.closed = m.pool.queue.closed
  samples : m'.pool.samples = m.pool.samples
  rejected : m'.pool.rejected = m.pool.rejected
  next_id : m'.next_id = m.next_id

theorem SubmitFailureRule.leftAlone {capacity : ℕ} {i : ι} {m m' : Engine W ι} {p p' : ClientPc}
    {ev : SubmitFailure} (h : SubmitFailureRule capacity i m p ev m' p') : LeftAlone m m' := by
  cases h <;> exact ⟨rfl, rfl, rfl, rfl, rfl⟩

/-- Inside `submit`, up to the decision of the push. -/
def ClientPc.submitting : ClientPc → Bool
  | .assigned _ _ | .pool (.pushing (.enter _)) | .pool (.pushing (.waiting _)) => true
  | _ => false

attribute [simp] ClientPc.submitting.eq_1 ClientPc.submitting.eq_2 ClientPc.submitting.eq_3

/-- What a step inserts into the queue. -/
def inserted (ev : Event W ⊕ SubmitFailure) : List TaskEnvelope :=
  ev.elim (fun ev => ev.pool?.elim [] ThreadPool.Event.pushed) fun _ => []

variable [DecidableEq ι] {capacity : ℕ} {c d : System W ι}

/-- A step of a `submit` that does not insert, a throw included, leaves the queue as it is. -/
theorem submitting_leaves_queue {i : ι} {ev : Event W ⊕ SubmitFailure}
    (hs : Step (throwing capacity) c (.inr i, ev) d) (hp : (c.pc (.inr i)).submitting = true)
    (hev : inserted ev = []) :
    d.shared.pool.queue.items = c.shared.pool.queue.items ∧
      d.shared.pool.queue.closed = c.shared.pool.queue.closed := by
  cases hs with
  | mk hr =>
    generalize c.pc (.inr i) = p at hr hp
    cases (hr : Extended _ _ _ _ _ _ _ _) with
    | further hr =>
      have hl := (show SubmitFailureRule capacity i _ _ _ _ _ from hr).leftAlone
      exact ⟨hl.items, hl.closed⟩
    | base hr =>
      cases (hr : ClientRule capacity i _ _ _ _ _) with
      | submit _ _ h => cases h; exact ⟨rfl, rfl⟩
      | pool _ h =>
        cases h with
        | push h =>
          cases h with
          | enter h =>
            cases BlockingQueue.pushSection_cases h with
            | insert _ _ => cases hev
            | _ => exact ⟨rfl, rfl⟩
          | resume _ h =>
            cases BlockingQueue.pushSection_cases h with
            | insert _ _ => cases hev
            | _ => exact ⟨rfl, rfl⟩
          | spurious _ => exact ⟨rfl, rfl⟩
          | notify_one _ => cases hp
        | _ => cases hp
      | _ => cases hp

end Frames

/-! ## The accounts with failures -/

section Accounts

/-- The ids that a client has taken and not settled. -/
def ClientPc.unsettled : ClientPc → ℕ
  | .pool p => p.pending.card + (p.refusal .count).card + (p.discards .count).card
  | .assigned _ _ => 1
  | .summing _ => 0

attribute [simp] ClientPc.unsettled.eq_1 ClientPc.unsettled.eq_2 ClientPc.unsettled.eq_3

/-- The rejections that a step counts. -/
def Event.counted (ev : Event W) : ℕ :=
  ev.pool?.elim 0 fun ev => (ev.refusal .count).length + (ev.discarded .count).length

variable [DecidableEq ι] {capacity : ℕ} {c : System W ι} {log : List (Thread W ι × (Event W ⊕ SubmitFailure))}

/-- Every id given out is with a thread, in the queue, in a buffer, counted as rejected or lost. -/
def spending (capacity : ℕ) : Ledger (throwing (W := W) (ι := ι) capacity) ℕ where
  hand
    | .inl _, p => (ThreadPool.WorkerPc.before .record p).card
    | .inr _, p => ClientPc.unsettled p
  store m := m.pool.queue.items.length + m.pool.merged.length
  inflow ev := ev.elim (fun ev => ev.assignment.length) fun _ => 0
  outflow ev := ev.elim Event.counted fun _ => 1
  balance t m p ev m' p' h := by
    have hsettle := (ThreadPool.settling (W := W) (ι := ι) capacity).balance t
    cases (h : Extended _ _ _ _ _ _ _ _) with
    | further h =>
      rcases t with w | i
      · exact h.elim
      · have hl := SubmitFailureRule.leftAlone (i := i) h
        have hm : m'.pool.merged = m.pool.merged := by rw [ThreadPool.merged, hl.samples]; rfl
        rw [hl.items, hm]
        cases (h : SubmitFailureRule capacity i _ _ _ _ _) <;> simp [ClientPc.unsettled] <;> omega
    | base h =>
      rcases t with w | i
      · cases (h : WorkerRule w _ _ _ _ _) with
        | pool h =>
          have hb := hsettle _ _ _ _ _ h
          simp only [ThreadPool.settling, (ThreadPool.WorkerRule.flow h).2.1] at hb
          simpa [Event.counted, Event.pool?] using hb
      · cases (h : ClientRule capacity i _ _ _ _ _) with
        | assign task _ => simp [Event.counted, Event.pool?]; omega
        | submit _ _ h =>
          have hb := hsettle _ _ _ _ _ h
          simp [ThreadPool.settling] at hb
          simp [Event.counted, Event.pool?]
          omega
        | pool hev h =>
          have hb := hsettle _ _ _ _ _ h
          simp only [ThreadPool.settling, hev] at hb
          simpa [Event.counted, Event.pool?] using hb
        | summary _ => simp [Event.counted, Event.pool?]
        | sum h => cases h <;> simp [Event.counted, Event.pool?]
        | summarized => simp [Event.counted, Event.pool?]

/-- The submissions that have thrown. -/
def thrown (log : List (Thread W ι × (Event W ⊕ SubmitFailure))) : ℕ :=
  (log.map fun l => l.2.elim (fun _ => 0) fun _ => 1).sum

/-- The rejections counted. -/
def counted (log : List (Thread W ι × (Event W ⊕ SubmitFailure))) : ℕ :=
  (log.map fun l => l.2.elim Event.counted fun _ => 0).sum

theorem throwing_counters (h : Run (throwing capacity) init log c) :
    c.shared.pool.rejected = counted log % 2 ^ 64 ∧
      c.shared.next_id = ((assigned (baseLog log)).length + 1) % 2 ^ 64 := by
  refine h.induct (I := fun log d => d.shared.pool.rejected = counted log % 2 ^ 64 ∧
    d.shared.next_id = ((assigned (baseLog log)).length + 1) % 2 ^ 64) ⟨rfl, rfl⟩ ?_
  rintro log d t ev m p - ⟨hrej, hnext⟩ hr
  cases (hr : Extended _ _ _ _ _ _ _ _) with
  | @base ev _ _ hr =>
    constructor
    · have hpool := rule_toPool hr
      simp only [counted, List.map_append, List.sum_append, List.map_singleton, List.sum_singleton,
        Sum.elim_inl, Event.counted] at hrej ⊢
      cases hev : ev.pool? with
      | none => rw [hev] at hpool; simpa [hpool.1] using hrej
      | some ev' => rw [hev] at hpool; simpa using ThreadPool.rule_counts hpool hrej
    · rcases rule_assigned hr with ⟨hev, hm⟩ | ⟨hev, hm⟩
      · simpa [assigned, hev, hm] using hnext
      · have hone : ev.assignment.length = 1 := by simpa using congrArg List.length hev
        have hlen : (assigned (baseLog (log ++ [(t, .inl ev)]))).length =
            (assigned (baseLog log)).length + 1 := by simp [assigned, hone]
        rw [hlen, hm, hnext]
        omega
  | further hr =>
    rcases t with w | i
    · exact hr.elim
    · have hl := (show SubmitFailureRule capacity i _ _ _ _ _ from hr).leftAlone
      rw [hl.rejected, hl.next_id]
      exact ⟨by simpa [counted] using hrej, by simpa using hnext⟩

/-- Without a `submit` or a shutdown under way, the samples, the rejections and the throws are at most the
ids given out. -/
theorem settled_le [Fintype ι] (h : Run (throwing capacity) init log c) :
    c.shared.pool.merged.length + counted log + thrown log ≤ (assigned (baseLog log)).length := by
  have hb := (spending capacity).run h
  -- an id is spent on a sample, on a rejection or on a throw
  have hexpense : (spending capacity).expense log = counted log + thrown log := by
    simp only [Ledger.expense, spending, counted, thrown, ← List.sum_map_add]
    exact congrArg List.sum (List.map_congr_left fun l _ => by cases l.2 <;> simp)
  have hincome : (spending capacity).income log = (assigned (baseLog log)).length := by
    simp only [Ledger.income, spending, assigned, List.length_map]
    clear hexpense hb h
    induction log with
    | nil => rfl
    | cons l log ih =>
      have hcons : assignments (baseLog (l :: log)) =
          assignments (baseLog [l]) ++ assignments (baseLog log) := by
        rw [← List.singleton_append, baseLog_append]
        exact collect_append _ _ _
      rw [List.map_cons, List.sum_cons, ih, hcons, List.length_append]
      rcases l with ⟨t, ev | ev⟩ <;> simp
  have hstart : (spending (W := W) (ι := ι) capacity).hands init +
      (spending (W := W) (ι := ι) capacity).store init.shared = 0 := by
    simp [Ledger.hands, spending, init, ThreadPool.fresh, ThreadPool.merged, BlockingQueue.empty]
  have hstore : c.shared.pool.merged.length ≤ (spending capacity).store c.shared :=
    Nat.le_add_left _ _
  rw [hexpense, hincome, hstart] at hb
  omega

/-- The accounts of a run agree: `summary` succeeds with as many tasks as `submitted_count`, and the ids
of the samples with those of the `Rejected` results are `1, …, submitted_count`, each once. -/
structure Accounted (m : Engine W ι) : Prop where
  total : ∃ s, summary m = .ok s ∧ s.total = submitted_count m
  nodup : (ThreadPool.ids m.pool).Nodup
  ids : ∀ k : ℕ, k ∈ ThreadPool.ids m.pool ↔ 1 ≤ k ∧ k ≤ submitted_count m

/-- **A `submit` that throws.**  A step of a `submit` that inserts nothing, a throw included, leaves the
items and the closed flag as they are; and with a shutdown call returned and no `submit` or shutdown call
under way, the accounts agree if and only if no `submit` has thrown. -/
theorem throwing_submit [Fintype ι] (hW : 0 < W) (h : Run (throwing capacity) init log c) :
    (∀ i ev d, Step (throwing capacity) c (.inr i, ev) d → (c.pc (.inr i)).submitting = true →
      inserted ev = [] → d.shared.pool.queue.items = c.shared.pool.queue.items ∧
        d.shared.pool.queue.closed = c.shared.pool.queue.closed) ∧
    ((assigned (baseLog log)).length < 2 ^ 64 → (∃ l ∈ log, ∃ k, l.2 = .inl (.pool (.leave k))) →
      (∀ i, c.pc (.inr i) = .pool .idle ∨ ∃ p, c.pc (.inr i) = .summing p) →
      (Accounted c.shared ↔ ∀ l ∈ log, l.2.isLeft = true)) := by
  refine ⟨fun i ev d => submitting_leaves_queue, fun hn hret hi => ⟨?_, fun hbase => ?_⟩⟩
  · rintro ⟨⟨s, hs, htotal⟩, -, -⟩
    have hle := settled_le h
    obtain ⟨hrej, hnext⟩ := throwing_counters h
    have hcount : submitted_count c.shared = (assigned (baseLog log)).length := by
      rw [submitted_count, hnext]
      change (((assigned (baseLog log)).length + 1) % 2 ^ 64 + (2 ^ 64 - 1)) % 2 ^ 64 =
        (assigned (baseLog log)).length
      omega
    -- the summary counts what the ids given out have come to, so nothing was lost
    have hsum : s.total = (c.shared.pool.merged.length + c.shared.pool.rejected) % 2 ^ 64 := by
      cases hj : c.shared.pool.joined with
      | true =>
        rw [summary, ThreadPool.collect_samples_of_joined hj] at hs
        cases hs
        exact (summarize_counts _ (by rw [ThreadPool.rejected_count]; omega)).1
      | false => simp [summary, ThreadPool.collect_samples, hj, Except.map] at hs
    rw [hsum, hcount] at htotal
    have hnone : thrown log = 0 := by omega
    intro l hl
    rw [thrown, List.sum_eq_zero_iff] at hnone
    have := hnone _ (List.mem_map_of_mem hl)
    rcases l with ⟨t, ev | ev⟩
    · rfl
    · cases this
  · have hrun := h.base hbase
    obtain ⟨l, hl, k, hk⟩ := hret
    obtain ⟨s, hs, -, -, -, -, htotal, -, hnodup, hids⟩ := accounting_agrees hW hrun hn
      ⟨(l.1, .pool (.leave k)), mem_baseLog.mpr (by rw [← hk]; exact hl), k, rfl⟩ hi
    exact ⟨⟨s, hs, htotal⟩, hnodup, hids⟩

/-- A schedule: the client's `submit` throws for want of a shared state, then the client shuts down. -/
def throwingSchedule : List (Thread 1 (Fin 1) × Option (Act 1 (Fin 1))) :=
  [(.inr 0, some (.assign ⟨.returns⟩)), (.inr 0, none), (.inr 0, some (.pool (.shutdown .shutdown))),
   (.inr 0, some (.pool (.queue .lock))), (.inr 0, some (.pool (.queue .lock))),
   (.inr 0, some (.pool (.queue .lock))), (.inr 0, some (.pool .go)), (.inl 0, some (.pool .go)),
   (.inl 0, some (.pool (.queue .lock))), (.inl 0, some (.pool .go)), (.inr 0, some (.pool .go)),
   (.inr 0, some (.pool .go)), (.inr 0, some (.pool .go)), (.inr 0, some (.pool .go))]

/-- Its log, and the configuration after the shutdown. -/
def throwingRun : List (Thread 1 (Fin 1) × (Event 1 ⊕ SubmitFailure)) × System 1 (Fin 1) :=
  (play (extendAct (act 1) submitFailAct) throwingSchedule init).get rfl

theorem throwingRun_run : Run (throwing 1) init throwingRun.1 throwingRun.2 :=
  play_run (extendAct_sound act_sound submitFailAct_sound) rfl

/-- In that run one `submit` has thrown, so its accounts do not agree. -/
theorem throwing_submit_throwingRun : ¬ Accounted throwingRun.2.shared := by
  refine fun hacc => absurd (((throwing_submit (by decide) throwingRun_run).2 (by decide)
    ⟨_, List.mem_of_getLast? rfl, _, rfl⟩ fun i => .inl (by fin_cases i; rfl)).mp hacc) ?_
  decide

/-- **A lost id**: one id was given out, and no result has it. -/
theorem lost_id :
    ¬ ∀ (W capacity : ℕ) (log : List (Thread W (Fin 1) × (Event W ⊕ SubmitFailure))) (c : System W (Fin 1)),
      0 < W → 0 < capacity → Run (throwing capacity) init log c →
      (∃ l ∈ log, ∃ k, l.2 = .inl (.pool (.leave k))) → (∀ i, c.pc (.inr i) = .pool .idle) →
      Accounted c.shared := by
  intro hall
  have hacc := hall _ _ _ _ (by decide) (by decide) throwingRun_run
    ⟨_, List.mem_of_getLast? rfl, _, rfl⟩ fun i => by fin_cases i; rfl
  have hids : ThreadPool.ids throwingRun.2.shared.pool = [] := rfl
  have hone := (hacc.ids 1).mpr ⟨le_rfl, by decide⟩
  rw [hids] at hone
  cases hone

end Accounts

end Engine

end TaskEngine
