import TaskEngine.Engine.Timestamps
import TaskEngine.Interleaving.DataRace
import TaskEngine.Pool.Ownership

/-!
# TaskEngine.Engine.DataRaces — what no mutex of its own protects is never raced for

The members that `mutex_` of the queue does not guard, and that are not atomic: the envelopes on their
way from `submit` to their end, the buffers of the workers, `joined_` and the thread handles.  Envelopes are
handed over through the queue (`custody`), `joined_` and the handles stay under `shutdown_mutex_`
(`guarded`), and a buffer passes from its worker over the join to whoever collects (`buffers`).  So every
two conflicting accesses are ordered by happens-before (`data_race_free`).

The critical sections of the queue and the atomic counters are single steps here, and the destruction of the
members after the destructor's body is left to the caller of the destructor to order.
-/

namespace TaskEngine

open Interleaving

namespace Engine

variable {W : ℕ} {ι : Type}

/-! ## Locations -/

section Locations

/-- An envelope with its task and its promise, a worker's buffer, `joined_`, or `threads_[w]`. -/
inductive Location (W : ℕ)
  | envelope (promise : ℕ)
  | samples (w : Fin W)
  | joined
  | thread (w : Fin W)
  deriving DecidableEq

/-- The envelopes that a step builds, moves, runs, fulfils or destroys. -/
def Event.touched (ev : Event W) : List TaskEnvelope := ev.pool?.elim [] ThreadPool.Event.touched

/-- What a step reads. -/
def Event.reads : Event W → List (Location W)
  | .pool .lock => [.joined]
  | .pool (.skip w) => [.thread w]
  | .check _ => [.joined]
  | .collect _ => (List.finRange W).map .samples
  | _ => []

/-- The members that a step of the pool writes. -/
def memberWrites : Thread W ι → ThreadPool.Event W → List (Location W)
  | .inl w, .record _ _ => [.samples w]
  | _, .joined => [.joined]
  | _, .join w => [.thread w]
  | _, _ => []

def Event.writes (t : Thread W ι) (ev : Event W) : List (Location W) :=
  ev.touched.map (fun e => .envelope e.promise) ++ ev.pool?.elim [] (memberWrites t)

def footprint : Footprint (Thread W ι) (Event W) (Location W) where
  reads l := {x | x ∈ l.2.reads}
  writes l := {x | x ∈ l.2.writes l.1}

theorem touches_envelope {l : Thread W ι × Event W} {k : ℕ} :
    footprint.Touches (.envelope k) l ↔ ∃ e ∈ l.2.touched, e.promise = k := by
  have hread : .envelope k ∉ l.2.reads := by
    unfold Event.reads
    split <;> simp
  have hmember : .envelope k ∉ l.2.pool?.elim [] (memberWrites l.1) := by
    cases l.2.pool? with
    | none => simp
    | some ev =>
      simp only [Option.elim_some]
      unfold memberWrites
      split <;> simp
  simp [Footprint.Touches, footprint, hread, Event.writes, hmember]

theorem writes_samples {l : Thread W ι × Event W} {w : Fin W} :
    .samples w ∈ footprint.writes l ↔ l.1 = .inl w ∧ ∃ e s, l.2 = .pool (.record e s) := by
  obtain ⟨t, ev⟩ := l
  simp only [footprint, Set.mem_ofPred_eq, Event.writes, List.mem_append, List.mem_map, reduceCtorEq, and_false,
    exists_false, false_or]
  cases ev with
  | pool ev =>
    rcases t with v | i <;> cases ev <;> simp [Event.pool?, memberWrites, eq_comm]
  | _ => simp [Event.pool?]

theorem reads_samples {l : Thread W ι × Event W} {w : Fin W} (h : .samples w ∈ footprint.reads l) :
    ∃ samples, l.2 = .collect samples := by
  simp only [footprint, Set.mem_ofPred_eq] at h
  generalize l.2 = ev at h ⊢
  unfold Event.reads at h
  split at h
  case h_4 samples => exact ⟨samples, rfl⟩
  all_goals simp at h

end Locations

/-! ## The envelopes -/

section Envelopes

/-- Envelopes, by their promises, belong to a thread or to the queue. -/
def custody : Custody (clock (W := W) (ι := ι)) .mutex Pc (Engine W ι) ℕ where
  owned t p := {k | ∃ e ∈ ThreadPool.owned t (place t p), e.promise = k}
  stored m := {k | ∃ e ∈ m.pool.queue.items, e.promise = k}
  unborn m := {k | m.pool.promises.length ≤ k}
  touched ev := {k | ∃ e ∈ ev.touched, e.promise = k}

variable [DecidableEq ι] {capacity : ℕ} {c : System W ι} {log : List (Thread W ι × Event W)}

theorem custody_apart [Fintype ι] (h : Run (rules capacity) init log c) : custody.Apart c where
  owners t u k := by
    rintro ⟨e, he, rfl⟩ ⟨e', he', heq⟩
    by_contra htu
    exact ThreadPool.owned_disjoint (pool_run_init h) htu he he' heq.symm
  stored t k := by
    rintro ⟨e, he, rfl⟩ ⟨e', he', heq⟩
    exact ThreadPool.owned_unqueued (pool_run_init h) he he' heq.symm
  unborn k (hk : c.shared.pool.promises.length ≤ k) := by
    refine ⟨?_, ?_⟩
    · rintro t ⟨e, he, rfl⟩
      exact absurd (ThreadPool.promise_lt (pool_run_init h) (ThreadPool.owned_submitted (pool_run_init h) he))
        (not_lt.mpr hk)
    · rintro ⟨e, he, rfl⟩
      exact absurd (ThreadPool.promise_lt (pool_run_init h) (ThreadPool.queued_submitted (pool_run_init h) he))
        (not_lt.mpr hk)

/-- A step of the pool hands its envelopes over as it should. -/
theorem rule_custody [Fintype ι] (h : Run (rules capacity) init log c) {t : Thread W ι} {ev : Event W}
    {m : Engine W ι} {p : Pc t} (hr : rules capacity t c.shared (c.pc t) ev m p) :
    custody.Handover t c.shared (c.pc t) ev m p := by
  have hp := rule_toPool hr
  cases hev : ev.pool? with
  | none =>
    rw [hev] at hp
    obtain ⟨hpool, hplace⟩ := hp
    have htouched : ∀ k, k ∉ (custody (ι := ι)).touched ev := by
      rintro k ⟨e, he, -⟩
      simp [Event.touched, hev] at he
    refine ⟨fun k hk => .inl ?_, fun k hk => .inl ?_, fun k hk => ⟨?_, htouched k⟩,
      fun k hk => absurd hk (htouched k), ?_⟩
    · simpa [custody, hplace] using hk
    · simpa [custody, hpool] using hk
    · simpa [custody, hpool] using hk
    · intro ha
      cases ev <;> simp [clock, Event.acquires] at ha
      cases hev
  | some ev' =>
    obtain rfl : ev = .pool ev' := by cases ev <;> cases hev; rfl
    rw [hev] at hp
    have hh := ThreadPool.rule_handover hp
    obtain ⟨hle, hsubmit⟩ := ThreadPool.rule_promises hp
    -- what is submitted has the next promise
    have hborn : ∀ e, ev' = .submit e → c.shared.pool.promises.length ≤ e.promise := fun e he =>
      (hsubmit e he).1.ge
    refine ⟨?_, ?_, ?_, ?_, ThreadPool.Event.releases_of_acquires⟩
    · rintro k ⟨e, he, rfl⟩
      rcases hh.owned e he with he | ⟨he, ha⟩ | he
      · exact .inl ⟨e, he, rfl⟩
      · exact .inr (.inl ⟨⟨e, he, rfl⟩, ha⟩)
      · exact .inr (.inr (hborn e he))
    · rintro k ⟨e, he, rfl⟩
      exact (hh.queued e he).imp (fun he => ⟨e, he, rfl⟩) fun ⟨he, hrel⟩ => ⟨⟨e, he, rfl⟩, hrel⟩
    · intro k (hk : m.pool.promises.length ≤ k)
      refine ⟨hle.trans hk, ?_⟩
      rintro ⟨e, he, rfl⟩
      have hrun := pool_run_init h
      rcases hh.touched e he with he | ⟨he, -⟩ | he
      · have := ThreadPool.promise_lt hrun (ThreadPool.owned_submitted hrun he)
        exact absurd (this.trans_le (hle.trans hk)) (lt_irrefl _)
      · have := ThreadPool.promise_lt hrun (ThreadPool.queued_submitted hrun he)
        exact absurd (this.trans_le (hle.trans hk)) (lt_irrefl _)
      · obtain ⟨hpromise, hlen⟩ := hsubmit e he
        omega
    · rintro k ⟨e, he, rfl⟩
      rcases hh.touched e he with he | ⟨he, ha⟩ | he
      · exact .inl ⟨e, he, rfl⟩
      · exact .inr (.inl ⟨⟨e, he, rfl⟩, ha⟩)
      · exact .inr (.inr (hborn e he))

/-- Whoever has an envelope comes after all that have touched it. -/
theorem envelopes_ordered [Fintype ι] (h : Run (rules capacity) init log c) : custody.Ordered log c :=
  Custody.ordered h (fun _ _ hrun => custody_apart hrun) fun _ _ _ _ _ _ hrun hr => rule_custody hrun hr

end Envelopes

/-! ## What `shutdown_mutex_` guards -/

section Guarded

/-- The holder of `shutdown_mutex_`. -/
def holder (m : Engine W ι) : Option (Thread W ι) := m.pool.shutdown_mutex.map .inr

/-- `joined_` and the thread handles. -/
def Location.guarded : Location W → Bool
  | .joined | .thread _ => true
  | _ => false

/-- A step that has nothing to do with `shutdown_mutex_`. -/
structure Outside (t : Thread W ι) (m : Engine W ι) (ev : Event W) (m' : Engine W ι) : Prop where
  holder : holder m' = holder m
  untouched : ∀ x : Location W, x.guarded = true → ¬ footprint.Touches x (t, ev)
  joinable : ∀ w, (m'.pool.threads w).joinable = (m.pool.threads w).joinable

theorem Outside.of_unwritten {t : Thread W ι} {m m' : Engine W ι} {ev : Event W}
    (hm : m'.pool.shutdown_mutex = m.pool.shutdown_mutex)
    (ht : ∀ w, (m'.pool.threads w).joinable = (m.pool.threads w).joinable)
    (hr : ∀ x : Location W, x.guarded = true → x ∉ ev.reads)
    (hw : ∀ x : Location W, x.guarded = true → x ∉ ev.pool?.elim [] (memberWrites t)) : Outside t m ev m' where
  holder := by rw [Engine.holder, Engine.holder, hm]
  untouched x hx h := by
    rcases h with h | h
    · exact hr x hx h
    · rcases List.mem_append.mp h with h | h
      · obtain ⟨e, -, rfl⟩ := List.mem_map.mp h
        cases hx
      · exact hw x hx h
  joinable := ht

variable [DecidableEq ι] {capacity : ℕ} {m m' : Engine W ι} {ev : Event W}

theorem WorkerRule.outside {w : Fin W} {p p' : ThreadPool.WorkerPc} (h : WorkerRule w m p ev m' p') :
    Outside (.inl w) m ev m' := by
  cases h with
  | pool h =>
    cases h <;> exact .of_unwritten (by simp) (by simp) (by simp [Event.reads]) (by
      intro x hx
      cases x <;> simp [Event.pool?, memberWrites, Location.guarded] at hx ⊢)

/-- A step of the engine has to do with `shutdown_mutex_`, or is outside. -/
theorem rule_section {t : Thread W ι} {p p' : Pc t} (hat : ThreadPool.Joins t (place t p) m.pool)
    (h : rules capacity t m p ev m' p') :
    clock.Section .shutdown_mutex (t, ev) (holder m) (holder m') ∨ Outside t m ev m' := by
  rcases t with w | i
  · exact .inr (WorkerRule.outside h)
  · have hmutex : ∀ k n, place (W := W) (.inr i) p = .joining k (.loop n) → m.pool.shutdown_mutex = some i :=
      fun k n hp => (ThreadPool.ClientPc.Joins.mutex hat).mpr ⟨k, n, hp⟩
    cases (h : ClientRule capacity i _ _ _ _ _) with
    | pool _ h =>
      cases h with
      -- `join_workers` takes the mutex, keeps it through the loop and gives it back
      | join h =>
        refine .inl ?_
        cases h with
        | lock hm _ =>
          rw [holder, holder, hm]
          exact .lock (by simp [clock, Event.acquires, ThreadPool.Event.acquires])
        | again hm _ =>
          rw [holder, hm]
          exact .pass (by simp [clock, Event.acquires, ThreadPool.Event.acquires])
            (by simp [clock, Event.releases, ThreadPool.Event.releases])
        | join hn _ _ =>
          have hm := hmutex _ _ rfl
          rw [holder, holder, ThreadPool.joinThread_shutdown_mutex, hm]
          exact .held
        | skip hn _ =>
          rw [holder, hmutex _ _ rfl]
          exact .held
        | joined _ =>
          rw [holder, holder, hmutex _ _ rfl]
          exact .unlock (by simp [clock, Event.releases, ThreadPool.Event.releases])
      | _ =>
        refine .inr (.of_unwritten (by simp) (by simp) (by simp [Event.reads]) ?_)
        intro x hx
        cases x <;> simp [Event.pool?, memberWrites, Location.guarded] at hx ⊢
    | sum h =>
      cases h with
      -- `workers_joined` takes and releases it in one step
      | check hm _ =>
        refine .inl ?_
        rw [holder, hm]
        exact .pass (by simp [clock, Event.acquires]) (by simp [clock, Event.releases])
      | throws hm _ _ =>
        refine .inl ?_
        rw [holder, hm]
        exact .pass (by simp [clock, Event.acquires]) (by simp [clock, Event.releases])
      | _ =>
        refine .inr (.of_unwritten rfl (fun _ => rfl) ?_ (by simp [Event.pool?]))
        intro x hx
        cases x <;> simp [Event.reads, Location.guarded] at hx ⊢
    | submit _ _ h =>
      cases h with
      | submit _ _ _ =>
        refine .inr (.of_unwritten rfl (fun _ => rfl) (by simp [Event.reads]) ?_)
        intro x hx
        cases x <;> simp [Event.pool?, memberWrites, Location.guarded] at hx ⊢
    | _ => exact .inr (.of_unwritten rfl (fun _ => rfl) (by simp [Event.reads]) (by simp [Event.pool?]))

theorem rule_joinable {t : Thread W ι} {p p' : Pc t} (h : rules capacity t m p ev m' p') {w : Fin W}
    (hj : (m'.pool.threads w).joinable = true) : (m.pool.threads w).joinable = true := by
  have hp := rule_toPool h
  cases hev : ev.pool? with
  | none =>
    rw [hev] at hp
    rwa [hp.1] at hj
  | some ev' =>
    rw [hev] at hp
    have hcount := ThreadPool.rule_joinable hp w
    rw [hj] at hcount
    by_contra hold
    rw [Bool.not_eq_true] at hold
    simp [hold] at hcount

/-- A step after which a thread is not joinable any more is its join, by the holder of the mutex. -/
theorem ClientRule.joins {i : ι} {p p' : ClientPc} (hat : ThreadPool.ClientPc.Joins i p.place m.pool)
    (h : ClientRule capacity i m p ev m' p') {w : Fin W} (hj : (m.pool.threads w).joinable = true)
    (hj' : (m'.pool.threads w).joinable = false) :
    ev = .pool (.join w) ∧ (m.pool.threads w).finished = true ∧ holder m' = some (.inr i) := by
  cases h with
  | pool _ h =>
    cases h with
    | join h =>
      cases h with
      | @join n hn _ hf =>
        have hw : w = ⟨n, hn⟩ := by
          by_contra hw
          simp [ThreadPool.joinThread_joinable, hw, hj] at hj'
        have hm : m.pool.shutdown_mutex = some i := hat.mutex.mpr ⟨_, n, rfl⟩
        rw [hw, holder, ThreadPool.joinThread_shutdown_mutex, hm]
        exact ⟨rfl, hf, rfl⟩
      | _ => exact absurd hj' (by simp [hj])
    | _ => exact absurd hj' (by simp [hj])
  | submit _ _ h =>
    cases h with
    | submit _ _ _ => exact absurd hj' (by simp [hj])
  | _ => exact absurd hj' (by simp [hj])

variable {c : System W ι} {log : List (Thread W ι × Event W)}

/-- **What `shutdown_mutex_` guards** only its holder touches. -/
theorem guarded (h : Run (rules capacity) init log c) {x : Location W} (hx : x.guarded = true) :
    clock.Guarded log (footprint.Touches x) .shutdown_mutex (holder c.shared) := by
  refine h.induct (I := fun log d => clock.Guarded log (footprint.Touches x) .shutdown_mutex (holder d.shared))
    .nil ?_
  intro log d t ev m p hrun ih hr
  rcases rule_section ((ThreadPool.joins (pool_run_init hrun)).2 t) hr with hs | hout
  · exact ih.through hs
  · rw [hout.holder]
    exact ih.skip (hout.untouched x hx)

end Guarded

/-! ## The buffers -/

section Buffers

/-- The events that write to the buffer of `w`. -/
abbrev Appends (w : Fin W) : Thread W ι × Event W → Prop := fun l => .samples w ∈ footprint.writes l

/-- Who comes after all that has been written to a buffer: its worker, whoever joins the worker, whoever
takes `shutdown_mutex_` after that, and a `summary` that has seen `joined_`. -/
structure Handed (log : List (Thread W ι × Event W)) (c : System W ι) : Prop where
  running : ∀ w, c.pc (.inl w) ≠ .exited → clock.Covers log (Appends w) (Sync.By (.inl w))
  exited : ∀ w, c.pc (.inl w) = .exited → (c.shared.pool.threads w).joinable = true →
    clock.Covers log (Appends w) (clock.Releasing (.thread w))
  joined : ∀ w, (c.shared.pool.threads w).joinable = false →
    clock.Guarded log (Appends w) .shutdown_mutex (holder c.shared)
  collecting : ∀ i rejected, c.pc (.inr i) = .summing (.collecting rejected) →
    ∀ w, clock.Covers log (Appends w) (Sync.By (.inr i))

variable [DecidableEq ι] {capacity : ℕ} {c : System W ι} {log : List (Thread W ι × Event W)}

omit [DecidableEq ι] in
theorem not_appends {w : Fin W} {t : Thread W ι} {ev : Event W} (ht : t ≠ .inl w) : ¬ Appends w (t, ev) :=
  fun h => ht (writes_samples.mp h).1

theorem Handed.worker [Fintype ι] (hW : 0 < W) (hrun : Run (rules capacity) init log c) (h : Handed log c)
    {w : Fin W} {ev : Event W} {m : Engine W ι} {p : ThreadPool.WorkerPc}
    (hr : WorkerRule w c.shared (c.pc (.inl w)) ev m p) :
    Handed (log ++ [(.inl w, ev)]) ⟨m, Function.update c.pc (.inl w) p⟩ := by
  obtain ⟨hg, hat⟩ := ThreadPool.joins (pool_run_init hrun)
  have hout := WorkerRule.outside hr
  have hother : ∀ {v : Fin W}, v ≠ w → (.inl w : Thread W ι) ≠ .inl v := fun hv heq =>
    hv (Sum.inl_injective heq).symm
  have halive : c.pc (.inl w) ≠ .exited := fun hp => by
    rw [hp] at hr
    cases hr with
    | pool h => cases h
  refine ⟨fun v hv => ?_, fun v hv hj => ?_, fun v hj => ?_, fun i rejected hp v => ?_⟩
  · by_cases hvw : v = w
    · subst hvw
      exact (h.running v halive).own
    · exact (h.running v (by simpa [Function.update_of_ne (hother hvw).symm] using hv)).skip
        (not_appends (hother hvw))
  · by_cases hvw : v = w
    · subst hvw
      refine (h.running v halive).release ?_
      obtain rfl : p = .exited := by simpa using hv
      generalize c.pc (.inl v) = q at hr
      cases hr with
      | pool h =>
        cases h
        simp [clock, Event.releases, ThreadPool.Event.releases]
    · refine (h.exited v ?_ ?_).skip (not_appends (hother hvw))
      · simpa [Function.update_of_ne (hother hvw).symm] using hv
      · rw [← hout.joinable v]
        exact hj
  · have hold : (c.shared.pool.threads v).joinable = false := by rw [← hout.joinable v]; exact hj
    have hexited : c.pc (.inl v) = .exited :=
      (ThreadPool.WorkerPc.Joins.finished (hat (.inl v))).mp (hg.joined_finished v hold)
    have hvw : v ≠ w := fun heq => halive (heq ▸ hexited)
    rw [hout.holder]
    exact (h.joined v hold).skip (not_appends (hother hvw))
  -- whoever collects is past the join, where this worker could not have moved
  · have hknow := SummaryPc.knows hW hrun i (.collecting rejected) (by simpa using hp)
    replace hknow : c.shared.pool.joined = true := hknow.2
    exact absurd ((ThreadPool.exited_of_joined hW (pool_run_init hrun) hknow).2 w) halive

theorem ClientRule.collecting {i : ι} {m m' : Engine W ι} {p : ClientPc} {ev : Event W} {rejected : Option ℕ}
    (h : ClientRule capacity i m p ev m' (.summing (.collecting rejected))) :
    m.pool.joined = true ∧ m.pool.shutdown_mutex = none ∧
      (.shutdown_mutex : ThreadPool.SyncObject W) ∈ ev.acquires := by
  cases h with
  | sum h =>
    cases h with
    | check hm hj => exact ⟨hj, hm, by simp [Event.acquires]⟩

theorem Handed.client [Fintype ι] (hrun : Run (rules capacity) init log c) (h : Handed log c)
    {i : ι} {ev : Event W} {m : Engine W ι} {p : ClientPc}
    (hr : ClientRule capacity i c.shared (c.pc (.inr i)) ev m p) :
    Handed (log ++ [(.inr i, ev)]) ⟨m, Function.update c.pc (.inr i) p⟩ := by
  obtain ⟨hg, hat⟩ := ThreadPool.joins (pool_run_init hrun)
  have hsection := rule_section (t := .inr i) (hat (.inr i)) hr
  have hskip : ∀ w, ¬ Appends w ((.inr i : Thread W ι), ev) := fun w => not_appends Sum.inr_ne_inl
  refine ⟨fun w hw => ?_, fun w hw hj => ?_, fun w hj => ?_,
    fun j rejected (hp : Function.update c.pc (.inr i) p (.inr j) = _) w => ?_⟩
  · exact (h.running w (by simpa [Function.update_of_ne] using hw)).skip (hskip w)
  · exact (h.exited w (by simpa [Function.update_of_ne] using hw)
      (rule_joinable (t := .inr i) hr hj)).skip (hskip w)
  · cases hold : (c.shared.pool.threads w).joinable with
    | false =>
      rcases hsection with hs | hout
      · exact (h.joined w hold).through hs
      · rw [hout.holder]
        exact (h.joined w hold).skip (hskip w)
    | true =>
      -- the join of `w`, which has exited
      obtain ⟨rfl, hfinished, hholder⟩ := ClientRule.joins (hat (.inr i)) hr hold hj
      have hexited : c.pc (.inl w) = .exited :=
        (ThreadPool.WorkerPc.Joins.finished (hat (.inl w))).mp hfinished
      rw [hholder]
      exact Sync.Covers.acquire (h.exited w hexited hold) (List.mem_singleton.mpr rfl)
  · by_cases hji : j = i
    · subst hji
      obtain rfl : p = .summing (.collecting rejected) := by simpa using hp
      -- the client has just found `joined_` set, under the mutex
      obtain ⟨hj, hm, ha⟩ := ClientRule.collecting hr
      have hguard := h.joined w (hg.joined_all hj w)
      rw [holder, hm] at hguard
      exact Sync.Covers.acquire hguard ha
    · refine (h.collecting j rejected ?_ w).skip (hskip w)
      rwa [Function.update_of_ne fun heq => hji (Sum.inr_injective heq)] at hp

/-- **The buffers are handed on** from the workers over the joins to the summaries. -/
theorem handed [Fintype ι] (hW : 0 < W) (h : Run (rules capacity) init log c) : Handed log c := by
  refine h.induct (I := Handed) ⟨fun _ _ => .nil, fun _ _ _ => .nil, fun _ _ => .nil, fun _ _ _ _ => .nil⟩ ?_
  intro log d t ev m p hrun ih hr
  rcases t with w | i
  · exact ih.worker hW hrun hr
  · exact ih.client hrun hr

/-- The buffers are read only past the join. -/
theorem joined_of_reads [Fintype ι] (hW : 0 < W) (h : Run (rules capacity) init log c) {w : Fin W} :
    ∀ l ∈ log, .samples w ∈ footprint.reads l → c.shared.pool.joined = true := by
  intro l hl hw
  obtain ⟨samples, hev⟩ := reads_samples hw
  exact (collections_eq hW h samples ((mem_collect _).mpr ⟨l, hl, by simp [hev, Event.collected]⟩)).1

end Buffers

/-! ## No race -/

section Races

variable [DecidableEq ι] [Fintype ι] {capacity : ℕ} {c : System W ι} {log : List (Thread W ι × Event W)}

omit [Fintype ι] in
/-- A step that touches what `shutdown_mutex_` guards comes after all that have. -/
theorem guarded_follows (hrun : Run (rules capacity) init log c) {t : Thread W ι} {ev : Event W}
    {m : Engine W ι} {p : Pc t} (hr : rules capacity t c.shared (c.pc t) ev m p) {x : Location W}
    (hx : x.guarded = true) (ht : footprint.Touches x (t, ev)) :
    clock.Follows log (footprint.Touches x) (t, ev) := by
  rcases rule_section ((ThreadPool.joins (pool_run_init hrun)).2 t) hr with hs | hout
  · exact (guarded hrun hx).follows hs
  · exact absurd ht (hout.untouched x hx)

/-- An append to a buffer comes after every access to it: nobody has read it yet. -/
theorem append_follows (hW : 0 < W) (hrun : Run (rules capacity) init log c) {w v : Fin W}
    {ev : Event W} {m : Engine W ι} {p : ThreadPool.WorkerPc} (hr : WorkerRule v c.shared (c.pc (.inl v)) ev m p)
    (hw : .samples w ∈ footprint.writes ((.inl v : Thread W ι), ev)) :
    clock.Follows log (footprint.Touches (.samples w)) (.inl v, ev) := by
  have hvw : v = w := Sum.inl_injective (writes_samples.mp hw).1
  subst hvw
  have halive : c.pc (.inl v) ≠ .exited := fun hp => by
    rw [hp] at hr
    cases hr with
    | pool h => cases h
  refine ((handed hW hrun).running v halive).follows.mono fun l hl ht => ?_
  refine ht.resolve_left fun hread => halive ?_
  exact (ThreadPool.exited_of_joined hW (pool_run_init hrun) (joined_of_reads hW hrun l hl hread)).2 v

/-- A step that reads a buffer comes after all that has been appended to it. -/
theorem collect_follows (hW : 0 < W) (hrun : Run (rules capacity) init log c) {t : Thread W ι}
    {ev : Event W} {m : Engine W ι} {p : Pc t} (hr : rules capacity t c.shared (c.pc t) ev m p) {w : Fin W}
    (hw : .samples w ∈ footprint.reads (t, ev)) :
    clock.Follows log (Appends w) (t, ev) := by
  obtain ⟨samples, rfl⟩ := reads_samples hw
  rcases t with v | i
  · cases (hr : WorkerRule v _ _ _ _ _)
  · generalize hp : c.pc (.inr i) = q at hr
    cases (hr : ClientRule capacity i _ _ _ _ _) with
    | sum h =>
      cases h with
      | collect => exact ((handed hW hrun).collecting i _ hp w).follows
      | collect_last => exact ((handed hW hrun).collecting i _ hp w).follows

/-- **No data race.**  In every run, of two steps that touch one of these members, one of them writing it, the
earlier happens before the later. -/
theorem data_race_free (hW : 0 < W) (h : Run (rules capacity) init log c) : RaceFree clock footprint log := by
  refine h.induct (I := fun log _ => RaceFree clock footprint log) .nil ?_
  intro log d t ev m p hrun ih hr
  refine ih.snoc (fun x hx => ?_) fun x hx => ?_
  · cases x with
    | envelope k =>
      have hk : k ∈ (custody (ι := ι)).touched ev := touches_envelope.mp (.inr hx)
      exact ((envelopes_ordered hrun).follows (rule_custody hrun hr) hk).mono fun _ _ => touches_envelope.mp
    | samples w =>
      obtain ⟨rfl, -⟩ : t = .inl _ ∧ _ := ⟨(writes_samples.mp hx).1, trivial⟩
      exact append_follows hW hrun hr hx
    | joined => exact guarded_follows hrun hr rfl (.inr hx)
    | thread w => exact guarded_follows hrun hr rfl (.inr hx)
  · cases x with
    | envelope k => exact absurd hx (by unfold footprint Event.reads; simp; split <;> simp)
    | samples w => exact collect_follows hW hrun hr hx
    | joined => exact (guarded_follows hrun hr rfl (.inl hx)).mono fun _ _ => .inr
    | thread w => exact (guarded_follows hrun hr rfl (.inl hx)).mono fun _ _ => .inr

theorem data_race_free_summaryRun : RaceFree clock footprint summaryRun.1 :=
  data_race_free (by decide) (play_run act_sound rfl : Run (rules 1) init summaryRun.1 summaryRun.2)

end Races

end Engine

end TaskEngine
