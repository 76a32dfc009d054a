import TaskEngine.Engine.Timestamps
import TaskEngine.Interleaving.Extension
import TaskEngine.Pool.Windows

/-!
# TaskEngine.Engine.Windows — the execution windows of a run and the wall time around it

Outside every call a caller may read the clock, as `main` and the benchmark do around a run, and synchronise
with other callers.  The windows of one worker follow one another, so no more than `W` are open at a time, and
together they are no longer than `W` times what lies between a reading before the first `submit` and one after
the return of a shutdown call (`windows`).
-/

namespace TaskEngine

open Interleaving Intervals

namespace Engine

variable {W : ℕ} {ι : Type}

/-! ## Callers that read the clock -/

section Clocked

/-- What a client does outside every call: read the clock, or order itself with other clients, as by starting
or joining threads of its own. -/
inductive CallerEvent
  | read (now : TimePoint)
  | release (k : ℕ)
  | acquire (k : ℕ)

inductive CallerRule : Engine W ι → ClientPc → CallerEvent → Engine W ι → ClientPc → Prop
  | idle {m} (ev : CallerEvent) : CallerRule m (.pool .idle) ev m (.pool .idle)

def calling : Rules (Engine W ι) CallerEvent (Pc (W := W) (ι := ι))
  | .inl _ => fun _ _ _ _ _ => False
  | .inr _ => CallerRule

def CallerEvent.acquires : CallerEvent → List (ThreadPool.SyncObject W)
  | .acquire k => [.caller k]
  | _ => []

def CallerEvent.releases : CallerEvent → List (ThreadPool.SyncObject W)
  | .release k => [.caller k]
  | _ => []

def CallerEvent.readings : CallerEvent → List TimePoint
  | .read now => [now]
  | _ => []

/-- The order of the threads, with what the callers do. -/
def callerClock : Sync (Thread W ι) (Event W ⊕ CallerEvent) (ThreadPool.SyncObject W) TimePoint where
  acquires l := l.2.elim Event.acquires CallerEvent.acquires
  releases l := l.2.elim (Event.releases l.1) CallerEvent.releases
  reads l := l.2.elim Event.readings CallerEvent.readings

theorem callerClock_sees : (callerClock (W := W) (ι := ι)).Sees clock Sum.getLeft? where
  acquires _ ev ev' h := by cases ev <;> cases h; exact fun _ => id
  releases _ ev ev' h := by cases ev <;> cases h; exact fun _ => id
  reads _ ev ev' h := by cases ev <;> cases h; exact fun _ => id

variable [DecidableEq ι]

/-- The engine with callers that read the clock. -/
abbrev clocked (capacity : ℕ) : Rules (Engine W ι) (Event W ⊕ CallerEvent) (Pc (W := W) (ι := ι)) :=
  (rules capacity).extend calling

/-- What they do outside every call leaves the engine alone. -/
def unclocked (capacity : ℕ) : Projection (clocked (W := W) (ι := ι) capacity) (rules capacity) :=
  Rules.forget fun t _ _ _ _ _ h => by
    rcases t with w | i
    · exact h.elim
    · cases (h : CallerRule _ _ _ _ _)
      exact ⟨rfl, rfl⟩

variable {capacity : ℕ} {c c' : System W ι} {log : List (Thread W ι × (Event W ⊕ CallerEvent))}

theorem unclocked_run (h : Run (clocked capacity) c log c') : Run (rules capacity) c (baseLog log) c' :=
  (unclocked capacity).run h

/-- The steps of the pool in the log. -/
abbrev clockedPoolLog (log : List (Thread W ι × (Event W ⊕ CallerEvent))) :
    List (Thread W ι × ThreadPool.Event W) :=
  poolLog (baseLog log)

omit [DecidableEq ι] in
theorem base_monotone (h : callerClock.Monotone log) : clock.Monotone (baseLog log) :=
  h.seen callerClock_sees

omit [DecidableEq ι] in
theorem knows_of_pool {t : Thread W ι} {x : TimePoint}
    (h : ThreadPool.clock.Knows (clockedPoolLog log) t x) : callerClock.Knows log t x :=
  Sync.Knows.unseen callerClock_sees (Sync.Knows.unseen clock_sees h)

end Clocked

/-! ## The timed region -/

section Timed

/-- A reading before every `submit`, and one after the return of a shutdown call.  Where no task has run, the
first has to be before the second. -/
structure TimedRegion (log : List (Thread W ι × (Event W ⊕ CallerEvent))) (samples : List Sample)
    (i j : ℕ) (started finished : TimePoint) : Prop where
  started : ∃ t, log[i]? = some (t, .inr (.read started))
  finished : ∃ t, log[j]? = some (t, .inr (.read finished))
  before : ∀ n t e, log[n]? = some (t, .inl (.pool (.submit e))) → callerClock.HappensBefore log i n
  after : ∃ n t k, log[n]? = some (t, .inl (.pool (.leave k))) ∧ callerClock.HappensBefore log n j
  order : samples = [] → callerClock.HappensBefore log i j

variable [DecidableEq ι] [Fintype ι] {capacity : ℕ} {c : System W ι}
  {log : List (Thread W ι × (Event W ⊕ CallerEvent))} {samples : List Sample} {i j : ℕ}
  {started finished : TimePoint}

omit [Fintype ι] in
/-- A shutdown call returns from past the join. -/
theorem place_of_leave {d d' : System W ι} {t : Thread W ι} {k : ThreadPool.Caller}
    (hs : Step (clocked capacity) d (t, .inl (.pool (.leave k))) d') :
    ∃ i, t = .inr i ∧ d.pc (.inr i) = .pool (.joining k .done) := by
  cases hs with
  | mk hr =>
    rcases t with w | i
    · generalize d.pc (.inl w) = p at hr
      cases (hr : Extended _ _ _ _ _ _ _ _) with
      | base hr =>
        cases (hr : WorkerRule w _ _ _ _ _) with
        | pool h => cases h
    · generalize hp : d.pc (.inr i) = p at hr
      cases (hr : Extended _ _ _ _ _ _ _ _) with
      | base hr =>
        cases (hr : ClientRule capacity i _ _ _ _ _) with
        | pool _ h =>
          cases h with
          | join h => cases h
          | leave => exact ⟨i, rfl, hp⟩
        | sum h => cases h

/-- No window starts before the first reading. -/
theorem TimedRegion.started_le (hr : TimedRegion log samples i j started finished)
    (h : Run (clocked capacity) init log c) (hclock : callerClock.Monotone log) {w : Fin W} :
    ∀ s ∈ c.shared.pool.samples w, started ≤ s.timings.dequeued := by
  intro s hs
  have hpool := pool_run_init (unclocked_run h)
  have hcausal := (ThreadPool.timed hpool (pool_monotone (base_monotone hclock))).1.samples w s hs
  obtain ⟨t, e, d, f, hl, rfl⟩ := ThreadPool.exists_submitted hpool hs
  obtain ⟨n, hn⟩ := List.mem_iff_getElem?.mp (mem_baseLog.mp (mem_poolLog.mp hl))
  obtain ⟨u, hi⟩ := hr.started
  have hsub : started ≤ e.submitted := hclock i n (hr.before n t e hn) _ _ hi hn _ (List.mem_singleton.mpr rfl) _
    (List.mem_singleton.mpr rfl)
  exact hsub.trans hcausal.dequeued

omit [Fintype ι] in
/-- No window ends after the second reading. -/
theorem TimedRegion.le_finished (hW : 0 < W) (hr : TimedRegion log samples i j started finished)
    (h : Run (clocked capacity) init log c) (hclock : callerClock.Monotone log) {w : Fin W} :
    ∀ s ∈ c.shared.pool.samples w, s.timings.finished ≤ finished := by
  intro s hs
  obtain ⟨n, t, k, hn, hb⟩ := hr.after
  obtain ⟨u, hj⟩ := hr.finished
  -- the run up to the return of the shutdown call, and the rest of it
  obtain ⟨l₁, l₂, rfl, rfl⟩ : ∃ l₁ l₂, log = l₁ ++ (t, .inl (.pool (.leave k))) :: l₂ ∧ l₁.length = n := by
    obtain ⟨hlt, hn⟩ := List.getElem?_eq_some_iff.mp hn
    exact ⟨log.take n, log.drop (n + 1), by rw [← hn, ← List.drop_eq_getElem_cons, List.take_append_drop],
      List.length_take_of_le hlt.le⟩
  obtain ⟨d, d', h₁, hs₁, h₂⟩ := h.split_at
  have hpool := pool_run_init (unclocked_run h₁)
  obtain ⟨i, rfl, hdone⟩ := place_of_leave hs₁
  have hplace : ((toPool capacity).config d).pc (.inr i) = .joining k .done := congrArg ClientPc.place hdone
  have hstill := ThreadPool.joined_still hW hpool (ThreadPool.joined_of_done hpool hplace)
    (pool_run (unclocked_run ((Run.single hs₁).trans h₂)))
  have hknows := ThreadPool.known_of_done hpool (pool_monotone (base_monotone hclock.prefix)) hplace w s
    (hstill.samples ▸ hs)
  exact hclock.le_later (knows_of_pool hknows) hb.to_reflTransGen hj (List.mem_singleton.mpr rfl)

/-- Together, the windows of the workers are no longer than `W` times the region. -/
theorem TimedRegion.sum_le (hW : 0 < W) (hr : TimedRegion log c.shared.pool.merged i j started finished)
    (h : Run (clocked capacity) init log c) (hclock : callerClock.Monotone log) :
    (Measurement.execution_time.values c.shared.pool.merged).sum ≤ W * (finished - started) := by
  have hpool := pool_run_init (unclocked_run h)
  have hm := pool_monotone (base_monotone hclock)
  -- a window lies between the two readings; without one they are ordered by assumption
  have hle : started ≤ finished := by
    obtain ⟨t, hi⟩ := hr.started
    obtain ⟨u, hj⟩ := hr.finished
    cases hmerged : c.shared.pool.merged with
    | nil =>
      exact hclock i j (hr.order hmerged) _ _ hi hj _ (List.mem_singleton.mpr rfl) _
        (List.mem_singleton.mpr rfl)
    | cons s rest =>
      have hs : s ∈ c.shared.pool.merged := hmerged ▸ List.mem_cons_self
      obtain ⟨w, -, hs⟩ := List.mem_flatMap.mp hs
      calc started ≤ s.timings.dequeued := hr.started_le h hclock s hs
        _ ≤ s.timings.finished := ((ThreadPool.timed hpool hm).1.samples w s hs).finished
        _ ≤ finished := hr.le_finished hW h hclock s hs
  have hworker : ∀ w, (Measurement.execution_time.values (c.shared.pool.samples w)).sum ≤ finished - started :=
    fun w => sum_le_span (ThreadPool.successive hpool hm w).1 (hr.started_le h hclock)
      (hr.le_finished hW h hclock) hle
  have hall : ∀ ws : List (Fin W), (Measurement.execution_time.values (ws.flatMap c.shared.pool.samples)).sum ≤
      ws.length * (finished - started) := by
    intro ws
    induction ws with
    | nil => simp [Measurement.values]
    | cons w ws ih =>
      rw [List.flatMap_cons, Measurement.values, List.map_append, List.sum_append, List.length_cons]
      push_cast
      have := hworker w
      simp only [Measurement.values] at ih this
      linarith
  simpa [ThreadPool.merged] using hall (List.finRange W)

omit [Fintype ι] in
/-- At any instant a window of each worker is open at the most. -/
theorem countP_open_le (h : Run (clocked capacity) init log c) (hclock : callerClock.Monotone log)
    (now : TimePoint) :
    c.shared.pool.merged.countP (fun s => s.timings.dequeued ≤ now ∧ now < s.timings.finished) ≤ W := by
  have hpool := pool_run_init (unclocked_run h)
  have hm := pool_monotone (base_monotone hclock)
  rw [ThreadPool.merged, List.countP_flatMap]
  calc _ ≤ ((List.finRange W).map _).length • 1 := List.sum_le_card_nsmul _ _ fun n hn => by
        obtain ⟨w, -, rfl⟩ := List.mem_map.mp hn
        exact countP_open_le_one (ThreadPool.successive hpool hm w).1 now
    _ = W := by simp

/-- **The windows of a run.**  With a clock whose readings never decrease along the order of the threads: a
buffer has the samples of envelopes in the order in which the queue accepted them, each window ended before
the next one starts; no envelope has a sample in two buffers; no more than `W` windows are open at any
instant; and where the exact sum fits, the total execution time of a summary returned is no more than `W`
times the timed region. -/
theorem windows (hW : 0 < W) (h : Run (clocked capacity) init log c) (hclock : callerClock.Monotone log) :
    (∀ w, c.shared.pool.samples w = (ThreadPool.recordedBy w (clockedPoolLog log)).map Prod.snd ∧
      ((ThreadPool.recordedBy w (clockedPoolLog log)).map Prod.fst).Sublist
        (ThreadPool.pushed (clockedPoolLog log)) ∧
      (∀ f ∈ ThreadPool.recordedBy w (clockedPoolLog log),
        ∃ dequeued finished, f.2 = f.1.sample dequeued finished) ∧
      (c.shared.pool.samples w).Pairwise fun s s' => s.timings.finished ≤ s'.timings.dequeued) ∧
    (∀ w v e, e ∈ (ThreadPool.recordedBy w (clockedPoolLog log)).map Prod.fst →
      e ∈ (ThreadPool.recordedBy v (clockedPoolLog log)).map Prod.fst → w = v) ∧
    (∀ now, c.shared.pool.merged.countP
      (fun s => s.timings.dequeued ≤ now ∧ now < s.timings.finished) ≤ W) ∧
    ∀ i j started finished, TimedRegion log c.shared.pool.merged i j started finished →
      ∀ s ∈ summaries (baseLog log), (Measurement.execution_time.values c.shared.pool.merged).sum < 2 ^ 63 →
        s.execution_time.total ≤ W * (finished - started) := by
  have hrun := unclocked_run h
  have hpool := pool_run_init hrun
  have hm := base_monotone hclock
  refine ⟨fun w => ⟨ThreadPool.samples_by hpool w, ThreadPool.recordedBy_sublist hpool w, ?_,
    (ThreadPool.successive hpool (pool_monotone hm) w).1⟩, fun w v e => ThreadPool.recordedBy_unique hpool,
    countP_open_le h hclock, ?_⟩
  · intro f hf
    exact ThreadPool.recordings_sample hpool f ((List.filter_sublist.flatMap _).subset hf)
  · intro i j started finished hr s hs hsum
    obtain ⟨rejected, rfl⟩ := summaries_eq hW hrun s hs
    have hnonneg := Measurement.execution_time.values_nonneg (merged_causal hrun hm)
    calc (stats_from (Measurement.execution_time.values c.shared.pool.merged)).total
        = (Measurement.execution_time.values c.shared.pool.merged).sum :=
          stats_from_total (representable_of_nonneg hnonneg hsum)
      _ ≤ W * (finished - started) := hr.sum_le hW h hclock

/-- A schedule: the client submits a task, the worker runs it, the client shuts down and takes a summary. -/
def timedSchedule : List (Thread 1 (Fin 1) × Act 1 (Fin 1)) :=
  [(.inr 0, .assign ⟨.returns⟩), (.inr 0, .submit 1), (.inr 0, .pool (.queue .lock)),
   (.inr 0, .pool (.queue (.notify none))), (.inr 0, .pool .go), (.inl 0, .pool .go),
   (.inl 0, .pool (.queue .lock)), (.inl 0, .pool (.queue (.notify none))), (.inl 0, .pool (.clock 2)),
   (.inl 0, .pool (.clock 5)), (.inl 0, .pool .go), (.inl 0, .pool .go),
   (.inr 0, .pool (.shutdown .shutdown)), (.inr 0, .pool (.queue .lock)), (.inr 0, .pool (.queue .lock)),
   (.inr 0, .pool (.queue .lock)), (.inr 0, .pool .go), (.inl 0, .pool (.queue .lock)), (.inl 0, .pool .go),
   (.inr 0, .pool .go), (.inr 0, .pool .go), (.inr 0, .pool .go), (.inr 0, .pool .go), (.inr 0, .summary),
   (.inr 0, .go), (.inr 0, .go), (.inr 0, .go), (.inr 0, .go)]

/-- Its log, and the configuration after it. -/
def timedRun : List (Thread 1 (Fin 1) × Event 1) × System 1 (Fin 1) :=
  (play (act 1) timedSchedule init).get rfl

/-- The log with a reading of the client before and after. -/
def timedLog : List (Thread 1 (Fin 1) × (Event 1 ⊕ CallerEvent)) :=
  (.inr 0, .inr (.read 0)) :: timedRun.1.map (fun l => (l.1, .inl l.2)) ++ [(.inr 0, .inr (.read 6))]

omit [Fintype ι] in
theorem caller_step {i : ι} (hi : c.pc (.inr i) = .pool .idle) (ev : CallerEvent) :
    Step (clocked capacity) c (.inr i, .inr ev) c := by
  have hs : Step (clocked capacity) c (.inr i, .inr ev)
      ⟨c.shared, Function.update c.pc (.inr i) (.pool .idle)⟩ :=
    .mk (show clocked capacity (.inr i) _ _ _ _ _ from .further (by rw [hi]; exact .idle ev))
  rwa [show Function.update c.pc (.inr i) (.pool .idle) = c.pc by rw [← hi, Function.update_eq_self]] at hs

theorem timedLog_run : Run (clocked 1) init timedLog timedRun.2 :=
  ((Run.single (caller_step (i := 0) rfl (.read 0))).trans
    (play_run act_sound rfl : Run (rules 1) init timedRun.1 timedRun.2).extended).tail
      (caller_step (i := 0) rfl (.read 6))

/-- A submission is one of client 0. -/
def submitsFirst (l : Thread 1 (Fin 1) × (Event 1 ⊕ CallerEvent)) : Bool :=
  match l.2 with
  | .inl (.pool (.submit _)) => decide (l.1 = .inr 0)
  | _ => true

theorem timedLog_region : TimedRegion timedLog timedRun.2.shared.pool.merged 0 29 0 6 where
  started := ⟨_, rfl⟩
  finished := ⟨_, rfl⟩
  before n t e hn := by
    have hall : timedLog.all submitsFirst = true := rfl
    have ht := of_decide_eq_true (List.all_eq_true.mp hall _ (List.mem_of_getElem? hn))
    have hpos : 0 < n := Nat.pos_of_ne_zero fun h0 => by
      subst h0
      cases hn
    exact .single ⟨hpos, _, _, rfl, hn, .inl ht.symm⟩
  after := ⟨23, _, _, rfl, .single ⟨by decide, _, _, rfl, rfl, .inl rfl⟩⟩
  order _ := .single ⟨by decide, _, _, rfl, rfl, .inl rfl⟩

/-- The summary of that run is within the wall time. -/
theorem windows_timedLog :
    (summarize timedRun.2.shared.pool.merged 0).execution_time.total ≤ (1 : ℕ) * (6 - 0) := by
  have hall := windows (by decide) timedLog_run (Sync.monotone_of_pairwise (by decide))
  refine hall.2.2.2 0 29 0 6 timedLog_region _ ?_ (by decide)
  exact (mem_collect _).mpr ⟨_, List.mem_of_getLast? rfl, List.mem_singleton.mpr rfl⟩

end Timed

end Engine

end TaskEngine
