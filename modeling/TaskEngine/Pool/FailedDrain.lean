import TaskEngine.Interleaving.Extension
import TaskEngine.Pool.Progress
import TaskEngine.Queue.FailedDrain

/-!
# TaskEngine.Pool.FailedDrain — a `shutdown_now` that cannot allocate

The pool with one more kind of step: `close_and_drain` throws `std::bad_alloc` out of `shutdown_now`,
at any number of calls.  The queue stays closed with what it holds, and nobody is notified.  Where every
failure finds the queue closed already or `Recoverable`, nothing is lost: a `close`, `shutdown` or
`~ThreadPool` from then on winds down like any other (`failed_drain_recovers`).  Elsewhere a thread can
stay blocked for good, and the join with it (`stranded`).
-/

namespace TaskEngine

open Interleaving

namespace ThreadPool

variable {W : ℕ} {ι : Type}

/-! ## The failing steps -/

section Failing

/-- What failed. -/
inductive Failure
  | reserve
  deriving DecidableEq

/-- `drained.reserve` throws out of `close_and_drain`, and `shutdown_now` ends with it. -/
inductive FailureRule : ThreadPool W ι → ClientPc → Failure → ThreadPool W ι → ClientPc → Prop
  | reserve {m : ThreadPool W ι} {q} (h : m.queue.failedDrainSection = some q) :
      FailureRule m (.draining .enter) .reserve { m with queue := q } .idle

/-- The failing steps of the threads. -/
def failures : Rules (ThreadPool W ι) Failure (Pc (W := W) (ι := ι))
  | .inl _ => fun _ _ _ _ _ => False
  | .inr _ => FailureRule

variable [DecidableEq ι]

/-- The pool whose `shutdown_now` may fail. -/
abbrev failing (capacity : ℕ) : Rules (ThreadPool W ι) (Event W ⊕ Failure) (Pc (W := W) (ι := ι)) :=
  (rules capacity).extend failures

/-- A client's failing step, computed. -/
def failAct : (t : Thread W ι) → ThreadPool W ι → Pc t → Option (Failure × ThreadPool W ι × Pc t)
  | .inr _, m, .draining .enter =>
    m.queue.failedDrainSection.map fun q => (.reserve, { m with queue := q }, .idle)
  | _, _, _ => none

omit [DecidableEq ι] in
theorem failAct_sound (t : Thread W ι) (m : ThreadPool W ι) (p : Pc t) (ev : Failure)
    (m' : ThreadPool W ι) (p' : Pc t) (h : failAct t m p = some (ev, m', p')) :
    failures t m p ev m' p' := by
  unfold failAct at h
  split at h
  · obtain ⟨q, hq, he⟩ := Option.map_eq_some_iff.mp h
    cases he
    exact .reserve hq
  · cases h

/-- The failure finds the queue closed already, or recoverable. -/
def FailsWell [Fintype ι] (capacity : ℕ) (c : System W ι) (l : Thread W ι × (Event W ⊕ Failure)) : Prop :=
  l.2 = .inr .reserve → c.shared.queue.closed = true ∨
    BlockingQueue.Recoverable capacity ((toQueue capacity).config c)

end Failing

/-! ## What failures preserve -/

section Invariants

variable [DecidableEq ι] {capacity : ℕ} {c c' : System W ι} {log log' : List (Thread W ι × (Event W ⊕ Failure))}

theorem failure_closed {t : Thread W ι} {m m' : ThreadPool W ι} {p p' : Pc t} {ev : Event W ⊕ Failure}
    (h : failing capacity t m p ev m' p') (hc : m.queue.closed = true) : m'.queue.closed = true := by
  cases (h : Extended _ _ _ _ _ _ _ _) with
  | base h => exact (rule_queue h).1 hc
  | further h =>
    rcases t with w | i
    · exact h.elim
    · cases (h : FailureRule _ _ _ _ _) with
      | reserve hq => rw [(BlockingQueue.failedDrainSection_eq hq).2]

omit [DecidableEq ι] in
theorem FailureRule.guarantee {i : ι} {m m' : ThreadPool W ι} {p p' : ClientPc} {ev : Failure}
    (h : FailureRule m p ev m' p') : Guarantee (.inr i) m m' := by
  cases h with
  | reserve hq =>
    obtain ⟨hi, rfl⟩ := BlockingQueue.failedDrainSection_eq hq
    exact ⟨fun _ => rfl, fun he => absurd he.2 hi, fun _ => id, fun _ _ => rfl, fun _ _ => .rfl, id,
      fun _ _ _ => rfl⟩

/-- The proof outline of closing and joining, with failures. -/
def failingOutline (capacity : ℕ) : Outline (failing (W := W) (ι := ι) capacity) :=
  (joinOutline capacity).extend
    (fun _ t _ _ _ _ _ hg hat h => by
      rcases t with w | i
      · exact h.elim
      · have g := FailureRule.guarantee (i := i) h
        have hmutex := ClientPc.Joins.mutex hat
        cases (h : FailureRule _ _ _ _ _) with
        | reserve hq =>
          obtain ⟨hi, rfl⟩ := BlockingQueue.failedDrainSection_eq hq
          exact ⟨Joining.frame hg rfl rfl g.closed g.exhausted,
            ⟨by simp [ClientPc.closes], by simpa using hmutex, by simp, by simp⟩⟩)
    (fun _ t _ _ _ _ _ _ _ h _ _ hu hq => by
      rcases t with w | i
      · exact h.elim
      · exact Joins.stable hu hq (FailureRule.guarantee (i := i) h))

theorem failing_joins (h : Run (failing capacity) init log c) :
    Joining c.shared ∧ ∀ t, Joins t (c.pc t) c.shared := by
  refine (failingOutline capacity).run h ⟨⟨?_, ?_, ?_, ?_⟩, ?_⟩
  any_goals simp [init, fresh]
  exact ⟨fun w => ⟨by simp, by simp⟩,
    fun i => ⟨by simp [ClientPc.closes], by simp, by simp, by simp⟩⟩

/-- The notifications to come stay enough when every failure meets the condition. -/
theorem failing_covered [Fintype ι] (h : RunWith (failing capacity) (FailsWell capacity) init log c) :
    BlockingQueue.Covered ((toQueue capacity).config c) := by
  refine h.induct (I := fun _ d => BlockingQueue.Covered ((toQueue capacity).config d))
    ⟨fun hc => absurd hc (by simp [Projection.config, toQueue, init, fresh, BlockingQueue.empty]),
      fun hc => absurd hc (by simp [Projection.config, toQueue, init, fresh, BlockingQueue.empty])⟩ ?_
  intro log d t ev m p _ hv hp hr
  rw [Projection.config_update]
  cases (hr : Extended _ _ _ _ _ _ _ _) with
  | @base ev _ _ hr =>
    have hq := rule_toQueue hr
    cases hl : ev.label with
    | some l =>
      rw [hl] at hq
      exact hv.step hq
    | none =>
      rw [hl] at hq
      have hsame : Function.update ((toQueue capacity).config d).pc t (place t p) =
          ((toQueue capacity).config d).pc := by
        rw [hq.2]
        exact Function.update_eq_self t ((toQueue capacity).config d).pc
      simp only [toQueue] at hsame hv ⊢
      rw [hsame, hq.1]
      exact hv
  | further hr =>
    rcases t with w | i
    · exact hr.elim
    · generalize hpc : d.pc (.inr i) = q at hr
      cases (hr : FailureRule _ _ _ _ _) with
      | reserve hq =>
        refine hv.failed (hp rfl) ?_ hq
        simp [Projection.config, toQueue, place, hpc, ClientPc.place]

/-- On a closed queue, whoever is blocked is reached by a notification to come. -/
theorem failing_wakeable [Fintype ι] (hW : 0 < W)
    (h : RunWith (failing capacity) (FailsWell capacity) init log c)
    (hc : c.shared.queue.closed = true) : Wakeable capacity c := by
  have hv := failing_covered h
  obtain ⟨hg, hj⟩ := failing_joins h.run
  have hempty : ∀ w, .inl w ∈ c.shared.queue.not_empty.waiting → CanGoOn capacity c := by
    intro w hw
    rcases hv.empty hc with ⟨t, ht⟩ | hle
    · exact (owes_canMove (.inl ht)).canGoOn
    · -- a push owes the notification, and can send it
      have hpos : 0 < BlockingQueue.owedNotEmpty ((toQueue capacity).config c) :=
        (Finset.card_pos.mpr ⟨_, hw⟩).trans_le hle
      obtain ⟨t, -, ht⟩ := Finset.exists_ne_zero_of_sum_ne_zero hpos.ne'
      rcases t with v | i
      · generalize hp : c.pc (.inl v) = p at ht
        cases p <;> simp [toQueue, Projection.config, place, hp, WorkerPc.place] at ht
      · generalize hp : c.pc (.inr i) = p at ht
        rcases p with _ | (_ | _ | _ | _ | _) | _ | _ | _ | _ | _ <;>
          simp [toQueue, Projection.config, place, hp, ClientPc.place] at ht
        obtain ⟨cv, hcv⟩ := c.shared.queue.not_empty.exists_notifyOne
        exact (CanMove.client hp (.push (.notify_one hcv)) (by simp) rfl).canGoOn
  refine ⟨hempty, ?_⟩
  intro i hi
  rcases hv.full hc with ⟨t, ht⟩ | hle
  · exact (owes_canMove (.inr ht)).canGoOn
  · by_cases hitems : c.shared.queue.items = []
    · -- a pop owes the notification, and can send it
      have hpos : 0 < BlockingQueue.owedNotFull ((toQueue capacity).config c) := by
        refine (Finset.card_pos.mpr ⟨_, hi⟩).trans_le (hle.trans ?_)
        simp [toQueue, Projection.config, hitems]
      obtain ⟨t, -, ht⟩ := Finset.exists_ne_zero_of_sum_ne_zero hpos.ne'
      rcases t with v | j
      · generalize hp : c.pc (.inl v) = p at ht
        rcases p with _ | (_ | _ | _ | _) | _ | _ | _ | _ <;>
          simp [toQueue, Projection.config, place, hp, WorkerPc.place] at ht
        obtain ⟨cv, hcv⟩ := c.shared.queue.not_full.exists_notifyOne
        exact (CanMove.worker hp (.pop (.notify_one hcv)) (by simp) rfl).canGoOn
      · generalize hp : c.pc (.inr j) = p at ht
        rcases p with _ | _ | _ | _ | _ | _ | _ <;>
          simp [toQueue, Projection.config, place, hp, ClientPc.place] at ht
    · -- no worker exits before the queue is empty
      refine worker_canGoOn (w := ⟨0, hW⟩) (hempty _) fun he => hitems ?_
      exact (hg.finished_exhausted _ ((WorkerPc.Joins.finished (hj (.inl _))).mpr he)).2

end Invariants

/-! ## Winding down -/

section WindingDown

/-- A step that begins a call; a failure ends one. -/
def begins (ev : Event W ⊕ Failure) : Bool := ev.elim Event.starts fun _ => false

/-- Inside `shutdown` or the destructor, or joining at the end of `shutdown_now`. -/
def ClientPc.shutting : ClientPc → Bool
  | .closing _ _ | .joining _ _ => true
  | _ => false

attribute [simp] ClientPc.shutting.eq_1 ClientPc.shutting.eq_2

variable [DecidableEq ι] {capacity : ℕ} {c c' : System W ι} {log log' : List (Thread W ι × (Event W ⊕ Failure))}

/-- The calls in progress return: something can be done until they have and the workers have exited; the
runs without new calls are bounded; and where one cannot go on, every worker has exited, every call has
returned, and the workers are joined if a shutdown was in progress. -/
structure WindsDown (capacity : ℕ) (c : System W ι) : Prop where
  progress : ((∃ w, c.pc (.inl w) ≠ .exited) ∨ ∃ i, c.pc (.inr i) ≠ .idle) → CanGoOn capacity c
  bounded : ∃ n, ∀ log' c', Run (failing capacity) c log' c' → (∀ l ∈ log', begins l.2 = false) →
    log'.length ≤ n
  settled : ∀ log' c', Run (failing capacity) c log' c' → (∀ l ∈ log', begins l.2 = false) →
    (∀ l d, Step (failing capacity) c' l d → begins l.2 = true) →
    (∀ w, c'.pc (.inl w) = .exited) ∧ (∀ i, c'.pc (.inr i) = .idle) ∧
      ((∃ i, (c.pc (.inr i)).shutting = true) → c'.shared.joined = true)

/-- The measure of a closed queue, with failures: they end their call. -/
def failing_down (capacity : ℕ) : Measure (failing (W := W) (ι := ι) capacity) :=
  (winding_down capacity).extend
    (fun _ _ _ _ _ _ hc h => failure_closed (show failing capacity _ _ _ _ _ _ from .further h) hc)
    (fun t _ _ _ _ _ _ h => by
      rcases t with w | i
      · exact h.elim
      · cases (h : FailureRule _ _ _ _ _) with
        | reserve hq =>
          obtain ⟨-, rfl⟩ := BlockingQueue.failedDrainSection_eq hq
          simp [winding_down, ClientPc.weight, BlockingQueue.weight])

theorem runWith_of_closed [Fintype ι] (h : RunWith (failing capacity) (FailsWell capacity) init log c)
    (hc : c.shared.queue.closed = true) (h' : Run (failing capacity) c log' c') :
    RunWith (failing capacity) (FailsWell capacity) init (log ++ log') c' ∧ c'.shared.queue.closed = true := by
  induction h' with
  | refl => exact ⟨by simpa using h, hc⟩
  | tail _ hs ih =>
    obtain ⟨hrun, hc'⟩ := ih
    refine ⟨by rw [← List.append_assoc]; exact hrun.tail (fun _ => .inl hc') hs, ?_⟩
    cases hs with
    | mk hr => exact failure_closed hr hc'

/-- A shutdown in progress goes on until it has joined. -/
theorem joined_or_shutting (h : Run (failing capacity) init log c) {i : ι}
    (hi : (c.pc (.inr i)).shutting = true) (h' : Run (failing capacity) c log' c') :
    (c'.pc (.inr i)).shutting = true ∨ c'.shared.joined = true := by
  apply h'.induct (I := fun _ d => (d.pc (.inr i)).shutting = true ∨ d.shared.joined = true) (.inl hi)
  intro log' d t ev m p hrun ih hr
  have hj := (failing_joins (h.trans hrun)).2 t
  have hmono : d.shared.joined = true → m.joined = true := by
    cases (hr : Extended _ _ _ _ _ _ _ _) with
    | base hr => exact (rule_guarantee hj hr).joined
    | further hr =>
      rcases t with w | k
      · exact hr.elim
      · exact (FailureRule.guarantee (i := k) hr).joined
  rcases ih with hs | hd
  · by_cases ht : t = .inr i
    · subst ht
      generalize hp : d.pc (.inr i) = q at hr hs hj
      cases (hr : Extended _ _ _ _ _ _ _ _) with
      | base hr =>
        cases (hr : ClientRule capacity i _ _ _ _ _) with
        | leave => exact .inr (by simpa using ClientPc.Joins.done hj _ rfl)
        | close _ | closed | join _ | count => exact .inl (by simp)
        | _ => simp [ClientPc.shutting] at hs
      | further hr => cases (hr : FailureRule _ _ _ _ _); simp [ClientPc.shutting] at hs
    · exact .inl (by simpa [Function.update_of_ne (Ne.symm ht)] using hs)
  · exact .inr (hmono hd)

/-- **A failed abort is recovered from.**  In a run of at least one worker in which every failure of
`close_and_drain` finds the queue closed already or recoverable: a failure leaves the queue as it was or
makes no predicate of a blocked thread true, and from any configuration with the queue closed the pool
winds down. -/
theorem failed_drain_recovers [Fintype ι] (hW : 0 < W)
    (h : RunWith (failing capacity) (FailsWell capacity) init log c) :
    (∀ t d, FailsWell capacity c (t, .inr .reserve) → Step (failing capacity) c (t, .inr .reserve) d →
      BlockingQueue.LeavesNobody capacity c.shared.queue d.shared.queue) ∧
    (c.shared.queue.closed = true → WindsDown capacity c) := by
  refine ⟨fun t d hp hs => ?_, fun hc => ⟨?_, ⟨(failing_down capacity).total c, ?_⟩, ?_⟩⟩
  · cases hs with
    | mk hr =>
      cases (hr : Extended _ _ _ _ _ _ _ _) with
      | further hr =>
        rcases t with w | i
        · exact hr.elim
        · generalize c.pc (.inr i) = q at hr
          cases (hr : FailureRule _ _ _ _ _) with
          | reserve hq => exact BlockingQueue.leavesNobody (c := (toQueue capacity).config c) (hp rfl) hq
  · exact busy_canGoOn (failing_joins h.run).2 (failing_wakeable hW h hc)
  · intro log' c' h' hn
    have hok : ∀ l ∈ log', (failing_down (W := W) (ι := ι) capacity).ok l.2 := by
      intro l hl ev hev
      have hb := hn l hl
      rw [Sum.getLeft?_eq_some_iff.mp hev] at hb
      exact hb
    exact (Nat.le_add_right _ _).trans ((failing_down capacity).length_le h' hc hok)
  · intro log' c' h' hn hmax
    obtain ⟨hrun, hc'⟩ := runWith_of_closed h hc h'
    -- where only new calls are left, nobody goes on, so everybody has come to the end
    have hstuck : ¬ CanGoOn capacity c' := by
      rintro ⟨l, d, hs, -, hl⟩
      cases hs with
      | mk hr =>
        have := hmax _ _ (.mk (R := failing capacity) (Extended.base hr))
        rw [begins, Sum.elim_inl, hl] at this
        cases this
    have hgo := busy_canGoOn (failing_joins hrun.run).2 (failing_wakeable hW hrun hc')
    have hw : ∀ w, c'.pc (.inl w) = .exited := by
      by_contra hne
      exact hstuck (hgo (.inl (not_forall.mp hne)))
    have hi : ∀ i, c'.pc (.inr i) = .idle := by
      by_contra hne
      exact hstuck (hgo (.inr (not_forall.mp hne)))
    refine ⟨hw, hi, fun ⟨i, hsi⟩ => ?_⟩
    rcases joined_or_shutting h.run hsi h' with hs | hj
    · rw [hi i] at hs
      cases hs
    · exact hj

/-- A schedule for a queue of two: client 0 submits a task, and client 1 enters `shutdown_now`. -/
def failedSchedule : List (Thread 1 (Fin 2) × Option (Act 1 (Fin 2))) :=
  [(.inr 0, some (.submit 1 ⟨.returns⟩ 0)), (.inr 0, some (.queue .lock)), (.inr 1, some .shutdown_now)]

/-- Its log, and the configuration before the reserve. -/
def failedRun : List (Thread 1 (Fin 2) × (Event 1 ⊕ Failure)) × System 1 (Fin 2) :=
  (play (extendAct (act 2) failAct) failedSchedule init).get rfl

/-- The reserve fails with one item in the queue and nobody blocked, and the pool winds down. -/
theorem failed_drain_recovers_failedRun :
    WindsDown 2 ⟨{ failedRun.2.shared with queue := { failedRun.2.shared.queue with closed := true } },
      Function.update failedRun.2.pc (.inr 1) .idle⟩ := by
  have hrun : Run (failing 2) init failedRun.1 failedRun.2 := play_run (extendAct_sound act_sound failAct_sound) rfl
  have hbase : ∀ l ∈ failedRun.1, l.2.isLeft = true := by decide
  have hwith : RunWith (failing 2) (FailsWell 2) init failedRun.1 failedRun.2 :=
    hrun.runWith fun l hl _ he => absurd (hbase l hl) (by rw [he]; decide)
  have hwell : FailsWell 2 failedRun.2 ((.inr 1 : Thread 1 (Fin 2)), .inr .reserve) :=
    fun _ => .inr ⟨by decide, by decide, .inl (by decide)⟩
  have hfail : Step (failing 2) failedRun.2 (.inr (1 : Fin 2), .inr .reserve)
      ⟨{ failedRun.2.shared with queue := { failedRun.2.shared.queue with closed := true } },
        Function.update failedRun.2.pc (.inr 1) .idle⟩ :=
    .mk (.further (show FailureRule failedRun.2.shared (.draining .enter) .reserve _ .idle from .reserve rfl))
  exact (failed_drain_recovers (by decide) (hwith.tail hwell hfail)).2 rfl

/-! A schedule for a queue of one: both workers wait for work, client 0 fills the queue and has not yet
notified, client 2 waits for space, and client 1 enters `shutdown_now`. -/

def waitingSchedule : List (Thread 2 (Fin 3) × Option (Act 2 (Fin 3))) :=
  [(.inl 0, some .go), (.inl 0, some (.queue .lock)), (.inl 1, some .go), (.inl 1, some (.queue .lock)),
   (.inr 0, some (.submit 1 ⟨.returns⟩ 0)), (.inr 0, some (.queue .lock)),
   (.inr 2, some (.submit 2 ⟨.returns⟩ 1)), (.inr 2, some (.queue .lock)), (.inr 1, some .shutdown_now)]

/-- Its log, and the configuration before the reserve. -/
def waitingRun : List (Thread 2 (Fin 3) × (Event 2 ⊕ Failure)) × System 2 (Fin 3) :=
  (play (extendAct (act 1) failAct) waitingSchedule init).get rfl

/-- The schedule goes on: the reserve fails, worker 0 is notified, runs the task and exits, client 2 is
refused, and client 1 joins worker 0 in `shutdown`. -/
def strandedSchedule : List (Thread 2 (Fin 3) × Option (Act 2 (Fin 3))) :=
  waitingSchedule ++
    [(.inr 1, none), (.inr 0, some (.queue (.notify (some (.inl 0))))), (.inr 0, some .go),
     (.inl 0, some (.queue .lock)), (.inl 0, some (.queue (.notify (some (.inr 2))))),
     (.inl 0, some (.clock 2)), (.inl 0, some (.clock 3)), (.inl 0, some .go), (.inl 0, some .go),
     (.inl 0, some (.queue .lock)), (.inl 0, some .go), (.inr 2, some (.queue .lock)),
     (.inr 2, some (.clock 4)), (.inr 2, some .go), (.inr 1, some (.shutdown .shutdown)),
     (.inr 1, some (.queue .lock)), (.inr 1, some .go), (.inr 1, some .go), (.inr 1, some .go)]

/-- Its log, and the configuration in which client 1 waits for worker 1. -/
def strandedRun : List (Thread 2 (Fin 3) × (Event 2 ⊕ Failure)) × System 2 (Fin 3) :=
  (play (extendAct (act 1) failAct) strandedSchedule init).get rfl

/-- There worker 1 is blocked, and nobody is left to notify it. -/
theorem strandedRun_stuck : ¬ CanGoOn 1 strandedRun.2 := by
  rintro ⟨l, c, ⟨hr⟩, hs, hn⟩
  rename_i t ev m p
  rcases t with w | i
  · fin_cases w
    · cases (show WorkerRule 0 strandedRun.2.shared .exited ev m p from hr)
    · cases (show WorkerRule 1 strandedRun.2.shared (.popping .waiting) ev m p from hr) with
      | pop h =>
        cases h with
        | resume hw _ => exact hw (by decide)
        | spurious _ => exact hs rfl
  · fin_cases i
    · cases (show ClientRule 1 0 strandedRun.2.shared .idle ev m p from hr) <;> cases hn
    · cases (show ClientRule 1 1 strandedRun.2.shared (.joining (.close .shutdown) (.loop 1)) ev m p from hr) with
      | join h =>
        cases h with
        | join _ _ hf => cases hf
        | skip _ hj => cases hj
        | joined hle => exact absurd hle (by decide)
    · cases (show ClientRule 1 2 strandedRun.2.shared .idle ev m p from hr) <;> cases hn

/-- **A failed abort strands threads**: the failure makes the predicate of client 2 true and notifies
nobody, and the `shutdown` that follows never returns. -/
theorem failed_drain_strands :
    (¬ ∀ (W capacity : ℕ) (log : List (Thread W (Fin 3) × (Event W ⊕ Failure))) (c d : System W (Fin 3))
      (t : Thread W (Fin 3)), 0 < W → 0 < capacity → Run (failing capacity) init log c →
      Step (failing capacity) c (t, .inr .reserve) d →
      BlockingQueue.LeavesNobody capacity c.shared.queue d.shared.queue) ∧
    ¬ ∀ (W capacity : ℕ) (log : List (Thread W (Fin 3) × (Event W ⊕ Failure))) (c : System W (Fin 3)),
      0 < W → 0 < capacity → Run (failing capacity) init log c → c.shared.queue.closed = true →
      WindsDown capacity c := by
  constructor
  · intro hall
    have hrun : Run (failing 1) init waitingRun.1 waitingRun.2 :=
      play_run (extendAct_sound act_sound failAct_sound) rfl
    have hfail : Step (failing 1) waitingRun.2 (.inr (1 : Fin 3), .inr .reserve)
        ⟨{ waitingRun.2.shared with queue := { waitingRun.2.shared.queue with closed := true } },
          Function.update waitingRun.2.pc (.inr 1) .idle⟩ :=
      .mk (.further (show FailureRule waitingRun.2.shared (.draining .enter) .reserve _ .idle from .reserve rfl))
    rcases hall _ _ _ _ _ _ (by decide) (by decide) hrun hfail with hsame | ⟨-, hfull⟩
    · exact absurd (congrArg BlockingQueue.closed hsame) (by decide)
    · rcases hfull (.inr 2) (by decide) (.inl rfl) with hc | hlen
      · exact absurd hc (by decide)
      · exact absurd hlen (by decide)
  · intro hall
    have hrun : Run (failing 1) init strandedRun.1 strandedRun.2 :=
      play_run (extendAct_sound act_sound failAct_sound) rfl
    exact strandedRun_stuck ((hall _ _ _ _ (by decide) (by decide) hrun rfl).progress
      (.inl ⟨1, by decide⟩))

end WindingDown

end ThreadPool

end TaskEngine
