import TaskEngine.Pool.Progress

/-!
# TaskEngine.Pool.Budget — how long a run can be

Also while the queue is open, a step is paid for: by the call that it belongs to, by the item that it
handles, or by whoever woke its thread.  A push sends one notification and queues one item, which a
worker then pays its own notification and its next wait with; a blocked thread counts one less than a
thread that runs.  Only a spurious wake-up is paid for by nothing, and `budget` charges two for it.
-/

namespace TaskEngine

open Interleaving

/-! ## Inside the queue -/

namespace BlockingQueue

variable {T θ : Type}

section Budget

/-- What a step inside the queue costs. -/
def Event.cost : Event T → ℕ
  | .spurious => 2
  | _ => 0

def PushPc.budget : PushPc T → ℕ
  | .enter _ => 13
  | .waiting _ => 12
  | .notifying _ => 3
  | .refused _ => 2
  | .done _ => 1

def PopPc.budget : PopPc T → ℕ
  | .enter => 3
  | .waiting => 2
  | .notifying _ => 9
  | .done (some _) => 7
  | .done none => 1

/-- A `notify_all` wakes at most the `n` threads that there are. -/
def ClosePc.budget (n : ℕ) : ClosePc → ℕ
  | .enter => 2 * n + 3
  | .notifyingEmpty => 2 * n + 2
  | .notifyingFull => n + 1
  | .done => 0

def DrainPc.budget (n : ℕ) : DrainPc T → ℕ
  | .enter => 2 * n + 3
  | .notifyingEmpty drained => 2 * n + 2 + drained.length
  | .notifyingFull drained => n + 1 + drained.length
  | .done drained => drained.length

/-- The items, and the threads that may yet block. -/
def budget [Fintype θ] (q : BlockingQueue T θ) : ℕ :=
  8 * q.items.length + q.not_empty.running + q.not_full.running

variable [Fintype θ] [DecidableEq θ] {t : θ} {q q' : BlockingQueue T θ} {ev : Event T}

theorem PushRule.spend {capacity : ℕ} {p p' : PushPc T} (h : PushRule capacity t q p ev q' p') :
    p'.budget + q'.budget < p.budget + q.budget + ev.cost := by
  cases h with
  | enter h =>
    cases pushSection_cases h with
    | refuse _ => simp [PushPc.budget, Event.cost]
    | insert _ _ => simp only [PushPc.budget, budget, List.length_append, List.length_singleton]; omega
    | block _ _ =>
      have := q.not_full.wait_running_le t
      simp only [PushPc.budget, budget]
      omega
  | resume hw h =>
    cases pushSection_cases h with
    | refuse _ => simp [PushPc.budget, budget, Event.cost]
    | insert _ _ =>
      simp only [PushPc.budget, budget, List.length_append, List.length_singleton, CondVar.resume_running]
      omega
    | block _ _ =>
      -- whoever blocks again is running no more, which pays for the step
      have := CondVar.wait_running (show t ∉ (q.not_full.resume t).waiting from hw)
      rw [CondVar.resume_running] at this
      simp only [PushPc.budget, budget]
      omega
  | spurious hw =>
    have := CondVar.wake_running hw
    simp only [PushPc.budget, budget, Event.cost]
    omega
  | notify_one h =>
    have := h.running_le
    simp only [PushPc.budget, budget]
    omega

theorem PopRule.spend {p p' : PopPc T} (h : PopRule t q p ev q' p') :
    p'.budget + q'.budget < p.budget + q.budget + ev.cost := by
  cases h with
  | enter h =>
    cases popSection_cases h with
    | exhaust _ _ => simp [PopPc.budget, Event.cost]
    | take hi => simp only [PopPc.budget, budget, hi, List.length_cons]; omega
    | block _ _ =>
      have := q.not_empty.wait_running_le t
      simp only [PopPc.budget, budget]
      omega
  | resume hw h =>
    cases popSection_cases h with
    | exhaust _ _ => simp [PopPc.budget, budget, Event.cost]
    | take hi =>
      simp only [PopPc.budget, budget, show q.items = _ from hi, List.length_cons, CondVar.resume_running]
      omega
    | block _ _ =>
      have := CondVar.wait_running (show t ∉ (q.not_empty.resume t).waiting from hw)
      rw [CondVar.resume_running] at this
      simp only [PopPc.budget, budget]
      omega
  | spurious hw =>
    have := CondVar.wake_running hw
    simp only [PopPc.budget, budget, Event.cost]
    omega
  | notify_one h =>
    have := h.running_le
    simp only [PopPc.budget, budget]
    omega

theorem CloseRule.spend {p p' : ClosePc} (h : CloseRule q p ev q' p') :
    p'.budget (Fintype.card θ) + q'.budget < p.budget (Fintype.card θ) + q.budget + ev.cost := by
  cases h with
  | enter h =>
    cases closeSection_cases h with
    | again _ => simp [ClosePc.budget, Event.cost]
    | close _ => simp only [ClosePc.budget, budget]; omega
  | notify_empty => simp only [ClosePc.budget, budget, CondVar.notify_all_running]; omega
  | notify_full => simp only [ClosePc.budget, budget, CondVar.notify_all_running]; omega

theorem DrainRule.spend {p p' : DrainPc T} (h : DrainRule q p ev q' p') :
    p'.budget (Fintype.card θ) + q'.budget < p.budget (Fintype.card θ) + q.budget + ev.cost := by
  cases h with
  | enter h => cases h; simp only [DrainPc.budget, budget, List.length_nil]; omega
  | notify_empty => simp only [DrainPc.budget, budget, CondVar.notify_all_running]; omega
  | notify_full => simp only [DrainPc.budget, budget, CondVar.notify_all_running]; omega

end Budget

end BlockingQueue

/-! ## The pool -/

namespace ThreadPool

variable {W : ℕ} {ι : Type}

section Budget

variable (W) in
/-- What a shutdown call is worth: its notifications, and the join of every worker. -/
def closingBudget (n : ℕ) : ℕ := W + 2 * n + 10

/-- What a step costs, with `n` threads in all: a call, all that is done for it. -/
def Event.cost (n : ℕ) : Event W → ℕ
  | .queue ev => ev.cost
  | .submit _ => 14
  | .shutdown _ | .shutdown_now => closingBudget W n
  | _ => 0

attribute [simp] Event.cost.eq_1 Event.cost.eq_2 Event.cost.eq_3 Event.cost.eq_4

def WorkerPc.budget : WorkerPc → ℕ
  | .starting => 4
  | .popping p => p.budget
  | .running _ _ => 6
  | .executed _ _ _ => 5
  | .recording _ _ => 4
  | .exited => 0

variable (W) in
def ClientPc.budget (n : ℕ) : ClientPc → ℕ
  | .idle => 0
  | .pushing p => p.budget
  | .counting _ => 1
  | .closing _ p => W + 5 + p.budget n
  | .draining p => W + 6 + p.budget n
  | .discarding _ _ rest => W + 5 + rest.length
  | .joining _ p => p.weight W

variable [DecidableEq ι] [Fintype ι] {m m' : ThreadPool W ι} {ev : Event W}

theorem WorkerRule.spend {w : Fin W} {p p' : WorkerPc} (n : ℕ) (h : WorkerRule w m p ev m' p') :
    p'.budget + m'.queue.budget < p.budget + m.queue.budget + ev.cost n := by
  cases h with
  | pop h => exact h.spend
  | _ => simp [WorkerPc.budget, BlockingQueue.PopPc.budget]; omega

theorem ClientRule.spend {capacity : ℕ} {i : ι} {p p' : ClientPc} {n : ℕ}
    (hn : n = Fintype.card (Thread W ι)) (h : ClientRule capacity i m p ev m' p') :
    p'.budget W n + m'.queue.budget < p.budget W n + m.queue.budget + ev.cost n := by
  subst hn
  cases h with
  | push h => exact h.spend
  | close h =>
    have := h.spend
    simp only [ClientPc.budget, Event.cost]
    omega
  | drain h =>
    have := h.spend
    simp only [ClientPc.budget, Event.cost]
    omega
  | join h =>
    have := h.lower
    rw [h.toQueue.2]
    simp only [ClientPc.budget]
    omega
  | shutdown _ =>
    simp only [ClientPc.budget, BlockingQueue.ClosePc.budget, Event.cost, closingBudget]
    omega
  | destructor _ =>
    simp only [ClientPc.budget, BlockingQueue.ClosePc.budget, Event.cost, closingBudget]
    omega
  | shutdown_now _ =>
    simp only [ClientPc.budget, BlockingQueue.DrainPc.budget, Event.cost, closingBudget]
    omega
  | leave => simp [ClientPc.budget, JoinPc.weight]; omega
  | closed => simp [ClientPc.budget, JoinPc.weight, BlockingQueue.ClosePc.budget]; omega
  | drained _ => simp [ClientPc.budget, BlockingQueue.DrainPc.budget]; omega
  | submit _ _ _ => simp [ClientPc.budget, BlockingQueue.PushPc.budget]; omega
  | _ => simp [ClientPc.budget, JoinPc.weight, BlockingQueue.PushPc.budget]; omega

/-- What is left to do, with the queue open or not. -/
def budget (capacity : ℕ) : Potential (rules (W := W) (ι := ι) capacity) where
  weight
    | .inl _, p => WorkerPc.budget p
    | .inr _, p => ClientPc.budget W (Fintype.card (Thread W ι)) p
  store m := m.queue.budget
  cost := Event.cost (Fintype.card (Thread W ι))
  spend t _ _ _ _ _ h := by
    rcases t with w | i
    · exact WorkerRule.spend _ h
    · exact ClientRule.spend rfl h

theorem budget_init (capacity : ℕ) :
    (budget capacity).total (init : System W ι) = 6 * W + 2 * Fintype.card ι := by
  simp only [Potential.total, budget, init, fresh, BlockingQueue.budget, BlockingQueue.empty,
    CondVar.running, Fintype.sum_sum_type, WorkerPc.budget, ClientPc.budget, CondVar.idle_waiting,
    List.length_nil, Finset.card_empty, Finset.sum_const, Finset.card_univ, Fintype.card_sum,
    Fintype.card_fin, smul_eq_mul]
  omega

/-- **The length of a run**, with any clients: what its calls are worth, and two for every spurious
wake-up. -/
theorem length_le {capacity : ℕ} {c : System W ι} {log : List (Thread W ι × Event W)}
    (h : Run (rules capacity) init log c) :
    log.length ≤ 6 * W + 2 * Fintype.card ι +
      (log.map fun l => l.2.cost (Fintype.card (Thread W ι))).sum := by
  have := (budget capacity).length_le h
  rw [budget_init] at this
  exact le_trans (Nat.le_add_right _ _) this

end Budget

end ThreadPool

end TaskEngine
