import TaskEngine.App.Outcome
import TaskEngine.Engine.Progress

/-!
# TaskEngine.App.Progress — a run comes to its end

Every step is paid for (`budget`): a task by the iteration of the loop that submits it, a call by the
point of `run` that makes it, and only signals and spurious wake-ups add to the bound.  Until the main
thread exits, some step can be taken that is neither (`progress`).  So every run ends, and ends in an
exit; `run_outcome` adds what the exit comes to.
-/

namespace TaskEngine

open Interleaving

namespace App

variable {W : ℕ}

/-! ## What is left to do -/

section Budget

/-- What nothing in the process pays for: a spurious wake-up and a signal. -/
def Event.cost : Event W → ℕ
  | .signal => 1
  | .engine (.pool (.queue ev)) => ev.cost
  | _ => 0

variable (W) in
/-- What is left of `run` beyond the submissions: two shutdown calls, the summary and the points between. -/
def Frame.budget (options : Options) (n : ℕ) : Frame → ℕ
  | .loop submitted =>
    16 * (options.tasks - submitted) + 2 * ThreadPool.closingBudget W n + 9
  | .body submitted =>
    16 * (options.tasks - (submitted + 1)) + 2 * ThreadPool.closingBudget W n + 24
  | .after _ => 2 * ThreadPool.closingBudget W n + 8
  | .stop _ => 2 * ThreadPool.closingBudget W n + 7
  | .stopped _ => ThreadPool.closingBudget W n + 7
  | .summing _ => ThreadPool.closingBudget W n + 1
  | .leaving _ _ => ThreadPool.closingBudget W n + 1
  | .destroying _ _ => 1
  | .exited _ _ => 0

theorem call_cost {capacity : ℕ} {m m' : Engine W Client} {p p' : Engine.ClientPc} {ev : Engine.Event W}
    (n : ℕ) (h : Engine.ClientRule capacity .main m p ev m' p') (hp : p ≠ .pool .idle) :
    ev.cost n = (Event.engine ev).cost := by
  cases h with
  | assign _ _ => exact absurd rfl hp
  | summary _ => exact absurd rfl hp
  | submit _ _ _ => rfl
  | pool hev h =>
    rw [Engine.Event.cost_pool hev]
    cases h with
    | submit _ _ _ => exact absurd rfl hp
    | shutdown _ => exact absurd rfl hp
    | destructor _ => exact absurd rfl hp
    | shutdown_now _ => exact absurd rfl hp
    | join h => cases h <;> rfl
    | _ => rfl
  | sum h => cases h <;> rfl
  | summarized => rfl

theorem WorkerRule.spend {w : Fin W} {m m' : Process W} {p p' : ThreadPool.WorkerPc} {ev : Event W}
    (h : WorkerRule w m p ev m' p') :
    p'.budget + m'.engine.pool.queue.budget < p.budget + m.engine.pool.queue.budget + ev.cost := by
  cases h with
  | engine h =>
    have hs := h.spend 0
    cases h with
    | pool h => cases h <;> exact hs

theorem MainRule.spend {options : Options} {m m' : Process W} {p p' : MainPc} {ev : Event W} {n : ℕ}
    (hn : n = Fintype.card (Thread W Client)) (h : MainRule options m p ev m' p') :
    p'.frame.budget W options n + p'.call.budget W n + m'.engine.pool.queue.budget <
      p.frame.budget W options n + p.call.budget W n + m.engine.pool.queue.budget + ev.cost := by
  cases h with
  | poll hn _ => simp only [Frame.budget, Event.cost]; omega
  | interrupt hn _ => simp only [Frame.budget, Event.cost]; omega
  | ended hn => simp only [Frame.budget, Event.cost]; omega
  | read => simp only [Frame.budget, Event.cost]; omega
  | exit => simp only [Frame.budget, Event.cost]; omega
  | submit h =>
    have := h.spend hn
    simp only [Frame.budget, Event.cost, Engine.Event.cost] at this ⊢
    omega
  | shutdown h =>
    have := h.spend hn
    simp only [Frame.budget, Event.cost, Engine.Event.cost, ThreadPool.Event.cost] at this ⊢
    omega
  | shutdown_now h =>
    have := h.spend hn
    simp only [Frame.budget, Event.cost, Engine.Event.cost, ThreadPool.Event.cost] at this ⊢
    omega
  | summary h =>
    have := h.spend hn
    simp only [Frame.budget, Event.cost, Engine.Event.cost] at this ⊢
    omega
  | summarized h =>
    have := h.spend hn
    simp only [Frame.budget, Event.cost, Engine.Event.cost] at this ⊢
    omega
  | threw h =>
    have := h.spend hn
    simp only [Frame.budget, Event.cost, Engine.Event.cost] at this ⊢
    omega
  | destructor h =>
    have := h.spend hn
    simp only [Frame.budget, Event.cost, Engine.Event.cost, ThreadPool.Event.cost] at this ⊢
    omega
  | call hp _ h =>
    have := h.spend hn
    rw [call_cost n h hp] at this
    simp only at this ⊢
    omega

/-- What is left to do in a run. -/
def budget (options : Options) : Potential (rules (W := W) options) where
  weight
    | .inl _, p => ThreadPool.WorkerPc.budget p
    | .inr .main, p =>
      (MainPc.frame p).budget W options (Fintype.card (Thread W Client)) +
        (MainPc.call p).budget W (Fintype.card (Thread W Client))
    | .inr .handler, _ => 0
  store m := m.engine.pool.queue.budget
  cost := Event.cost
  spend t _ _ _ _ _ h := by
    rcases t with w | _ | _
    · exact WorkerRule.spend h
    · exact MainRule.spend rfl h
    · cases (h : HandlerRule _ _ _)
      exact Nat.lt_succ_self _

/-- Sixteen steps a task, and twelve a worker. -/
theorem total_init (options : Options) :
    (budget options).total (init : System W) = 16 * options.tasks + 12 * W + 41 := by
  have hcard : Fintype.card (Thread W Client) = W + 2 := by
    rw [Fintype.card_sum, Fintype.card_fin]
    rfl
  have hsum : ∑ t, (budget options).weight t ((init : System W).pc t) =
      W * 4 + (16 * options.tasks + 2 * ThreadPool.closingBudget W (W + 2) + 9) := by
    rw [Fintype.sum_sum_type, ← hcard]
    congr 1
    simp [budget, init, ThreadPool.WorkerPc.budget]
  rw [Potential.total, hsum, ThreadPool.closingBudget]
  simp only [budget, init, Engine.init, ThreadPool.fresh, BlockingQueue.budget, BlockingQueue.empty,
    CondVar.running, CondVar.idle_waiting, List.length_nil, Finset.card_empty, hcard]
  omega

end Budget

/-! ## The engine lives until the end of `run` -/

section Alive

/-- Past the call of the destructor. -/
def Frame.destroys : Frame → Bool
  | .destroying _ _ | .exited _ _ => true
  | _ => false

variable {options : Options} {c : System W} {log : List (Thread W Client × Event W)}

/-- Only the end of the scope calls the destructor. -/
theorem MainRule.undestroyed {m m' : Process W} {p p' : MainPc} {ev : Event W}
    (h : MainRule options m p ev m' p') (hp' : p'.frame.destroys = false) :
    p.frame.destroys = false ∧
      ∀ l ∈ poolLog [((.inr .main, ev) : Thread W Client × Event W)], l.2 ≠ .shutdown .destructor := by
  have hone : ∀ {ev' : ThreadPool.Event W}, ev' ≠ .shutdown .destructor →
      ∀ l ∈ poolLog [((.inr .main, .engine (.pool ev')) : Thread W Client × Event W)],
        l.2 ≠ .shutdown .destructor := fun {ev'} hne l hl => by
    rw [List.mem_singleton.mp (show l ∈ [(Sum.inr Client.main, ev')] from hl)]
    exact hne
  cases h with
  | shutdown _ => exact ⟨rfl, hone (by simp)⟩
  | shutdown_now _ => exact ⟨rfl, hone (by simp)⟩
  | destructor _ => cases hp'
  | call hp _ h =>
    refine ⟨hp', ?_⟩
    intro l hl hd
    have := (call_quiet h hp).closing l hl
    rw [hd] at this
    cases this
  | exit => cases hp'
  | _ => exact ⟨rfl, fun l hl => by rw [poolLog_unseen rfl] at hl; cases hl⟩

theorem alive (h : Run (rules options) init log c) (hx : (c.pc (.inr .main)).frame.destroys = false) :
    c.shared.engine.pool.lifetime = .alive := by
  refine ThreadPool.alive_of_no_destructor (pool_run h) ?_
  revert hx
  refine h.induct (I := fun log d => (d.pc (.inr .main)).frame.destroys = false →
    ∀ l ∈ poolLog log, l.2 ≠ .shutdown .destructor) (by simp) ?_
  intro log d t ev m p hrun ih hr hx l hl
  rw [poolLog_append, List.mem_append] at hl
  -- only the main thread calls the destructor, at the end of the scope of the engine
  rcases t with w | _ | _
  · dsimp only at hx
    rw [Function.update_of_ne (by simp)] at hx
    rcases hl with hl | hl
    · exact ih hx l hl
    · intro hd
      have := (worker_quiet hr).1.closing l hl
      rw [hd] at this
      cases this
  · obtain ⟨hd, hev⟩ := MainRule.undestroyed hr (by simpa using hx)
    exact hl.elim (ih hd l) (hev l)
  · dsimp only at hx
    rw [Function.update_of_ne (by simp)] at hx
    cases (hr : HandlerRule _ _ _)
    rw [poolLog_unseen rfl] at hl
    exact hl.elim (ih hx l) nofun

end Alive

/-! ## Progress -/

section Progress

variable {options : Options} {c : System W} {log : List (Thread W Client × Event W)}

/-- The main thread has left `run`. -/
def Exited (c : System W) : Prop := ∃ code summary, (c.pc (.inr .main)).frame = .exited code summary

/-- A step can be taken that is paid for. -/
def CanGoOn (options : Options) (c : System W) : Prop :=
  ∃ l c', Step (rules options) c l c' ∧ l.2.cost = 0

theorem CanGoOn.main {p p' : MainPc} {ev : Event W} {m : Process W} (hp : c.pc (.inr .main) = p)
    (h : MainRule options c.shared p ev m p') (hev : ev.cost = 0) : CanGoOn options c := by
  subst hp
  exact ⟨((Sum.inr Client.main : Thread W Client), ev), _, .mk (R := rules options) h, hev⟩

theorem cost_le (n : ℕ) (ev : Engine.Event W) : (Event.engine ev).cost ≤ ev.cost n := by
  cases ev with
  | pool ev => cases ev <;> first | exact le_rfl | exact Nat.zero_le _
  | _ => exact Nat.zero_le _

theorem canGoOn_of_engine (hsum : ∀ q, (c.pc (.inr .main)).call = .summing q →
      ∃ interrupted, (c.pc (.inr .main)).frame = .summing interrupted)
    (h : Engine.CanProceed options.queue_capacity ((toEngine options).config c)) : CanGoOn options c := by
  obtain ⟨⟨t, ev⟩, d, hs, hev⟩ := h
  have hcost : (Event.engine ev).cost = 0 := Nat.le_zero.mp ((cost_le _ ev).trans hev.le)
  cases hs with
  | mk hr =>
    rcases t with w | _ | _
    · exact ⟨((Sum.inl w : Thread W Client), _), _, .mk (R := rules options) (WorkerRule.engine hr), hcost⟩
    · change Engine.ClientRule _ .main c.shared.engine (c.pc (.inr .main)).call ev _ _ at hr
      generalize hp : c.pc (.inr .main) = p at hr hsum
      obtain ⟨frame, call⟩ := p
      have hne : call ≠ .pool .idle := by
        rintro rfl
        exact (Engine.ClientRule.cost_pos hr).ne' hev
      by_cases hdone : ∃ result, ev = .summarized result
      · -- the return of `summary` is a step of `run`
        obtain ⟨result, rfl⟩ := hdone
        cases hr with
        | sum hr => cases hr
        | summarized =>
          obtain ⟨interrupted, rfl⟩ := hsum _ rfl
          cases result with
          | ok summary => exact .main hp (.summarized .summarized) rfl
          | error e => exact .main hp (.threw .summarized) rfl
      · exact .main hp (.call hne (fun result hr => hdone ⟨result, hr⟩) hr) hcost
    · exact absurd hev (Engine.ClientRule.cost_pos (i := Client.handler) hr).ne'

/-- `summary` is called at one point of `run`. -/
theorem MainPc.Controls.summing {p : MainPc} {m : Process W} (hc : p.Controls options log m)
    (hx : ∀ code summary, p.frame ≠ .exited code summary) {q : Engine.SummaryPc} (hq : p.call = .summing q) :
    ∃ interrupted, p.frame = .summing interrupted := by
  obtain ⟨frame, call⟩ := p
  cases hq
  cases frame with
  | loop n => cases hc.2.2.2
  | body n => cases hc.2.2.2.1
  | after n => cases hc.2.2.2.1
  | stop interrupted => cases hc.2.2
  | stopped interrupted => cases hc.2.1
  | summing interrupted => exact ⟨interrupted, rfl⟩
  | leaving code summary => cases hc.2
  | destroying code summary => cases hc.2
  | exited code summary => exact absurd rfl (hx code summary)

theorem MainPc.Controls.undestroyed {p : MainPc} {m : Process W} (hc : p.Controls options log m)
    (hx : ∀ code summary, p.frame ≠ .exited code summary) {id : TaskId} {task : Task}
    (hp : p.call = .assigned id task) : p.frame.destroys = false := by
  obtain ⟨frame, call⟩ := p
  cases hp
  cases frame with
  | destroying code summary => cases hc.2
  | exited code summary => exact absurd rfl (hx code summary)
  | _ => rfl

theorem call_canGoOn (hq : 0 < options.queue_capacity) (hW : 0 < W) (h : Run (rules options) init log c)
    (hx : ¬ Exited c) (hne : (c.pc (.inr .main)).call ≠ .pool .idle) : CanGoOn options c := by
  have hc := controlled hW h
  have hx' : ∀ code summary, (c.pc (.inr .main)).frame ≠ .exited code summary :=
    fun code summary hp => hx ⟨code, summary, hp⟩
  refine canGoOn_of_engine (fun _ => hc.summing hx') ?_
  exact Engine.call_canProceed hq hW (engine_run h) (i := .main) hne fun _ _ hp => alive h (hc.undestroyed hx' hp)

/-- **Progress**: until the main thread has exited, some step is neither a signal nor a spurious
wake-up. -/
theorem progress (hq : 0 < options.queue_capacity) (hW : 0 < W) (h : Run (rules options) init log c)
    (hx : ¬ Exited c) : CanGoOn options c := by
  by_cases hne : (c.pc (.inr .main)).call = .pool .idle
  · have hc := controlled hW h
    have hl := alive h
    generalize hp : c.pc (.inr .main) = p at hc hl hne
    obtain ⟨frame, call⟩ := p
    cases hne
    -- between two calls nothing holds the main thread up
    cases frame with
    | loop n =>
      by_cases hn : n < options.tasks
      · cases hf : c.shared.interrupted with
        | true => exact .main hp (.interrupt hn hf) rfl
        | false => exact .main hp (.poll hn hf) rfl
      · exact .main hp (.ended (not_lt.mp hn)) rfl
    | body n => exact .main hp (.submit (.assign _ (hl rfl))) rfl
    | after n => exact .main hp .read rfl
    | stop interrupted =>
      cases interrupted with
      | true => exact .main hp (.shutdown_now (.pool rfl (.shutdown_now (hl rfl)))) rfl
      | false => exact .main hp (.shutdown (.pool rfl (.shutdown (hl rfl)))) rfl
    | stopped interrupted => exact .main hp (.summary (.summary (hl rfl))) rfl
    | summing interrupted =>
      obtain ⟨-, -, q, hcall, -⟩ := hc
      cases hcall
    | leaving code summary => exact .main hp (.destructor (.pool rfl (.destructor (hl rfl)))) rfl
    | destroying code summary => exact .main hp .exit rfl
    | exited code summary => exact absurd ⟨code, summary, by rw [hp]⟩ hx
  · exact call_canGoOn hq hW h hx hne

end Progress

/-! ## The outcome -/

section Result

/-- **The outcome of a run.**  For valid options the engine is constructed, and then, whatever the
threads and the handler do: a run has at most so many steps, up to its signals and spurious wake-ups;
until the main thread has exited, a step that is neither can be taken, and such steps lead to an exit;
and at the exit the summary and the code are those of a completed run when the flag was not set after
the loop, else those of an interrupted one.  With the code 0, all tasks were submitted and succeeded. -/
theorem run_outcome (options : Options) (hw : 1 ≤ options.workers) (hq : 1 ≤ options.queue_capacity) :
    launch options = .ok init ∧
    ∀ (log : List (Thread options.workers Client × Event options.workers)) (c : System options.workers),
      Run (rules options) init log c →
      log.length ≤ 16 * options.tasks + 12 * options.workers + 41 + (log.map fun l => l.2.cost).sum ∧
      (¬ Exited c → CanGoOn options c) ∧
      (∃ log' c', Run (rules options) c log' c' ∧ (∀ l ∈ log', l.2.cost = 0) ∧ Exited c') ∧
      ∀ code summary, (c.pc (.inr .main)).frame = .exited code summary →
        Outcome options log code summary ∧
        (code = 0 → ∃ s, summary = some s ∧ made log = (List.range options.tasks).map (make_task options) ∧
          s.total = options.tasks ∧ s.succeeded = options.tasks) := by
  refine ⟨?_, fun log c h => ⟨?_, progress hq hw h, (budget options).reaches (fun _ _ => progress hq hw) h,
    fun code summary hx => ?_⟩⟩
  · rw [launch, Engine.construct, ThreadPool.construct, if_neg (by omega), if_neg (by omega)]
    rfl
  · have := (budget options).length_le h
    rw [total_init] at this
    exact le_trans (Nat.le_add_right _ _) this
  · have hout := outcome_of_exited hw h hx
    refine ⟨hout, ?_⟩
    intro hcode
    obtain ⟨s, rfl, hs | hs⟩ := hout
    -- completed with the code 0: no task has failed
    · have hfail : s.failed = 0 := by
        by_contra hne
        have := hs.code_eq
        rw [if_neg hne, hcode] at this
        cases this
      exact ⟨s, rfl, hs.submitted, hs.total, by rw [hs.succeeded, hfail, Nat.sub_zero]⟩
    -- interrupted: the code is not 0
    · have := hs.code_eq
      rw [hcode] at this
      cases this

/-- Two tasks on one worker, the second of which is made to throw. -/
def pairOptions : Options := ⟨1, 2, 0, 1, 2, by decide⟩

/-- An iteration of the loop of `run`, up to the return of `submit`. -/
def submitActs : List (Act 1) :=
  [.go, .go, .engine (.submit 0), .engine (.pool (.queue .lock)), .engine (.pool (.queue (.notify none))),
   .engine (.pool .go)]

/-- A worker takes a task and runs it. -/
def taskActs : List (Act 1) :=
  [.engine (.pool (.queue .lock)), .engine (.pool (.queue (.notify none))), .engine (.pool (.clock 1)),
   .engine (.pool (.clock 2)), .engine (.pool .go), .engine (.pool .go)]

/-- The worker finds the queue closed and empty. -/
def leaveActs : List (Act 1) := [.engine (.pool (.queue .lock)), .engine (.pool .go)]

/-- The flag is found unset, and `shutdown` closes the queue. -/
def closeActs : List (Act 1) :=
  [.go, .go, .go, .engine (.pool (.queue .lock)), .engine (.pool (.queue .lock)),
   .engine (.pool (.queue .lock)), .engine (.pool .go)]

/-- The flag is found set, and `shutdown_now` rejects the one task in the queue. -/
def abortActs : List (Act 1) :=
  [.go, .go, .go, .engine (.pool (.queue .lock)), .engine (.pool (.queue .lock)),
   .engine (.pool (.queue .lock)), .engine (.pool (.clock 1)), .engine (.pool .go), .engine (.pool .go)]

/-- From the join on, up to the exit. -/
def exitActs : List (Act 1) :=
  [.engine (.pool .go), .engine (.pool .go), .engine (.pool .go), .engine (.pool .go), .go, .engine .go,
   .engine .go, .engine .go, .go, .go, .engine (.pool (.queue .lock)), .engine (.pool .go),
   .engine (.pool .go), .engine (.pool .go), .go]

/-- These steps of one thread, in turn. -/
def thread (t : Thread 1 Client) (acts : List (Act 1)) : List (Thread 1 Client × Act 1) :=
  acts.map (Prod.mk t)

/-- A schedule: the two tasks are submitted and run one after the other. -/
def pairSchedule : List (Thread 1 Client × Act 1) :=
  List.flatten
    [thread (.inr .main) submitActs, thread (.inl 0) (.engine (.pool .go) :: taskActs),
     thread (.inr .main) submitActs, thread (.inl 0) taskActs, thread (.inr .main) closeActs,
     thread (.inl 0) leaveActs, thread (.inr .main) exitActs]

/-- Its log, and the configuration that it ends in. -/
def pairRun : List (Thread 1 Client × Event 1) × System 1 :=
  (play (act pairOptions) pairSchedule init).get rfl

/-- A schedule: a signal comes after the first task. -/
def signalSchedule : List (Thread 1 Client × Act 1) :=
  List.flatten
    [thread (.inr .main) submitActs, thread (.inr .handler) [.go], thread (.inr .main) abortActs,
     thread (.inl 0) (.engine (.pool .go) :: leaveActs), thread (.inr .main) exitActs]

def signalRun : List (Thread 1 Client × Event 1) × System 1 :=
  (play (act pairOptions) signalSchedule init).get rfl

/-- The first run completes and the second is interrupted; both exit with the code 1. -/
theorem run_outcome_two_runs :
    (∃ s, Completed pairOptions pairRun.1 1 s) ∧ ∃ s, Interrupted pairOptions signalRun.1 1 s := by
  have houtcome := (run_outcome pairOptions le_rfl le_rfl).2
  constructor
  · have hrun : Run (rules pairOptions) init pairRun.1 pairRun.2 := play_run act_sound rfl
    obtain ⟨s, hx⟩ : ∃ s, (pairRun.2.pc (.inr .main)).frame = .exited 1 s := ⟨_, rfl⟩
    have hread : readings pairRun.1 = [false] := rfl
    generalize pairRun = r at hrun hx hread
    obtain ⟨⟨s, -, hs | hs⟩, -⟩ := (houtcome r.1 r.2 hrun).2.2.2 1 s hx
    · exact ⟨s, hs⟩
    · exact absurd (hs.set.symm.trans hread) (by simp)
  · have hrun : Run (rules pairOptions) init signalRun.1 signalRun.2 := play_run act_sound rfl
    obtain ⟨s, hx⟩ : ∃ s, (signalRun.2.pc (.inr .main)).frame = .exited 1 s := ⟨_, rfl⟩
    have hread : readings signalRun.1 = [true] := rfl
    generalize signalRun = r at hrun hx hread
    obtain ⟨⟨s, -, hs | hs⟩, -⟩ := (houtcome r.1 r.2 hrun).2.2.2 1 s hx
    · exact absurd (hs.unset.symm.trans hread) (by simp)
    · exact ⟨s, hs⟩

end Result

end App

end TaskEngine
