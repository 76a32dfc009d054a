import TaskEngine.Engine.Model
import TaskEngine.Pool.Quiescence

/-!
# TaskEngine.Engine.Progress — no call on the engine gets stuck

Every call on the engine is worth a number of steps (`budget`), and while one is under way some step can be
taken that is neither a call nor a spurious wake-up (`call_canProceed`).
-/

namespace TaskEngine

open Interleaving

namespace Engine

variable {W : ℕ} {ι : Type}

/-! ## What is left to do -/

section Budget

def SummaryPc.budget : SummaryPc → ℕ
  | .enter none => 5
  | .enter (some _) => 4
  | .collecting _ => 3
  | .collected _ => 2
  | .done _ => 1

variable (W) in
def ClientPc.budget (n : ℕ) : ClientPc → ℕ
  | .pool p => p.budget W n
  | .assigned _ _ => 14
  | .summing p => p.budget

/-- What a step costs; `submit` is paid for when the id is given out. -/
def Event.cost (n : ℕ) : Event W → ℕ
  | .pool (.submit _) => 0
  | .pool ev => ev.cost n
  | .assign _ _ => 15
  | .summary => 6
  | _ => 0

attribute [simp] Event.cost.eq_1 Event.cost.eq_3 Event.cost.eq_4

theorem Event.cost_pool {n : ℕ} {ev : ThreadPool.Event W} (h : ev.submitted = []) :
    (Event.pool ev).cost n = ev.cost n := by
  cases ev <;> first | rfl | cases h

theorem SummaryRule.spend {m : Engine W ι} {p p' : SummaryPc} {ev : Event W} (h : SummaryRule m p ev p') :
    p'.budget < p.budget := by
  cases h with
  | @check rejected _ _ => cases rejected <;> simp [SummaryPc.budget]
  | @throws rejected _ _ _ _ => cases rejected <;> simp [SummaryPc.budget]
  | _ => simp [SummaryPc.budget]

variable [DecidableEq ι] [Fintype ι] {m m' : Engine W ι} {ev : Event W}

theorem WorkerRule.spend {w : Fin W} {p p' : ThreadPool.WorkerPc} (n : ℕ) (h : WorkerRule w m p ev m' p') :
    p'.budget + m'.pool.queue.budget < p.budget + m.pool.queue.budget + ev.cost n := by
  cases h with
  | pool h =>
    rw [Event.cost_pool (ThreadPool.WorkerRule.flow h).2.1]
    exact h.spend n

theorem ClientRule.spend {capacity : ℕ} {i : ι} {p p' : ClientPc} {n : ℕ}
    (hn : n = Fintype.card (Thread W ι)) (h : ClientRule capacity i m p ev m' p') :
    p'.budget W n + m'.pool.queue.budget < p.budget W n + m.pool.queue.budget + ev.cost n := by
  cases h with
  | pool hev h =>
    rw [Event.cost_pool hev]
    exact h.spend hn
  | submit _ _ h =>
    have := h.spend hn
    simp only [ClientPc.budget, ThreadPool.ClientPc.budget, ThreadPool.Event.cost, Event.cost] at this ⊢
    omega
  | assign _ _ => simp only [ClientPc.budget, ThreadPool.ClientPc.budget, Event.cost]; omega
  | summary _ => simp only [ClientPc.budget, ThreadPool.ClientPc.budget, SummaryPc.budget, Event.cost]; omega
  | sum h =>
    have := h.spend
    simp only [ClientPc.budget]
    omega
  | summarized => simp only [ClientPc.budget, ThreadPool.ClientPc.budget, SummaryPc.budget]; omega

end Budget

/-! ## Progress -/

section Progress

variable [DecidableEq ι] [Fintype ι]

/-- What is left to do inside the engine. -/
def budget (capacity : ℕ) : Potential (rules (W := W) (ι := ι) capacity) where
  weight
    | .inl _, p => ThreadPool.WorkerPc.budget p
    | .inr _, p => ClientPc.budget W (Fintype.card (Thread W ι)) p
  store m := m.pool.queue.budget
  cost := Event.cost (Fintype.card (Thread W ι))
  spend t _ _ _ _ _ h := by
    rcases t with w | i
    · exact WorkerRule.spend _ h
    · exact ClientRule.spend rfl h

theorem budget_init (capacity : ℕ) :
    (budget capacity).total (init : System W ι) = 6 * W + 2 * Fintype.card ι := by
  have hpool := ThreadPool.budget_init (W := W) (ι := ι) capacity
  rw [Potential.total, Fintype.sum_sum_type] at hpool ⊢
  exact hpool

variable {capacity : ℕ} {c : System W ι} {log : List (Thread W ι × Event W)}

omit [Fintype ι] in
/-- From outside of all calls, only calls are made. -/
theorem ClientRule.cost_pos {i : ι} {m m' : Engine W ι} {p : ClientPc} {ev : Event W} {n : ℕ}
    (h : ClientRule capacity i m (.pool .idle) ev m' p) : 0 < ev.cost n := by
  cases h with
  | assign _ _ => exact Nat.succ_pos _
  | summary _ => exact Nat.succ_pos _
  | pool hev h =>
    rw [Event.cost_pool hev]
    cases h with
    | submit _ _ _ => cases hev
    | _ => simp [ThreadPool.Event.cost, ThreadPool.closingBudget]

/-- A step can be taken that is paid for. -/
def CanProceed (capacity : ℕ) (c : System W ι) : Prop :=
  ∃ l c', Step (rules capacity) c l c' ∧ (budget (W := W) (ι := ι) capacity).cost l.2 = 0

theorem CanProceed.client {i : ι} {p p' : ClientPc} {ev : Event W} {m : Engine W ι} (hp : c.pc (.inr i) = p)
    (h : ClientRule capacity i c.shared p ev m p') (hev : (budget (W := W) (ι := ι) capacity).cost ev = 0) :
    CanProceed capacity c := by
  subst hp
  exact ⟨(.inr i, ev), _, .mk h, hev⟩

omit [DecidableEq ι] [Fintype ι] in
/-- `summary` goes on, unless it asks for a mutex that is held. -/
theorem SummaryRule.enabled {m : Engine W ι} {p : SummaryPc}
    (hm : ∀ rejected, p = .enter rejected → m.pool.shutdown_mutex = none) :
    (∃ ev p', SummaryRule m p ev p') ∨ ∃ result, p = .done result := by
  cases p with
  | enter rejected =>
    cases hj : m.pool.joined with
    | true => exact .inl ⟨_, _, .check (hm _ rfl) hj⟩
    | false => exact .inl ⟨_, _, .throws (hm _ rfl) hj (by rw [ThreadPool.collect_samples, hj]; rfl)⟩
  | collecting rejected =>
    cases rejected with
    | none => exact .inl ⟨_, _, .collect⟩
    | some rejected => exact .inl ⟨_, _, .collect_last⟩
  | collected samples => exact .inl ⟨_, _, .load⟩
  | done result => exact .inr ⟨result, rfl⟩

theorem canProceed_of_pool (h : ThreadPool.CanGoOn capacity ((toPool capacity).config c)) :
    CanProceed capacity c := by
  obtain ⟨⟨t, ev⟩, c', hs, hev, hstart⟩ := h
  have hcost : (budget (W := W) (ι := ι) capacity).cost (.pool ev) = 0 := by
    show Event.cost _ (.pool ev) = 0
    rw [Event.cost_pool (by cases ev <;> first | rfl | cases hstart)]
    exact ThreadPool.Event.cost_eq_zero.mpr ⟨hev, hstart⟩
  cases hs with
  | mk hr =>
    rcases t with w | i
    · exact ⟨(.inl w, .pool ev), _, .mk (R := rules capacity) (WorkerRule.pool hr), hcost⟩
    · change ThreadPool.ClientRule capacity i c.shared.pool (ClientPc.place (c.pc (.inr i))) ev _ _ at hr
      have hidle : ClientPc.place (c.pc (.inr i)) ≠ .idle := fun hi => by
        rw [hi] at hr
        cases hr <;> cases hstart
      generalize hp : c.pc (.inr i) = p at hr hidle
      cases p with
      | pool p =>
        have hsub : ev.submitted = [] := by cases ev <;> first | rfl | cases hstart
        exact .client hp (.pool hsub hr) hcost
      | assigned id task => exact absurd rfl hidle
      | summing p => exact absurd rfl hidle

/-- **No call gets stuck**, as long as the engine lives until a `submit` has reached its pool. -/
theorem call_canProceed (hcap : 0 < capacity) (hW : 0 < W) (h : Run (rules capacity) init log c) {i : ι}
    (hi : c.pc (.inr i) ≠ .pool .idle)
    (hl : ∀ id task, c.pc (.inr i) = .assigned id task → c.shared.pool.lifetime = .alive) :
    CanProceed capacity c := by
  have hpool := pool_run_init h
  have hcall : ∀ {j}, ClientPc.place (c.pc (.inr j)) ≠ .idle → CanProceed capacity c := fun {j} hj =>
    canProceed_of_pool (ThreadPool.call_canGoOn hcap hW hpool (i := j) hj)
  generalize hp : c.pc (.inr i) = p at hi hl
  cases p with
  | pool p =>
    refine hcall (j := i) ?_
    rw [hp]
    exact fun hidle => hi (congrArg ClientPc.pool hidle)
  | assigned id task =>
    have hsubmit : ThreadPool.ClientRule capacity i c.shared.pool .idle _ _ _ :=
      .submit ⟨id, task, 0, c.shared.pool.promises.length⟩ (hl id task rfl) rfl
    exact .client hp (.submit rfl rfl hsubmit) rfl
  | summing q =>
    by_cases hm : c.shared.pool.shutdown_mutex = none
    · rcases SummaryRule.enabled (p := q) fun _ _ => hm with ⟨ev, q', hq⟩ | ⟨result, rfl⟩
      · exact .client hp (.sum hq) (by cases hq <;> rfl)
      · exact .client hp .summarized rfl
    · -- whoever holds the mutex is in a shutdown call
      obtain ⟨j, hj⟩ := Option.ne_none_iff_exists'.mp hm
      obtain ⟨k, n, hpc⟩ := (ThreadPool.ClientPc.Joins.mutex ((ThreadPool.joins hpool).2 (.inr j))).mp hj
      refine hcall (j := j) ?_
      rw [show ClientPc.place (c.pc (.inr j)) = .joining k (.loop n) from hpc]
      simp

end Progress

end Engine

end TaskEngine
