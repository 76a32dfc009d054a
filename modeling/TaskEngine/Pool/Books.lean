import TaskEngine.Interleaving.Ledger
import TaskEngine.Pool.Queue

/-!
# TaskEngine.Pool.Books — where every envelope is

An envelope goes from its `submit` to the queue or to a refusal, from the queue to a worker or to the
discard list of a `shutdown_now`, and there through the stages of its end: started, finished,
fulfilled and recorded, or rejected and counted.  Each leg has its ledger: what came in is what has
gone on plus what the threads still hold (`submitting_balance`, `working_balance`,
`refusing_balance`, `discarding_balance`).
-/

namespace TaskEngine

open Interleaving

/-! ## The legs inside the queue -/

namespace BlockingQueue

variable {T θ : Type}

section Flow

/-- The argument of `push` while the call is undecided. -/
def PushPc.pending : PushPc T → Multiset T
  | .enter value | .waiting value => {value}
  | _ => 0

/-- The argument of `push` once it was refused. -/
def PushPc.refusal : PushPc T → Multiset T
  | .refused value => {value}
  | _ => 0

/-- What `pop` has removed and not returned yet. -/
def PopPc.item : PopPc T → Multiset T
  | .notifying item | .done (some item) => {item}
  | _ => 0

/-- What `close_and_drain` has removed and not returned yet. -/
def DrainPc.items : DrainPc T → Multiset T
  | .enter => 0
  | .notifyingEmpty drained | .notifyingFull drained | .done drained => drained

attribute [simp] PushPc.pending.eq_1 PushPc.pending.eq_2 PushPc.pending.eq_3 PushPc.refusal.eq_1
  PushPc.refusal.eq_2 PopPc.item.eq_1 PopPc.item.eq_2 PopPc.item.eq_3 DrainPc.items.eq_1
  DrainPc.items.eq_2 DrainPc.items.eq_3 DrainPc.items.eq_4

variable [DecidableEq θ] {t : θ} {q q' : BlockingQueue T θ} {ev : Event T}

theorem PushRule.flow {capacity : ℕ} {p p' : PushPc T} (h : PushRule capacity t q p ev q' p') :
    p'.pending + ↑(ev.pushed ++ ev.refused) = p.pending ∧ p'.refusal = p.refusal + ev.refused ∧
      ev.popped = [] ∧ ev.drained = [] := by
  cases h with
  | enter h => cases pushSection_cases h <;> simp
  | resume _ h => cases pushSection_cases h <;> simp
  | spurious _ => simp
  | notify_one _ => simp

theorem PopRule.flow {p p' : PopPc T} (h : PopRule t q p ev q' p') :
    p'.item = p.item + ev.popped ∧ ev.pushed = [] ∧ ev.refused = [] ∧ ev.drained = [] := by
  cases h with
  | enter h => cases popSection_cases h <;> simp
  | resume _ h => cases popSection_cases h <;> simp
  | spurious _ => simp
  | notify_one _ => simp

theorem CloseRule.flow {p p' : ClosePc} (h : CloseRule q p ev q' p') :
    ev.pushed = [] ∧ ev.refused = [] ∧ ev.popped = [] ∧ ev.drained = [] := by
  cases h with
  | enter h => cases closeSection_cases h <;> simp
  | notify_empty => simp
  | notify_full => simp

theorem DrainRule.flow {p p' : DrainPc T} (h : DrainRule q p ev q' p') :
    p'.items = p.items + ev.drained ∧ ev.pushed = [] ∧ ev.refused = [] ∧ ev.popped = [] := by
  cases h with
  | enter h => cases h; simp
  | notify_empty => simp
  | notify_full => simp

end Flow

end BlockingQueue

/-! ## The legs of the pool -/

namespace ThreadPool

variable {W : ℕ} {ι : Type}

section Stages

/-- What becomes of an envelope that a worker has popped. -/
inductive Stage
  | start
  | finish
  | fulfil
  | record
  deriving DecidableEq

/-- What becomes of an envelope that is rejected. -/
inductive Rejection
  | fulfil
  | count
  deriving DecidableEq

def Event.submitted : Event W → List TaskEnvelope
  | .submit e => [e]
  | _ => []

/-- The envelope that a worker brings to a stage. -/
def Event.reached (s : Stage) : Event W → List TaskEnvelope
  | .start e _ => if s = .start then [e] else []
  | .finish e _ => if s = .finish then [e] else []
  | .fulfil e _ => if s = .fulfil then [e] else []
  | .record e _ => if s = .record then [e] else []
  | _ => []

/-- The refused envelope that `submit` brings to a stage. -/
def Event.refusal (s : Rejection) : Event W → List TaskEnvelope
  | .reject e _ => if s = .fulfil then [e] else []
  | .refuse e => if s = .count then [e] else []
  | _ => []

/-- The discarded envelopes that `shutdown_now` brings to a stage. -/
def Event.discarded (s : Rejection) : Event W → List TaskEnvelope
  | .discard e _ => if s = .fulfil then [e] else []
  | .count discarded => if s = .count then discarded else []
  | _ => []

attribute [simp] Event.submitted.eq_1 Event.submitted.eq_2 Event.reached.eq_1 Event.reached.eq_2
  Event.reached.eq_3 Event.reached.eq_4 Event.reached.eq_5 Event.refusal.eq_1 Event.refusal.eq_2
  Event.refusal.eq_3 Event.discarded.eq_1 Event.discarded.eq_2 Event.discarded.eq_3

/-- The envelope that a worker has popped and not yet brought to a stage. -/
def WorkerPc.before (s : Stage) : WorkerPc → Multiset TaskEnvelope
  | .popping p => p.item
  | .running e _ => if s = .start then 0 else {e}
  | .executed e _ _ => if s = .start ∨ s = .finish then 0 else {e}
  | .recording e _ => if s = .record then {e} else 0
  | _ => 0

/-- The envelope of a `submit` whose push is undecided. -/
def ClientPc.pending : ClientPc → Multiset TaskEnvelope
  | .pushing p => p.pending
  | _ => 0

/-- The refused envelope that a `submit` has not yet brought to a stage. -/
def ClientPc.refusal (s : Rejection) : ClientPc → Multiset TaskEnvelope
  | .pushing p => p.refusal
  | .counting e => if s = .count then {e} else 0
  | _ => 0

/-- The envelopes that a `shutdown_now` has removed and not yet brought to a stage. -/
def ClientPc.discards (s : Rejection) : ClientPc → Multiset TaskEnvelope
  | .draining p => p.items
  | .discarding _ rejected rest => if s = .count then rejected + rest else rest
  | _ => 0

attribute [simp] WorkerPc.before.eq_1 WorkerPc.before.eq_2 WorkerPc.before.eq_3 WorkerPc.before.eq_4
  WorkerPc.before.eq_5 ClientPc.pending.eq_1 ClientPc.pending.eq_2 ClientPc.refusal.eq_1
  ClientPc.refusal.eq_2 ClientPc.refusal.eq_3 ClientPc.discards.eq_1 ClientPc.discards.eq_2
  ClientPc.discards.eq_3

end Stages

/-! ## The ledgers -/

section Ledgers

variable [DecidableEq ι]

/-- A step of a client: the legs that it may serve, and those that it cannot. -/
theorem ClientRule.flow {capacity : ℕ} {i : ι} {m m' : ThreadPool W ι} {p p' : ClientPc} {ev : Event W}
    (h : ClientRule capacity i m p ev m' p') :
    p'.pending + ↑(ev.pushed ++ ev.refused) = p.pending + ev.submitted ∧
      (∀ s, p'.refusal s + ev.refusal s = p.refusal s + ev.refused) ∧
      (∀ s, p'.discards s + ev.discarded s = p.discards s + ev.drained) ∧
      ev.popped = [] ∧ ∀ s, ev.reached s = [] := by
  cases h with
  | push h =>
    obtain ⟨h1, h2, h3, h4⟩ := h.flow
    simp [h1, h2, h3, h4]
  | close h =>
    obtain ⟨h1, h2, h3, h4⟩ := h.flow
    simp [h1, h2, h3, h4]
  | drain h =>
    obtain ⟨h1, h2, h3, h4⟩ := h.flow
    simp [h1, h2, h3, h4]
  | join h => cases h <;> simp
  | reject _ => exact ⟨by simp, fun s => by cases s <;> simp, by simp, by simp, by simp⟩
  | refuse => exact ⟨by simp, fun s => by cases s <;> simp, by simp, by simp, by simp⟩
  | @discard _ _ e rest =>
    have hrest : (rest : Multiset TaskEnvelope) + {e} = ↑(e :: rest) := by
      rw [add_comm, Multiset.singleton_add, Multiset.cons_coe]
    exact ⟨by simp, by simp, fun s => by cases s <;> simp [hrest], by simp, by simp⟩
  | count => exact ⟨by simp, by simp, fun s => by cases s <;> simp, by simp, by simp⟩
  | _ => simp

theorem WorkerRule.flow {w : Fin W} {m m' : ThreadPool W ι} {p p' : WorkerPc} {ev : Event W}
    (h : WorkerRule w m p ev m' p') :
    (∀ s, p'.before s + ev.reached s = p.before s + ev.popped) ∧ ev.submitted = [] ∧ ev.pushed = [] ∧
      ev.refused = [] ∧ ev.drained = [] ∧ (∀ s, ev.refusal s = []) ∧ ∀ s, ev.discarded s = [] := by
  cases h with
  | pop h =>
    obtain ⟨h1, h2, h3, h4⟩ := h.flow
    simp [h1, h2, h3, h4]
  | start _ => exact ⟨fun s => by cases s <;> simp, by simp, by simp, by simp, by simp, by simp, by simp⟩
  | finish _ => exact ⟨fun s => by cases s <;> simp, by simp, by simp, by simp, by simp, by simp, by simp⟩
  | fulfil => exact ⟨fun s => by cases s <;> simp, by simp, by simp, by simp, by simp, by simp, by simp⟩
  | record => exact ⟨fun s => by cases s <;> simp, by simp, by simp, by simp, by simp, by simp, by simp⟩
  | _ => simp

/-- From `submit` to the queue, or to a refusal. -/
def submitting (capacity : ℕ) : Ledger (rules (W := W) (ι := ι) capacity) (Multiset TaskEnvelope) where
  hand
    | .inl _, _ => 0
    | .inr _, p => ClientPc.pending p
  store _ := 0
  inflow ev := ev.submitted
  outflow ev := ↑(ev.pushed ++ ev.refused)
  balance t _ _ _ _ _ h := by
    rcases t with w | i
    · obtain ⟨-, h1, h2, h3, -⟩ := WorkerRule.flow (w := w) h
      simp [h1, h2, h3]
    · simpa using (ClientRule.flow (i := i) h).1

/-- From the queue to a stage of the work on it. -/
def working (capacity : ℕ) (s : Stage) :
    Ledger (rules (W := W) (ι := ι) capacity) (Multiset TaskEnvelope) where
  hand
    | .inl _, p => WorkerPc.before s p
    | .inr _, _ => 0
  store _ := 0
  inflow ev := ev.popped
  outflow ev := ev.reached s
  balance t _ _ _ _ _ h := by
    rcases t with w | i
    · simpa using (WorkerRule.flow (w := w) h).1 s
    · obtain ⟨-, -, -, h1, h2⟩ := ClientRule.flow (i := i) h
      simp [h1, h2]

/-- From a refusal to a stage of its rejection. -/
def refusing (capacity : ℕ) (s : Rejection) :
    Ledger (rules (W := W) (ι := ι) capacity) (Multiset TaskEnvelope) where
  hand
    | .inl _, _ => 0
    | .inr _, p => ClientPc.refusal s p
  store _ := 0
  inflow ev := ev.refused
  outflow ev := ev.refusal s
  balance t _ _ _ _ _ h := by
    rcases t with w | i
    · obtain ⟨-, -, -, h1, -, h2, -⟩ := WorkerRule.flow (w := w) h
      simp [h1, h2]
    · simpa using (ClientRule.flow (i := i) h).2.1 s

/-- From the queue, drained, to a stage of its rejection. -/
def discarding (capacity : ℕ) (s : Rejection) :
    Ledger (rules (W := W) (ι := ι) capacity) (Multiset TaskEnvelope) where
  hand
    | .inl _, _ => 0
    | .inr _, p => ClientPc.discards s p
  store _ := 0
  inflow ev := ev.drained
  outflow ev := ev.discarded s
  balance t _ _ _ _ _ h := by
    rcases t with w | i
    · obtain ⟨-, -, -, -, h1, -, h2⟩ := WorkerRule.flow (w := w) h
      simp [h1, h2]
    · simpa using (ClientRule.flow (i := i) h).2.2.1 s

end Ledgers

/-! ## The balances of a run -/

section Balances

/-- The envelopes handed to `submit`. -/
abbrev submitted (log : List (Thread W ι × Event W)) : List TaskEnvelope := collect Event.submitted log

/-- The envelopes that workers brought to a stage. -/
abbrev reached (s : Stage) (log : List (Thread W ι × Event W)) : List TaskEnvelope :=
  collect (Event.reached s) log

/-- The refused envelopes brought to a stage of their rejection. -/
abbrev refusals (s : Rejection) (log : List (Thread W ι × Event W)) : List TaskEnvelope :=
  collect (Event.refusal s) log

/-- The discarded envelopes brought to a stage of their rejection. -/
abbrev discards (s : Rejection) (log : List (Thread W ι × Event W)) : List TaskEnvelope :=
  collect (Event.discarded s) log

variable [Fintype ι] {capacity : ℕ} {c c' : System W ι}
  {log : List (Thread W ι × Event W)}

/-- The envelopes whose push is undecided. -/
def pendingAll (c : System W ι) : Multiset TaskEnvelope :=
  ∑ i, ClientPc.pending (c.pc (.inr i))

/-- The envelopes that the workers hold before a stage. -/
def workingAll (s : Stage) (c : System W ι) :
    Multiset TaskEnvelope :=
  ∑ w, WorkerPc.before s (c.pc (.inl w))

/-- The refused envelopes held before a stage of their rejection. -/
def refusingAll (s : Rejection) (c : System W ι) :
    Multiset TaskEnvelope :=
  ∑ i, ClientPc.refusal s (c.pc (.inr i))

/-- The discarded envelopes held before a stage of their rejection. -/
def discardingAll (s : Rejection) (c : System W ι) :
    Multiset TaskEnvelope :=
  ∑ i, ClientPc.discards s (c.pc (.inr i))

theorem idle_holds_nothing (hi : ∀ i, c.pc (.inr i) = .idle) :
    pendingAll c = 0 ∧ (∀ s, refusingAll s c = 0) ∧ ∀ s, discardingAll s c = 0 := by
  simp [pendingAll, refusingAll, discardingAll, hi]

omit [Fintype ι] in
/-- Workers that have exited, or not yet begun, hold nothing. -/
theorem exited_holds_nothing (hw : ∀ w, c.pc (.inl w) = .exited ∨ c.pc (.inl w) = .starting)
    (s : Stage) : workingAll s c = 0 := by
  apply Finset.sum_eq_zero
  intro w _
  rcases hw w with h | h <;> simp [h]

variable [DecidableEq ι]

theorem submitting_balance (h : Run (rules capacity) c log c') :
    pendingAll c' + (pushed log + refused log) = pendingAll c + submitted log := by
  simpa [Ledger.hands, Ledger.income, Ledger.expense, submitting, sum_map_coe, pendingAll,
    ← Multiset.coe_add, Multiset.sum_map_add] using (submitting capacity).run h

theorem working_balance (s : Stage) (h : Run (rules capacity) c log c') :
    workingAll s c' + reached s log = workingAll s c + popped log := by
  simpa [Ledger.hands, Ledger.income, Ledger.expense, working, sum_map_coe, workingAll]
    using (working capacity s).run h

theorem refusing_balance (s : Rejection) (h : Run (rules capacity) c log c') :
    refusingAll s c' + refusals s log = refusingAll s c + refused log := by
  simpa [Ledger.hands, Ledger.income, Ledger.expense, refusing, sum_map_coe, refusingAll]
    using (refusing capacity s).run h

theorem discarding_balance (s : Rejection) (h : Run (rules capacity) c log c') :
    discardingAll s c' + discards s log = discardingAll s c + drained log := by
  simpa [Ledger.hands, Ledger.income, Ledger.expense, discarding, sum_map_coe, discardingAll]
    using (discarding capacity s).run h

/-! From the start, where nobody holds anything. -/

omit [DecidableEq ι] in
theorem init_holds_nothing : pendingAll (init : System W ι) = 0 ∧
    (∀ s, refusingAll s (init : System W ι) = 0) ∧ (∀ s, discardingAll s (init : System W ι) = 0) ∧
    ∀ s, workingAll s (init : System W ι) = 0 := by
  obtain ⟨h1, h2, h3⟩ := idle_holds_nothing (c := init (W := W) (ι := ι)) fun _ => rfl
  exact ⟨h1, h2, h3, exited_holds_nothing fun _ => .inr rfl⟩

theorem submitting_from_init (h : Run (rules capacity) init log c) :
    pendingAll c + (pushed log + refused log) = (submitted log : Multiset TaskEnvelope) := by
  have hb := submitting_balance h
  rwa [init_holds_nothing.1, zero_add] at hb

theorem working_from_init (s : Stage) (h : Run (rules capacity) init log c) :
    workingAll s c + reached s log = (popped log : Multiset TaskEnvelope) := by
  have hb := working_balance s h
  rwa [init_holds_nothing.2.2.2, zero_add] at hb

theorem refusing_from_init (s : Rejection) (h : Run (rules capacity) init log c) :
    refusingAll s c + refusals s log = (refused log : Multiset TaskEnvelope) := by
  have hb := refusing_balance s h
  rwa [init_holds_nothing.2.1, zero_add] at hb

theorem discarding_from_init (s : Rejection) (h : Run (rules capacity) init log c) :
    discardingAll s c + discards s log = (drained log : Multiset TaskEnvelope) := by
  have hb := discarding_balance s h
  rwa [init_holds_nothing.2.2.1, zero_add] at hb

/-- What reaches a stage was popped. -/
theorem reached_le (s : Stage) (h : Run (rules capacity) init log c) :
    (reached s log : Multiset TaskEnvelope) ≤ popped log := by
  rw [← working_from_init s h]
  exact le_add_self

theorem refusals_le (s : Rejection) (h : Run (rules capacity) init log c) :
    (refusals s log : Multiset TaskEnvelope) ≤ refused log := by
  rw [← refusing_from_init s h]
  exact le_add_self

theorem discards_le (s : Rejection) (h : Run (rules capacity) init log c) :
    (discards s log : Multiset TaskEnvelope) ≤ drained log := by
  rw [← discarding_from_init s h]
  exact le_add_self

end Balances

end ThreadPool

end TaskEngine
