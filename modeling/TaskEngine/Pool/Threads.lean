import TaskEngine.Pool.Records

/-!
# TaskEngine.Pool.Threads — each thread is joined once, and then its buffer stays

A thread stops being joinable at its join, so there is one join for each thread that is not joinable
any more (`joinings_count`), and the joining is done by one client at a time (`joining_alone`).  Once
`joined_` is set, no worker takes a step, and the buffers and the queue stay as they are
(`joined_still`).
-/

namespace TaskEngine

open Interleaving

namespace ThreadPool

variable {W : ℕ} {ι : Type}

/-! ## The joins -/

section Joins

/-- The thread joined by a step. -/
def Event.joining : Event W → List (Fin W)
  | .join w => [w]
  | _ => []

attribute [simp] Event.joining.eq_1 Event.joining.eq_2

/-- The threads joined, in the order of their joins. -/
abbrev joinings (log : List (Thread W ι × Event W)) : List (Fin W) := collect Event.joining log

variable [DecidableEq ι] {capacity : ℕ} {c : System W ι} {log : List (Thread W ι × Event W)}

/-- A join takes the joinability of its thread, and no other step touches it. -/
theorem rule_joinable {t : Thread W ι} {m m' : ThreadPool W ι} {p p' : Pc t} {ev : Event W}
    (h : rules capacity t m p ev m' p') (w : Fin W) :
    ev.joining.count w + (m'.threads w).joinable.toNat = (m.threads w).joinable.toNat := by
  rcases t with v | i
  · cases (h : WorkerRule v _ _ _ _ _) <;> simp
  · cases (h : ClientRule capacity i _ _ _ _ _) with
    | join h =>
      cases h with
      | @join n hn hj _ =>
        rw [joinThread_joinable]
        by_cases hw : w = ⟨n, hn⟩
        · subst hw
          simp [hj]
        · simp [hw, Ne.symm hw]
      | _ => simp
    | _ => simp

/-- **Every thread is joined once**, when it stops being joinable. -/
theorem joinings_count (h : Run (rules capacity) init log c) (w : Fin W) :
    (joinings log).count w + (c.shared.threads w).joinable.toNat = 1 := by
  refine h.induct (I := fun log d => (joinings log).count w + (d.shared.threads w).joinable.toNat = 1)
    (by simp [init, fresh]) ?_
  intro log d t ev m p _ ih hr
  have hstep := rule_joinable hr w
  simp only [joinings, collect_append, collect_cons, collect_nil, List.append_nil,
    List.count_append] at ih ⊢
  omega

theorem joinings_of_joined (h : Run (rules capacity) init log c) (hj : c.shared.joined = true)
    (w : Fin W) : (joinings log).count w = 1 := by
  simpa [(joins h).1.joined_all hj w] using joinings_count h w

end Joins

/-! ## Past the join -/

section Still

variable [DecidableEq ι] {capacity : ℕ} {c c' : System W ι} {log log' : List (Thread W ι × Event W)}

theorem ClientRule.samples {i : ι} {m m' : ThreadPool W ι} {p p' : ClientPc} {ev : Event W}
    (h : ClientRule capacity i m p ev m' p') : m'.samples = m.samples := by
  cases h with
  | join h => cases h <;> rfl
  | reject _ => exact fulfil_samples _ _ _
  | discard => exact fulfil_samples _ _ _
  | leave => exact leave_samples _ _
  | _ => rfl

/-- The run goes on without the workers. -/
structure Still (c c' : System W ι) (log' : List (Thread W ι × Event W)) : Prop where
  joined : c'.shared.joined = true
  exited : ∀ w, c'.pc (.inl w) = .exited
  samples : c'.shared.samples = c.shared.samples
  popped : popped log' = []

/-- **Past the join** no worker moves: nothing is popped, and no buffer changes. -/
theorem joined_still (hW : 0 < W) (h : Run (rules capacity) init log c) (hj : c.shared.joined = true)
    (h' : Run (rules capacity) c log' c') : Still c c' log' := by
  refine h'.induct (I := fun log d => Still c d log) ⟨hj, (exited_of_joined hW h hj).2, rfl, rfl⟩ ?_
  rintro log' d t ev m p hrun ⟨hjoined, hexited, hsamples, hpopped⟩ hr
  rcases t with w | i
  · rw [hexited w] at hr
    cases (hr : WorkerRule w _ _ _ _ _)
  · have hr' : ClientRule capacity i d.shared (d.pc (.inr i)) ev m p := hr
    refine ⟨(rule_guarantee ((joins (h.trans hrun)).2 (.inr i)) hr).joined hjoined,
      fun w => by simpa [Function.update_of_ne] using hexited w, hr'.samples.trans hsamples, ?_⟩
    rw [ThreadPool.popped, collect_append, collect_cons, collect_nil, hr'.flow.2.2.2.1]
    simpa using hpopped

end Still

end ThreadPool

end TaskEngine
