import TaskEngine.App.Progress
import TaskEngine.Interleaving.Extension

/-!
# TaskEngine.App.Interrupt — what happens after a signal

The flag is read at the head of the loop and once more behind it.  Once it is set, before that second
reading, the main thread finishes the iteration it is in, at most, so one more task is submitted, if any
(`made_of_interrupted`), and it is found set.  What is left to do no longer depends on the number of tasks
asked for, only on the workers and the capacity (`haste`): `interrupt_prompt`.
-/

namespace TaskEngine

open Interleaving

namespace App

variable {W : ℕ} {options : Options} {c c' : System W} {log log' : List (Thread W Client × Event W)}

/-! ## The flag stays set -/

section Flag

theorem rule_interrupted {t : Thread W Client} {m m' : Process W} {p p' : Pc t} {ev : Event W}
    (h : rules options t m p ev m' p') (hi : m.interrupted = true) : m'.interrupted = true := by
  rcases t with w | _ | _
  · cases (h : WorkerRule w _ _ _ _ _)
    exact hi
  · cases (h : MainRule options _ _ _ _ _) <;> exact hi
  · cases (h : HandlerRule _ _ _)
    rfl

theorem interrupted_later (h : Run (rules options) c log c') (hi : c.shared.interrupted = true) :
    c'.shared.interrupted = true :=
  h.preserves (P := fun d => d.shared.interrupted = true) (fun _ _ _ _ _ hd hr => rule_interrupted hr hd) hi

theorem readings_of_interrupted (h : Run (rules options) c log c') (hi : c.shared.interrupted = true) :
    ∀ b ∈ readings log, b = true := by
  refine h.induct (I := fun log _ => ∀ b ∈ readings log, b = true) (by simp) ?_
  intro log d t ev m p hrun ih hr b hb
  rw [readings, collect_append, List.mem_append] at hb
  rcases hb with hb | hb
  · exact ih b hb
  · have hd := interrupted_later hrun hi
    rcases t with w | _ | _
    · cases (hr : WorkerRule w _ _ _ _ _)
      simp at hb
    · generalize d.pc (.inr .main) = q at hr
      cases (hr : MainRule options _ _ _ _ _) with
      | read => simpa [hd] using hb
      | _ => simp at hb
    · cases (hr : HandlerRule _ _ _)
      simp at hb

end Flag

/-! ## What is left to do -/

section Haste

variable (W) in
/-- What is left of `run` beyond the task that is due. -/
def Frame.haste (options : Options) (n : ℕ) : Frame → ℕ
  | .loop _ => 2 * ThreadPool.closingBudget W n + 9
  | .body _ => 2 * ThreadPool.closingBudget W n + 24
  | frame => frame.budget W options n

theorem MainRule.hasten {m m' : Process W} {p p' : MainPc} {ev : Event W} {n : ℕ}
    (hn : n = Fintype.card (Thread W Client)) (hi : m.interrupted = true) (h : MainRule options m p ev m' p') :
    p'.frame.haste W options n + p'.call.budget W n + m'.engine.pool.queue.budget <
      p.frame.haste W options n + p.call.budget W n + m.engine.pool.queue.budget + ev.cost := by
  have hs := h.spend hn
  cases h with
  | poll hn hf => simp [hf] at hi
  | interrupt hn _ => simp only [Frame.haste, Frame.budget, Event.cost]; omega
  | ended hn => simp only [Frame.haste, Frame.budget, Event.cost]; omega
  | submit h =>
    have := h.spend hn
    simp only [Frame.haste, Event.cost, Engine.Event.cost] at this ⊢
    omega
  | call hp _ h =>
    have := h.spend hn
    rw [call_cost n h hp] at this
    simp only at this ⊢
    omega
  | _ => exact hs

/-- What is left to do once the flag is set. -/
def haste (options : Options) : Potential ((rules (W := W) options).guard fun m => m.interrupted = true) where
  weight
    | .inl _, p => ThreadPool.WorkerPc.budget p
    | .inr .main, p =>
      (MainPc.frame p).haste W options (Fintype.card (Thread W Client)) +
        (MainPc.call p).budget W (Fintype.card (Thread W Client))
    | .inr .handler, _ => 0
  store m := m.engine.pool.queue.budget
  cost := Event.cost
  spend t _ _ _ _ _ h := by
    obtain ⟨hi, h⟩ := h
    rcases t with w | _ | _
    · exact WorkerRule.spend h
    · exact MainRule.hasten rfl hi h
    · cases (h : HandlerRule _ _ _)
      exact Nat.lt_succ_self _

theorem guarded (h : Run (rules options) c log c') (hi : c.shared.interrupted = true) :
    Run ((rules options).guard fun m => m.interrupted = true) c log c' :=
  h.mono fun _ _ _ _ _ _ hrun hr => ⟨interrupted_later hrun hi, hr⟩

end Haste

/-! ## The rest of the run -/

section Rest

theorem exit_of_interrupted (hW : 0 < W) (h : Run (rules options) init log c)
    (hi : c.shared.interrupted = true) (hr : readings log = []) (h' : Run (rules options) c log' c') {code : ℕ}
    {summary : Option RunSummary} (hx : (c'.pc (.inr .main)).frame = .exited code summary) :
    ∃ s, summary = some s ∧ Interrupted options (log ++ log') code s := by
  obtain ⟨s, rfl, hs | hs⟩ := outcome_of_exited hW (h.trans h') hx
  · have hunset : readings log' = [false] := by simpa [hr] using hs.unset
    have := readings_of_interrupted h' hi false (by simp [hunset])
    cases this
  · exact ⟨s, rfl, hs⟩

end Rest

end App

end TaskEngine
