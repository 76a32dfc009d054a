import TaskEngine.Engine.Progress
import TaskEngine.Engine.Sequential

/-!
# TaskEngine.Engine.Scripts — a fixed sequence of calls from one thread

A call that has been made leads to its return by steps that are paid for (`returns`), and then the next one can
be made (`exists_next`).  So a thread that makes the calls of a script, one after the other, comes to its end
whatever the workers do (`script_completes`).
-/

namespace TaskEngine

open Interleaving

namespace Engine

variable {W : ℕ}

/-! ## What a script is worth -/

section Scripts

/-- What a call is worth, with one client. -/
def Call.cost (W : ℕ) : Call → ℕ
  | .submit _ => 15
  | .summary => 6
  | .shutdown | .shutdown_now | .destructor => ThreadPool.closingBudget W (W + 1)

def Event.spurious : Event W → ℕ
  | .pool (.queue .spurious) => 1
  | _ => 0

theorem Event.cost_eq (ev : Event W) :
    ev.cost (W + 1) = (ev.call.map (Call.cost W)).sum + 2 * ev.spurious := by
  rcases ev with (_ | (_ | _ | _ | _ | _ | _ | _) | _ | _ | _ | _ | _ | _ | _ | _ | _ | (_ | _) | _ | _ | _ | _ |
    _ | _ | _ | _ | _) | _ | _ | _ | _ | _ | _ <;> rfl

theorem Event.free_of_cost {ev : Event W} (h : ev.cost (W + 1) = 0) : ev.call = [] ∧ ev.spurious = 0 := by
  have hcall : ∀ call : Call, 0 < call.cost W := by
    rintro (_ | _ | _ | _ | _) <;> simp [Call.cost, ThreadPool.closingBudget]
  rw [Event.cost_eq] at h
  refine ⟨?_, by omega⟩
  cases hev : ev.call with
  | nil => rfl
  | cons call rest =>
    have := hcall call
    simp only [hev, List.map_cons, List.sum_cons] at h
    omega

/-! ## Making the calls -/

variable {capacity : ℕ} {c : System W Unit} {log : List (Thread W Unit × Event W)}

/-- A `submit` under way has come before the destructor. -/
theorem alive_of_assigned (h : Run (rules capacity) init log c) :
    ∀ id task, c.pc (.inr ()) = .assigned id task → c.shared.pool.lifetime = .alive := by
  refine h.induct (I := fun _ d => ∀ id task, d.pc (.inr ()) = .assigned id task →
    d.shared.pool.lifetime = .alive) (fun _ _ hp => by cases hp) ?_
  intro log d t ev m p _ ih hr id task hp
  rcases t with w | ⟨⟩
  · dsimp only at hp ⊢
    rw [Function.update_of_ne (by simp)] at hp
    cases (hr : WorkerRule w _ _ _ _ _) with
    | pool hr => exact (ThreadPool.WorkerRule.lifetime hr).trans (ih id task hp)
  · dsimp only at hp ⊢
    rw [Function.update_self] at hp
    subst hp
    generalize d.pc (.inr ()) = q at hr
    cases (hr : ClientRule capacity () _ _ _ _ _) with
    | assign _ hl => exact hl

/-- The steps of a call that has been made lead to its return. -/
theorem returns (hcap : 0 < capacity) (hW : 0 < W) (h : Run (rules capacity) init log c) :
    ∃ log' c', Run (rules capacity) c log' c' ∧ (∀ l ∈ log', l.2.call = [] ∧ l.2.spurious = 0) ∧
      c'.pc (.inr ()) = .pool .idle := by
  have hcard : Fintype.card (Thread W Unit) = W + 1 := by simp [Thread]
  have hgo : ∀ log (d : System W Unit), Run (rules capacity) init log d → ¬ d.pc (.inr ()) = .pool .idle →
      ∃ l d', Step (rules capacity) d l d' ∧ (budget (W := W) (ι := Unit) capacity).cost l.2 = 0 :=
    fun log d hd hp => call_canProceed hcap hW hd hp (alive_of_assigned hd)
  obtain ⟨log', c', hrun, hfree, hp⟩ := (budget capacity).reaches hgo h
  exact ⟨log', c', hrun, fun l hl => Event.free_of_cost (hcard ▸ hfree l hl), hp⟩

theorem exists_call (capacity : ℕ) (hl : c.shared.pool.lifetime = .alive) (call : Call) : ∃ ev m p,
    ClientRule capacity () c.shared (.pool .idle) ev m p ∧ ev.call = [call] ∧ ev.spurious = 0 := by
  cases call with
  | submit task => exact ⟨_, _, _, .assign task hl, rfl, rfl⟩
  | shutdown => exact ⟨_, _, _, .pool rfl (.shutdown hl), rfl, rfl⟩
  | shutdown_now => exact ⟨_, _, _, .pool rfl (.shutdown_now hl), rfl, rfl⟩
  | destructor => exact ⟨_, _, _, .pool rfl (.destructor hl), rfl, rfl⟩
  | summary => exact ⟨_, _, _, .summary hl, rfl, rfl⟩

theorem calls_eq_nil {log : List (Thread W Unit × Event W)}
    (h : ∀ l ∈ log, l.2.call = [] ∧ l.2.spurious = 0) : calls log = [] :=
  List.flatMap_eq_nil_iff.mpr fun l hl => (h l hl).1

theorem alive_of_calls (h : Run (rules capacity) init log c) (hnone : Call.destructor ∉ calls log) :
    c.shared.pool.lifetime = .alive := by
  refine ThreadPool.alive_of_no_destructor (pool_run_init h) fun l hl hd => hnone ?_
  refine (mem_collect Event.call).mpr ⟨(l.1, .pool l.2), mem_poolLog.mp hl, ?_⟩
  rw [hd]
  exact List.mem_singleton.mpr rfl

/-- The next call can be made, once the one under way has returned. -/
theorem exists_next (hcap : 0 < capacity) (hW : 0 < W) (h : Run (rules capacity) init log c)
    (hnone : Call.destructor ∉ calls log) (call : Call) :
    ∃ log' d ev d', Run (rules capacity) c log' d ∧ (∀ l ∈ log', l.2.call = [] ∧ l.2.spurious = 0) ∧
      ClientRule capacity () d.shared (.pool .idle) ev d'.shared (d'.pc (.inr ())) ∧
      Step (rules capacity) d (.inr (), ev) d' ∧ ev.call = [call] ∧ ev.spurious = 0 := by
  obtain ⟨log', d, hrun, hfree, hp⟩ := returns hcap hW h
  have halive : d.shared.pool.lifetime = .alive := by
    refine alive_of_calls (h.trans hrun) ?_
    rwa [calls_append, calls_eq_nil hfree, List.append_nil]
  obtain ⟨ev, m, p, hr, hcall, hev⟩ := exists_call capacity halive call
  refine ⟨log', d, ev, ⟨m, Function.update d.pc (.inr ()) p⟩, hrun, hfree, ?_, .mk ?_, hcall, hev⟩
  · dsimp only
    rwa [Function.update_self]
  · rw [hp]
    exact hr

/-- What is left of a script can be made, and returns. -/
theorem exists_rest (hcap : 0 < capacity) (hW : 0 < W) (rest : List Call)
    (hlast : ∀ call ∈ (calls log ++ rest).dropLast, call ≠ .destructor) (h : Run (rules capacity) init log c) :
    ∃ log' c', Run (rules capacity) c log' c' ∧ (∀ l ∈ log', l.2.spurious = 0) ∧ calls log' = rest ∧
      c'.pc (.inr ()) = .pool .idle := by
  -- induction on the calls left: the one under way returns, and then the next one is made
  induction rest generalizing log c with
  | nil =>
    obtain ⟨log', c', hrun, hfree, hp⟩ := returns hcap hW h
    exact ⟨log', c', hrun, fun l hl => (hfree l hl).2, calls_eq_nil hfree, hp⟩
  | cons call rest ih =>
    have hnone : Call.destructor ∉ calls log := fun hmem => by
      refine hlast _ ?_ rfl
      rw [List.dropLast_append_of_ne_nil (List.cons_ne_nil _ _)]
      exact List.mem_append_left _ hmem
    obtain ⟨log₁, d, ev, d', hrun, hfree, -, hstep, hcall, hev⟩ := exists_next hcap hW h hnone call
    have hcalls : calls (log₁ ++ [(.inr (), ev)]) = [call] := by
      rw [calls_append, calls_eq_nil hfree, List.nil_append, calls_singleton, hcall]
    have hmade : calls (log ++ (log₁ ++ [(.inr (), ev)])) = calls log ++ [call] := by
      rw [calls_append, hcalls]
    obtain ⟨log₂, c', hrest, hspur, hscript, hidle⟩ := ih (by simpa [hmade] using hlast)
      (h.trans (hrun.tail hstep))
    refine ⟨log₁ ++ [(.inr (), ev)] ++ log₂, c', (hrun.tail hstep).trans hrest, ?_, ?_, hidle⟩
    · intro l hl
      rcases List.mem_append.mp hl with hl | hl
      · rcases List.mem_append.mp hl with hl | hl
        · exact (hfree l hl).2
        · rw [List.mem_singleton.mp hl]
          exact hev
      · exact hspur l hl
    · rw [calls_append, hcalls, hscript, List.singleton_append]

/-- A `summary` under way comes to its end before the client is outside of all calls. -/
theorem exists_summarized {c' : System W Unit} (h : Run (rules capacity) c log c') {q : SummaryPc}
    (hp : c.pc (.inr ()) = .summing q) (hp' : c'.pc (.inr ()) = .pool .idle) :
    ∃ before result after, log = before ++ (.inr (), .summarized result) :: after := by
  -- until its return the client stays inside `summary`
  suffices hinv : (∃ result, ((.inr (), .summarized result) : Thread W Unit × Event W) ∈ log) ∨
      ∃ q, c'.pc (.inr ()) = .summing q by
    rcases hinv with ⟨result, hmem⟩ | ⟨q, hq⟩
    · obtain ⟨before, after, hlog⟩ := List.append_of_mem hmem
      exact ⟨before, result, after, hlog⟩
    · rw [hp'] at hq
      cases hq
  refine h.induct (I := fun log d => (∃ result, ((.inr (), .summarized result) : Thread W Unit × Event W) ∈ log) ∨
    ∃ q, d.pc (.inr ()) = .summing q) (.inr ⟨q, hp⟩) ?_
  intro log d t ev m p _ ih hr
  rcases ih with ⟨result, hmem⟩ | ⟨q, hq⟩
  · exact .inl ⟨result, List.mem_append_left _ hmem⟩
  · rcases t with w | ⟨⟩
    · refine .inr ⟨q, ?_⟩
      dsimp only
      rw [Function.update_of_ne (by simp)]
      exact hq
    · dsimp only
      rw [Function.update_self]
      rw [hq] at hr
      cases (hr : ClientRule capacity () _ _ _ _ _) with
      | sum hr => exact .inr ⟨_, rfl⟩
      | @summarized result => exact .inl ⟨result, List.mem_append_right _ (List.mem_singleton.mpr rfl)⟩

theorem exists_result (hcap : 0 < capacity) (hW : 0 < W) (h : Run (rules capacity) init log c)
    (hnone : Call.destructor ∉ calls log) :
    ∃ log' result c', Run (rules capacity) c (log' ++ [(.inr (), .summarized result)]) c' ∧
      calls log' = [.summary] := by
  obtain ⟨log₁, d, ev, d', hrun, hfree, hr, hstep, hcall, -⟩ := exists_next hcap hW h hnone .summary
  obtain ⟨q, hq⟩ : ∃ q, d'.pc (.inr ()) = .summing q := by
    generalize d'.pc (.inr ()) = p at hr ⊢
    generalize d'.shared = m at hr
    cases hr with
    | summary _ => exact ⟨_, rfl⟩
    | assign _ _ => cases hcall
    | pool _ hr => cases hr <;> cases hcall
  obtain ⟨log₂, c', hrest, hfree', hidle⟩ := returns hcap hW (h.trans (hrun.tail hstep))
  obtain ⟨before, result, after, rfl⟩ := exists_summarized hrest hq hidle
  obtain ⟨e, e', hbefore, hs, -⟩ := hrest.split_at
  refine ⟨log₁ ++ [(.inr (), ev)] ++ before, result, e', ((hrun.tail hstep).trans hbefore).tail hs, ?_⟩
  rw [calls_append, calls_append, calls_eq_nil hfree, calls_singleton, hcall,
    calls_eq_nil fun l hl => hfree' l (List.mem_append_left _ hl), List.append_nil, List.nil_append]

theorem costs_eq (log : List (Thread W Unit × Event W)) :
    (log.map fun l => l.2.cost (W + 1)).sum =
      ((calls log).map (Call.cost W)).sum + 2 * (log.map fun l => l.2.spurious).sum := by
  induction log with
  | nil => rfl
  | cons l log ih =>
    simp only [List.map_cons, List.sum_cons, calls, collect_cons, List.map_append, List.sum_append] at ih ⊢
    rw [ih, Event.cost_eq]
    omega

/-- **A script of calls comes to its end.**  Along a run in which one thread makes the calls of a script in
which nothing comes after the destructor, the steps are bounded by what the script is worth and the spurious
wake-ups; and from wherever the run has got to, without a further spurious wake-up, the rest of the script can
be made and returns. -/
theorem script_completes (hcap : 0 < capacity) (hW : 0 < W) {script : List Call}
    (hlast : ∀ call ∈ script.dropLast, call ≠ .destructor) (h : Run (rules capacity) init log c)
    (hpre : calls log <+: script) :
    log.length ≤ 6 * W + 2 + (script.map (Call.cost W)).sum + 2 * (log.map fun l => l.2.spurious).sum ∧
    ∃ log' c', Run (rules capacity) c log' c' ∧ (∀ l ∈ log', l.2.spurious = 0) ∧
      calls (log ++ log') = script ∧ c'.pc (.inr ()) = .pool .idle := by
  obtain ⟨rest, rfl⟩ := hpre
  constructor
  · have hcard : Fintype.card (Thread W Unit) = W + 1 := by simp [Thread]
    have hlength := (budget capacity).length_le h
    have hcosts : (budget (W := W) (ι := Unit) capacity).costs log =
        (log.map fun l => l.2.cost (W + 1)).sum := by
      rw [← hcard]
      rfl
    rw [budget_init, hcosts, costs_eq, Fintype.card_unit] at hlength
    rw [List.map_append, List.sum_append]
    omega
  · obtain ⟨log', c', hrun, hspur, hcalls, hp⟩ := exists_rest hcap hW rest hlast h
    refine ⟨log', c', hrun, hspur, ?_, hp⟩
    rw [calls_append, hcalls]

/-- The run with three tasks can still be followed by the destructor. -/
theorem script_completes_soloRun : ∃ log' c', Run (rules 1) soloRun.2 log' c' ∧
    calls (soloRun.1 ++ log') = calls soloRun.1 ++ [Call.destructor] ∧ c'.pc (.inr ()) = .pool .idle := by
  have hrun : Run (rules 1) init soloRun.1 soloRun.2 := play_run act_sound rfl
  have hcalls : calls soloRun.1 = [.submit ⟨.returns⟩, .summary, .submit ⟨.throwsOther⟩, .shutdown_now,
    .submit ⟨.throws "late"⟩, .summary] := rfl
  have hlast : ∀ call ∈ (calls soloRun.1 ++ [Call.destructor]).dropLast, call ≠ .destructor := by
    rw [hcalls]
    decide
  obtain ⟨log', c', h, -, hscript, hp⟩ :=
    (script_completes (by decide) (by decide) hlast hrun (List.prefix_append _ _)).2
  exact ⟨log', c', h, hscript, hp⟩

end Scripts

end Engine

end TaskEngine
