import TaskEngine.Interleaving.Waiting
import TaskEngine.Pool.Ownership
import TaskEngine.Pool.Quiescence

/-!
# TaskEngine.Pool.Futures — a caller blocked in `future.get()` never hangs

The clients may now also call `get` on the future of any submission made so far, and block until its promise
is set.  Nobody can be left behind: while a `get` or any other call is under way something goes on, and it
cannot go on for ever; `get` never throws, and whatever it returns is the result that its promise holds from
then on (`get_returns`).
-/

namespace TaskEngine

open Interleaving

namespace ThreadPool

variable {W : ℕ} {ι : Type}

/-! ## Values stay -/

section Values

variable [DecidableEq ι] [Fintype ι] {capacity : ℕ} {c d : System W ι}
  {log log' : List (Thread W ι × Event W)} {k : ℕ}

/-- A promise that holds a result holds it for good. -/
theorem value_later (hW : 0 < W) (h : Run (rules capacity) init log d) (h' : Run (rules capacity) d log' c)
    {r : TaskResult} (hk : d.shared.promises[k]? = some (.value r)) :
    c.shared.promises[k]? = some (.value r) := by
  obtain ⟨e, hf, rfl⟩ := (value_iff hW h).mp hk
  exact (value_iff hW (h.trans h')).mpr ⟨e, by simp [hf], rfl⟩

/-- What a promise holds is a result of its own submission. -/
theorem value_id (hW : 0 < W) (h : Run (rules capacity) init log c) {e : TaskEnvelope} (he : e ∈ submitted log)
    {r : TaskResult} (hr : c.shared.promises[e.promise]? = some (.value r)) :
    r.id = e.id ∧ is_terminal r.state = true := by
  have hful : e ∈ fulfilled log := by
    by_contra hne
    rw [(honest hW h).unset e he hne] at hr
    cases hr
  rcases mem_fulfilled.mp hful with he | he
  · obtain ⟨d, f, hv⟩ := value_of_ran hW h he
    rw [hv] at hr
    cases hr
    exact ⟨by simp, TaskResult.terminal _⟩
  · obtain ⟨f, hv⟩ := value_of_rejected hW h he
    rw [hv] at hr
    cases hr
    exact ⟨by simp, TaskResult.terminal _⟩

end Values

/-! ## Futures -/

section Futures

/-- `std::future::get` on the `k`-th future, called by an idle client: the result, or, from a broken promise,
an exception. -/
def promiseReads : Reads (ThreadPool W ι) ℕ (Option TaskResult) (Pc (W := W) (ι := ι)) where
  may
    | .inl _, _ => False
    | .inr _, p => p = ClientPc.idle
  known k m := k < m.promises.length
  read k m :=
    match m.promises[k]? with
    | some (.value r) => some (some r)
    | some .broken_promise => some none
    | _ => none

theorem promiseReads_read (k : ℕ) (m : ThreadPool W ι) : promiseReads.read k m =
    match m.promises[k]? with
    | some (.value r) => some (some r)
    | some .broken_promise => some none
    | _ => none := rfl

variable [DecidableEq ι]

/-- The pool, with clients that may block on futures. -/
abbrev callers (capacity : ℕ) := (promiseReads (W := W) (ι := ι)).rules (rules capacity)

variable (W ι) in
/-- A configuration of the pool with such clients. -/
abbrev Callers := Config (ThreadPool W ι) fun t : Thread W ι => MayWait (Pc t) ℕ

/-- A new pool. -/
def callersInit : Callers W ι := ⟨fresh, fun t => .busy (init.pc t)⟩

/-- The events of such clients. -/
abbrev CallerEvent (W : ℕ) := ReadEvent (Event W) ℕ (Option TaskResult)

/-- The pool under them. -/
abbrev underlying (capacity : ℕ) (c : Callers W ι) : System W ι :=
  (promiseReads.forget (rules capacity)).config c

variable [Fintype ι] {capacity : ℕ} {c : Callers W ι} {log : List (Thread W ι × CallerEvent W)}

omit [Fintype ι] in
theorem underlying_run (h : Run (callers capacity) callersInit log c) :
    Run (rules capacity) init ((promiseReads.forget (rules capacity)).log log) (underlying capacity c) :=
  (promiseReads.forget (rules capacity)).run h

/-- Neither a new call nor a spurious wake-up. -/
def CallerEvent.goesOn : CallerEvent W → Prop := ReadEvent.free fun ev => ev ≠ .queue .spurious ∧ ev.starts = false

/-- At rest, with nobody blocked on a future. -/
structure AllReturned (capacity : ℕ) (c : Callers W ι) : Prop where
  rest : Quiescent (underlying capacity c)
  returned : ∀ t p k, c.pc t ≠ .waiting p k

omit [Fintype ι] in
theorem AllReturned.stuck (h : AllReturned capacity c) {l : Thread W ι × CallerEvent W} {d : Callers W ι}
    (hs : Step (callers capacity) c l d) : ¬ CallerEvent.goesOn l.2 := by
  intro hfree
  obtain ⟨hr⟩ := hs
  rename_i t ev m p
  generalize hp : c.pc t = q at hr
  cases (hr : ReadRule (rules capacity) promiseReads _ _ _ _ _ _) with
  | @base p _ _ _ hr =>
    have hplace : (underlying capacity c).pc t = p := congrArg MayWait.place hp
    rw [← hplace] at hr
    exact Quiescent.not_canGoOn h.rest ⟨(t, _), _, .mk hr, hfree⟩
  | wait _ _ => exact hfree
  | resume _ => exact h.returned t _ _ hp

omit [Fintype ι] in
/-- Only an idle client waits, for a promise that there is. -/
theorem waits (h : Run (callers capacity) callersInit log c) {t : Thread W ι} {p : Pc t} {k : ℕ}
    (hp : c.pc t = .waiting p k) : promiseReads.may t p ∧ k < c.shared.promises.length := by
  refine Reads.waits h (fun t p k hp => by cases hp) ?_ t p k hp
  intro t m p ev m' p' k hr hk
  exact Nat.lt_of_lt_of_le hk (rule_promises hr).1

/-- **Nobody is left behind**: something goes on until every call has returned. -/
theorem callers_goOn (hcap : 0 < capacity) (hW : 0 < W) (h : Run (callers capacity) callersInit log c)
    (hbusy : ¬ AllReturned capacity c) :
    ∃ l d, Step (callers capacity) c l d ∧ CallerEvent.goesOn l.2 := by
  refine Reads.goesOn (fun t p k hp => (waits h hp).1) ?_ ?_
  · -- an idle client has no step but to begin a call
    rintro (w | i) m p ev m' p' hmay hr ⟨-, hstarts⟩
    · exact hmay
    · subst hmay
      cases (hr : ClientRule capacity i _ _ _ _ _) <;> cases hstarts
  · by_cases hgo : CanGoOn capacity (underlying capacity c)
    · exact .inl hgo
    · have hrest := quiescent_of_stuck hcap hW (underlying_run h) hgo
      refine .inr ?_
      by_contra hno
      refine hbusy ⟨hrest, fun t p k hp => hno ?_⟩
      obtain ⟨r, hr⟩ := hrest.fulfilled _ (List.getElem_mem (waits h hp).2)
      refine ⟨t, p, k, some r, hp, ?_⟩
      have hk : c.shared.promises[k]? = some (.value r) := by
        rw [List.getElem?_eq_getElem (waits h hp).2]
        exact congrArg some hr
      rw [promiseReads_read, hk]

theorem got (hW : 0 < W) (h : Run (callers capacity) callersInit log c) :
    ∀ t k v, (t, .resume k v) ∈ log → ∃ r, v = some r ∧ c.shared.promises[k]? = some (.value r) := by
  refine h.induct (I := fun log d => ∀ t k v, (t, .resume k v) ∈ log →
    ∃ r, v = some r ∧ d.shared.promises[k]? = some (.value r)) (by simp) ?_
  intro log d t ev m p hrun ih hr u k v hl
  have hlater : ∀ {r}, d.shared.promises[k]? = some (.value r) → m.promises[k]? = some (.value r) := fun hk =>
    value_later hW (underlying_run hrun) ((promiseReads.forget (rules capacity)).run (.single (.mk hr))) hk
  rcases List.mem_append.mp hl with hl | hl
  · obtain ⟨r, hv, hk⟩ := ih u k v hl
    exact ⟨r, hv, hlater hk⟩
  · cases List.mem_singleton.mp hl
    generalize d.pc t = q at hr
    cases (hr : ReadRule (rules capacity) promiseReads _ _ _ _ _ _) with
    | resume hv =>
      -- a promise is never broken
      have hk : k < d.shared.promises.length := by
        by_contra hk
        rw [show promiseReads.read k d.shared = none by
          simp [promiseReads, List.getElem?_eq_none (not_lt.mp hk)]] at hv
        cases hv
      obtain ⟨e, -, -, hunset | ⟨r, -, hr⟩⟩ := promise_cases hW (underlying_run hrun) hk
      · rw [promiseReads_read, show d.shared.promises[k]? = _ from hunset] at hv
        cases hv
      · rw [promiseReads_read, show d.shared.promises[k]? = _ from hr] at hv
        exact ⟨r, (Option.some.inj hv).symm, hr⟩

/-- What a step of such a client is worth. -/
def CallerEvent.cost (n : ℕ) : CallerEvent W → ℕ
  | .base ev => ev.cost n
  | .wait _ => 2
  | .resume _ _ => 0

/-- **`get` always returns.**  In every run of a pool whose clients submit, shut down and call `get` in any
order: it has no more steps than its calls are worth, two for every spurious wake-up and a constant; while any
call is under way, a `get` among them, something goes on that is neither a new call nor a spurious wake-up; and
what a `get` has returned is no exception but the result of its submission, which its promise still holds. -/
theorem get_returns (hcap : 0 < capacity) (hW : 0 < W) (h : Run (callers capacity) callersInit log c) :
    log.length ≤ 6 * W + 2 * Fintype.card ι +
      (log.map fun l => CallerEvent.cost (Fintype.card (Thread W ι)) l.2).sum ∧
    ((∃ l d, Step (callers capacity) c l d ∧ CallerEvent.goesOn l.2) ↔ ¬ AllReturned capacity c) ∧
    ∀ t k v, (t, .resume k v) ∈ log → ∃ r, v = some r ∧ c.shared.promises[k]? = some (.value r) ∧
      ∃ e ∈ submitted ((promiseReads.forget (rules capacity)).log log), e.promise = k ∧ r.id = e.id ∧
        is_terminal r.state = true := by
  refine ⟨?_, ⟨fun ⟨l, d, hs, hgo⟩ hall => hall.stuck hs hgo, callers_goOn hcap hW h⟩, ?_⟩
  · have hlen := (promiseReads.potential (budget capacity)).length_le h
    have hinit : (promiseReads.potential (budget capacity)).total (callersInit : Callers W ι) =
        6 * W + 2 * Fintype.card ι := budget_init capacity
    have hcosts : (promiseReads.potential (budget capacity)).costs log =
        (log.map fun l => CallerEvent.cost (Fintype.card (Thread W ι)) l.2).sum := by
      refine congrArg List.sum (List.map_congr_left fun l _ => ?_)
      obtain ⟨t, ev | k | ⟨k, v⟩⟩ := l <;> rfl
    rw [hinit, hcosts] at hlen
    omega
  · intro t k v hl
    obtain ⟨r, rfl, hr⟩ := got hW h t k v hl
    refine ⟨r, rfl, hr, ?_⟩
    have hrun := underlying_run h
    obtain ⟨e, he, rfl, -⟩ := promise_cases hW hrun (List.getElem?_eq_some_iff.mp hr).1
    exact ⟨e, he, rfl, value_id hW hrun he hr⟩

instance (t : Thread W ι) (p : Pc t) : Decidable ((promiseReads (W := W) (ι := ι)).may t p) :=
  match t with
  | .inl _ => inferInstanceAs (Decidable False)
  | .inr _ => inferInstanceAs (Decidable (p = ClientPc.idle))

instance (k : ℕ) (m : ThreadPool W ι) : Decidable ((promiseReads (W := W) (ι := ι)).known k m) :=
  inferInstanceAs (Decidable (k < m.promises.length))

/-- A schedule: a client submits a task and calls `get` on its future, and the worker runs it. -/
def getSchedule : List (Thread 1 (Fin 1) × ReadAct (Act 1 (Fin 1)) ℕ) :=
  [(.inr 0, .base (.submit 7 ⟨.returns⟩ 0)), (.inr 0, .base (.queue .lock)),
   (.inr 0, .base (.queue (.notify none))), (.inr 0, .base .go), (.inr 0, .wait 0), (.inl 0, .base .go),
   (.inl 0, .base (.queue .lock)), (.inl 0, .base (.queue (.notify none))), (.inl 0, .base (.clock 1)),
   (.inl 0, .base (.clock 2)), (.inl 0, .base .go), (.inr 0, .resume)]

/-- Its log, and the configuration that it ends in. -/
def getRun : List (Thread 1 (Fin 1) × CallerEvent 1) × Callers 1 (Fin 1) :=
  (play (promiseReads.act (act 1)) getSchedule callersInit).get rfl

/-- There the `get` has returned the result of the task. -/
theorem get_returns_getRun :
    ∃ r, getRun.2.shared.promises[0]? = some (.value r) ∧ r.id = 7 ∧ is_terminal r.state = true := by
  have hrun : Run (callers 1) callersInit getRun.1 getRun.2 := play_run (Reads.act_sound act_sound) rfl
  obtain ⟨r, -, hr, e, he, -, hid, hterminal⟩ := (get_returns (by decide) (by decide) hrun).2.2 (.inr 0) 0
    (some (TaskEnvelope.result ⟨7, ⟨.returns⟩, 0, 0⟩ 1 2)) (List.mem_of_getLast? rfl)
  have hsubmitted : submitted ((promiseReads.forget (rules 1)).log getRun.1) = [⟨7, ⟨.returns⟩, 0, 0⟩] := rfl
  rw [hsubmitted] at he
  cases List.mem_singleton.mp he
  exact ⟨r, hr, hid, hterminal⟩

end Futures

end ThreadPool

end TaskEngine
