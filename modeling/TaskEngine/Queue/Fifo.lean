import TaskEngine.Interleaving.Ledger
import TaskEngine.Queue.Model

/-!
# TaskEngine.Queue.Fifo — what the queue is for: a bounded sequence that can be closed

`Fifo` keeps the items and the closed flag only; its threads have no places, so an operation is one
step.  Items leave in the order they came in, by `take` one at a time or by `flush` all at once
(`Fifo.conservation`); `shut` and `flush` close for good (`Fifo.closed_stable`, `Fifo.exhausted`), so
that what is flushed fitted the queue (`Fifo.flushed_le`).

`BlockingQueue.toFifo` is the refinement: the critical sections of the queue are the steps of
`Fifo`, and every other step of a thread inside the queue is none.
-/

namespace TaskEngine

open Interleaving

/-! ## The abstract queue -/

/-- The items in their order, and whether the queue is closed. -/
structure Fifo (T : Type) where
  items : List T
  closed : Bool

namespace Fifo

variable {T θ : Type}

inductive Event (T : Type)
  | put (item : T)
  | refuse
  | take (item : T)
  | finish
  | shut
  | flush (items : List T)

/-- The steps of the abstract queue. -/
inductive Rule (capacity : ℕ) : Fifo T → Event T → Fifo T → Prop
  | put {items item} (hs : items.length < capacity) :
      Rule capacity ⟨items, false⟩ (.put item) ⟨items ++ [item], false⟩
  | refuse {items} : Rule capacity ⟨items, true⟩ .refuse ⟨items, true⟩
  | take {item rest closed} : Rule capacity ⟨item :: rest, closed⟩ (.take item) ⟨rest, closed⟩
  | finish : Rule capacity ⟨[], true⟩ .finish ⟨[], true⟩
  | shut {items} : Rule capacity ⟨items, false⟩ .shut ⟨items, true⟩
  | flush {items closed} : Rule capacity ⟨items, closed⟩ (.flush items) ⟨[], true⟩

/-- The abstract queue, used by any threads. -/
def rules (capacity : ℕ) : Rules (Fifo T) (Event T) (fun _ : θ => Unit) :=
  fun _ q _ ev q' _ => Rule capacity q ev q'

def Event.puts : Event T → List T
  | .put item => [item]
  | _ => []

def Event.takes : Event T → List T
  | .take item => [item]
  | _ => []

def Event.flushes : Event T → List T
  | .flush items => items
  | _ => []

attribute [simp] Event.puts.eq_1 Event.puts.eq_2 Event.takes.eq_1 Event.takes.eq_2
  Event.flushes.eq_1 Event.flushes.eq_2

/-- The items put in, in the order of their insertion. -/
abbrev puts (log : List (θ × Event T)) : List T := collect Event.puts log

/-- The items taken out one at a time, in the order of their removal. -/
abbrev takes (log : List (θ × Event T)) : List T := collect Event.takes log

/-- The items flushed. -/
abbrev flushes (log : List (θ × Event T)) : List T := collect Event.flushes log

section Runs

variable [DecidableEq θ] {capacity : ℕ} {c c' : Config (Fifo T) (fun _ : θ => Unit)}
  {log : List (θ × Event T)}

/-- Closing is final, and nothing is put into a closed queue. -/
theorem closed_stable (h : Run (rules capacity) c log c') (hc : c.shared.closed = true) :
    c'.shared.closed = true ∧ puts log = [] := by
  refine h.induct (I := fun log d => d.shared.closed = true ∧ puts log = []) ⟨hc, rfl⟩ ?_
  rintro log ⟨q, pc⟩ t ev m p _ ⟨hd, hp⟩ (hr : Rule capacity q ev m)
  cases hr <;> simp_all

/-- A closed and empty queue stays so, and nothing leaves it any more. -/
theorem exhausted (h : Run (rules capacity) c log c') (hc : c.shared = ⟨[], true⟩) :
    c'.shared = ⟨[], true⟩ ∧ takes log = [] ∧ flushes log = [] := by
  refine h.induct (I := fun log d => d.shared = ⟨[], true⟩ ∧ takes log = [] ∧ flushes log = [])
    ⟨hc, rfl, rfl⟩ ?_
  rintro log ⟨q, pc⟩ t ev m p _ ⟨hd, ht, hf⟩ (hr : Rule capacity q ev m)
  cases hr <;> simp_all

theorem empty_of_flushed (h : Run (rules capacity) c log c') (hf : flushes log ≠ []) :
    c'.shared = ⟨[], true⟩ := by
  revert hf
  refine h.induct (I := fun log d => flushes log ≠ [] → d.shared = ⟨[], true⟩)
    (by simp) ?_
  rintro log ⟨q, pc⟩ t ev m p _ ih (hr : Rule capacity q ev m)
  cases hr <;> simp_all

theorem flushes_eq_nil (h : Run (rules capacity) c log c') (hq : c'.shared ≠ ⟨[], true⟩) :
    flushes log = [] := by
  by_contra hf
  exact hq (empty_of_flushed h hf)

/-- **Conservation and order**: what left, first one at a time and then flushed, followed by what is
still there, is what was there followed by what came in. -/
theorem conservation (h : Run (rules capacity) c log c') :
    takes log ++ flushes log ++ c'.shared.items = c.shared.items ++ puts log := by
  refine h.induct
    (I := fun log d => takes log ++ flushes log ++ d.shared.items = c.shared.items ++ puts log)
    (by simp) ?_
  rintro log ⟨q, pc⟩ t ev m p hrun ih (hr : Rule capacity q ev m)
  cases hr with
  | put _ => simpa using congrArg (· ++ [_]) ih
  | refuse => simpa using ih
  | @take item rest closed =>
    have hf : flushes log = [] := flushes_eq_nil hrun (by simp)
    simpa [hf] using ih
  | finish => simpa using ih
  | shut => simpa using ih
  | flush => simpa using ih

theorem length_le (h : Run (rules capacity) c log c') (hc : c.shared.items.length ≤ capacity) :
    c'.shared.items.length ≤ capacity := by
  refine h.preserves (P := fun d => d.shared.items.length ≤ capacity) ?_ hc
  rintro ⟨q, pc⟩ t ev m p hd (hr : Rule capacity q ev m)
  cases hr <;> simp_all
  omega

/-- What was flushed came out of one full queue at most, and nothing is put back behind it. -/
theorem flushed_le (h : Run (rules capacity) c log c') (hc : c.shared.items.length ≤ capacity) :
    c'.shared.items.length + (flushes log).length ≤ capacity := by
  refine h.induct (I := fun log d => d.shared.items.length + (flushes log).length ≤ capacity)
    (by simpa using hc) ?_
  rintro log ⟨q, pc⟩ t ev m p hrun ih (hr : Rule capacity q ev m)
  cases hr with
  | @put items item hs =>
    have hf : flushes log = [] := flushes_eq_nil hrun (by simp)
    simpa [hf] using Nat.succ_le_of_lt hs
  | refuse => simpa using ih
  | @take item rest closed =>
    have hlog : flushes (log ++ [(t, .take item)]) = flushes log := by simp
    rw [hlog]
    exact (Nat.add_le_add_right (Nat.le_succ _) _).trans ih
  | finish => simpa using ih
  | shut => simpa using ih
  | @flush items closed =>
    have hlog : flushes (log ++ [(t, .flush items)]) = flushes log ++ items := by simp
    rw [hlog, List.length_append, List.length_nil, Nat.zero_add, Nat.add_comm]
    exact ih

end Runs

end Fifo

/-! ## The refinement -/

namespace BlockingQueue

variable {T θ : Type} [DecidableEq θ]

/-- What a label is in the abstract queue. -/
def Label.toFifo : Label T → Option (Fifo.Event T)
  | .act (.push value) => some (.put value)
  | .act (.refuse _) => some .refuse
  | .act (.pop item) => some (.take item)
  | .act .exhaust => some .finish
  | .act .close => some .shut
  | .act (.drain items) => some (.flush items)
  | _ => none

/-- What one step of a thread does to `items_` and `closed_`: the abstract step with its event, or
nothing. -/
theorem Rule.toFifo {capacity : ℕ} {t : θ} {q q' : BlockingQueue T θ} {p p' : Place T} {l : Label T}
    (h : Rule capacity t q p l q' p') :
    l.toFifo.elim ((⟨q'.items, q'.closed⟩ : Fifo T) = ⟨q.items, q.closed⟩)
      fun ev => Fifo.Rule capacity ⟨q.items, q.closed⟩ ev ⟨q'.items, q'.closed⟩ := by
  cases h with
  | call op => rfl
  | ret _ => rfl
  | push h =>
    cases h with
    | spurious _ => rfl
    | notify_one _ => rfl
    | enter h =>
      cases pushSection_cases h with
      | refuse hc => simpa [Label.toFifo, hc] using Fifo.Rule.refuse
      | insert hc hs => simpa [Label.toFifo, hc] using Fifo.Rule.put hs
      | block _ _ => rfl
    | resume _ h =>
      cases pushSection_cases h with
      | refuse hc => simpa [Label.toFifo, show q.closed = true from hc] using Fifo.Rule.refuse
      | insert hc hs => simpa [Label.toFifo, show q.closed = false from hc] using Fifo.Rule.put hs
      | block _ _ => rfl
  | pop h =>
    cases h with
    | spurious _ => rfl
    | notify_one _ => rfl
    | enter h =>
      cases popSection_cases h with
      | exhaust hc hi => simpa [Label.toFifo, hc, hi] using Fifo.Rule.finish
      | take hi => simpa [Label.toFifo, hi] using Fifo.Rule.take
      | block _ _ => rfl
    | resume _ h =>
      cases popSection_cases h with
      | exhaust hc hi =>
        simpa [Label.toFifo, show q.closed = true from hc, show q.items = [] from hi] using
          Fifo.Rule.finish
      | take hi => simpa [Label.toFifo, show q.items = _ from hi] using Fifo.Rule.take
      | block _ _ => rfl
  | close h =>
    cases h with
    | notify_empty => rfl
    | notify_full => rfl
    | enter h =>
      cases closeSection_cases h with
      | again _ => rfl
      | close hc => simpa [Label.toFifo, hc] using Fifo.Rule.shut
  | drain h =>
    cases h with
    | notify_empty => rfl
    | notify_full => rfl
    | enter h => cases h; exact Fifo.Rule.flush

/-- **The queue refines the abstract queue.** -/
def toFifo (capacity : ℕ) :
    Projection (rules (T := T) (θ := θ) capacity) (Fifo.rules (T := T) capacity) where
  mem q := ⟨q.items, q.closed⟩
  place _ _ := ()
  event := Label.toFifo
  seen _ _ _ _ _ _ _ h he := by
    have := Rule.toFifo h
    rw [he] at this
    exact this
  unseen _ _ _ _ _ _ h he := by
    have := Rule.toFifo h
    rw [he] at this
    exact ⟨this, rfl⟩

end BlockingQueue

end TaskEngine
