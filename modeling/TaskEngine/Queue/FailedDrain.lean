import TaskEngine.Queue.WakeUp

/-!
# TaskEngine.Queue.FailedDrain — `close_and_drain` that cannot allocate

`close_and_drain` sets `closed_` before `drained.reserve`, and notifies after it: where the reserve
throws, the queue stays closed with its items, and nobody is notified.  A later `close` finds it closed
and returns at once, so whoever is blocked depends on the notifications that other calls owe and on
those that the remaining items bring.  `Covered` says that these are enough; no step of the queue
undoes it (`Covered.step`), and a failure keeps it where it finds the queue `Recoverable`.
-/

namespace TaskEngine

open Interleaving

namespace BlockingQueue

variable {T θ : Type}

/-! ## The failure -/

section Failure

/-- `close_and_drain` under the mutex when `drained.reserve` throws, which it does only when there is
something to make room for. -/
def failedDrainSection (q : BlockingQueue T θ) : Option (BlockingQueue T θ) :=
  match q.items with
  | [] => none
  | _ :: _ => some { q with closed := true }

theorem failedDrainSection_eq {q q' : BlockingQueue T θ} (h : failedDrainSection q = some q') :
    q.items ≠ [] ∧ q' = { q with closed := true } := by
  unfold failedDrainSection at h
  split at h
  · cases h
  · next hi =>
    cases h
    exact ⟨by simp [hi], rfl⟩

/-- The predicate of the wait in `pop`. -/
def CanPop (q : BlockingQueue T θ) : Prop := q.closed = true ∨ q.items ≠ []

/-- The predicate of the wait in `push`. -/
def CanPush (capacity : ℕ) (q : BlockingQueue T θ) : Prop :=
  q.closed = true ∨ q.items.length < capacity

/-- The queue is as it was, or the threads still blocked have no predicate that has become true. -/
def LeavesNobody (capacity : ℕ) (q q' : BlockingQueue T θ) : Prop :=
  q' = q ∨ ((∀ t ∈ q'.not_empty.waiting, q'.CanPop → q.CanPop) ∧
    ∀ t ∈ q'.not_full.waiting, q'.CanPush capacity → q.CanPush capacity)

variable [Fintype θ]

/-- Closed, every blocked thread has a notification to come: a `notify_all` that some call owes, or
`notify_one`s enough, those owed and, for producers, one with each item left. -/
structure Covered (c : System T θ) : Prop where
  empty : c.shared.closed = true → (∃ t, (c.pc t).owesAllEmpty = true) ∨
    c.shared.not_empty.waiting.card ≤ owedNotEmpty c
  full : c.shared.closed = true → (∃ t, (c.pc t).owesAllFull = true) ∨
    c.shared.not_full.waiting.card ≤ owedNotFull c + c.shared.items.length

/-- What a failure has to find: the notifications owed reach every consumer blocked, those owed and
those of the items left every producer, and no producer waits for space. -/
structure Recoverable (capacity : ℕ) (c : System T θ) : Prop where
  empty : c.shared.not_empty.waiting.card ≤ owedNotEmpty c
  full : c.shared.not_full.waiting.card ≤ owedNotFull c + c.shared.items.length
  space : c.shared.items.length < capacity ∨ c.shared.not_full.waiting = ∅

/-- A failure on a queue that is closed already leaves it as it was, and one that finds it recoverable
makes no predicate true. -/
theorem leavesNobody {capacity : ℕ} {c : System T θ} {q : BlockingQueue T θ}
    (hr : c.shared.closed = true ∨ Recoverable capacity c) (h : failedDrainSection c.shared = some q) :
    LeavesNobody capacity c.shared q := by
  obtain ⟨hi, rfl⟩ := failedDrainSection_eq h
  rcases hr with hc | hr
  · exact .inl (by rw [← hc])
  · refine .inr ⟨fun _ _ _ => .inr hi, ?_⟩
    intro t ht _
    rcases hr.space with hs | hs
    · exact .inr hs
    · exact absurd ht (by simp [hs])

end Failure

/-! ## One step -/

section Steps

variable [DecidableEq θ] {capacity : ℕ} {t : θ} {q q' : BlockingQueue T θ} {p p' : Place T}
  {l : Label T}

/-- On a closed queue no step blocks a consumer, and the one that takes back what its thread owes
releases one. -/
theorem Rule.cover_empty (h : Rule capacity t q p l q' p') (hc : q.closed = true) {rest : ℕ}
    (hs : q.not_empty.waiting.card ≤ p.owesNotEmpty + rest) :
    q'.not_empty.waiting.card ≤ p'.owesNotEmpty + rest := by
  cases h with
  | call op => cases op <;> simpa [Op.start] using hs
  | ret hres => rcases p with _ | (_ | _ | _ | _ | _) | _ | _ | _ <;> simp [Place.result] at hres hs ⊢ <;> exact hs
  | push h =>
    cases h with
    | enter h =>
      cases pushSection_cases h with
      | refuse _ => simpa using hs
      | insert ho _ => rw [hc] at ho; cases ho
      | block ho _ => rw [hc] at ho; cases ho
    | resume _ h =>
      cases pushSection_cases h with
      | refuse _ => simpa using hs
      | insert ho _ => exact absurd (hc.symm.trans ho) (by simp)
      | block ho _ => exact absurd (hc.symm.trans ho) (by simp)
    | spurious _ => simpa using hs
    -- one notification owed less, and one consumer blocked less
    | notify_one h =>
      have := h.card_waiting
      simp only [Place.owesNotEmpty] at hs ⊢
      omega
  | pop h =>
    cases h with
    | enter h =>
      cases popSection_cases h with
      | block ho _ => rw [hc] at ho; cases ho
      | _ => simpa using hs
    | resume _ h =>
      cases popSection_cases h with
      | block ho _ => exact absurd (hc.symm.trans ho) (by simp)
      | _ => simpa using hs
    | spurious _ => exact (Finset.card_erase_le).trans (by simpa using hs)
    | notify_one _ => simpa using hs
  | close h =>
    cases h with
    | enter h => cases closeSection_cases h <;> simpa using hs
    | notify_empty => simp
    | notify_full => simpa using hs
  | drain h =>
    cases h with
    | enter h => cases h; simpa using hs
    | notify_empty => simp
    | notify_full => simpa using hs

/-- The same for the producers: a pop turns an item into a notification owed. -/
theorem Rule.cover_full (h : Rule capacity t q p l q' p') (hc : q.closed = true)
    (hp' : p'.owesAllFull = false) {rest : ℕ}
    (hs : q.not_full.waiting.card ≤ p.owesNotFull + rest + q.items.length) :
    q'.not_full.waiting.card ≤ p'.owesNotFull + rest + q'.items.length := by
  cases h with
  | call op => cases op <;> simpa [Op.start] using hs
  | ret hres => rcases p with _ | _ | (_ | _ | _ | _) | _ | _ <;> simp [Place.result] at hres hs ⊢ <;> exact hs
  | push h =>
    cases h with
    | enter h =>
      cases pushSection_cases h with
      | refuse _ => simpa using hs
      | insert ho _ => rw [hc] at ho; cases ho
      | block ho _ => rw [hc] at ho; cases ho
    | resume _ h =>
      cases pushSection_cases h with
      | refuse _ => simpa using hs
      | insert ho _ => exact absurd (hc.symm.trans ho) (by simp)
      | block ho _ => exact absurd (hc.symm.trans ho) (by simp)
    | spurious _ => exact (Finset.card_erase_le).trans (by simpa using hs)
    | notify_one _ => simpa using hs
  | pop h =>
    cases h with
    | enter h =>
      cases popSection_cases h with
      | exhaust _ _ => simpa using hs
      -- the item removed turns into a notification owed
      | take hi => simp only [hi, List.length_cons, Place.owesNotFull] at hs ⊢; omega
      | block ho _ => rw [hc] at ho; cases ho
    | resume _ h =>
      cases popSection_cases h with
      | exhaust _ _ => simpa using hs
      | take hi =>
        rw [show q.items = _ from hi] at hs
        simp only [List.length_cons, Place.owesNotFull] at hs ⊢
        omega
      | block ho _ => exact absurd (hc.symm.trans ho) (by simp)
    | spurious _ => simpa using hs
    | notify_one h =>
      have := h.card_waiting
      simp only [Place.owesNotFull] at hs ⊢
      omega
  | close h =>
    cases h with
    | enter h => cases closeSection_cases h <;> simpa using hs
    | notify_empty => simpa using hs
    | notify_full => simp
  | drain h =>
    cases h with
    | enter h => cases h; cases hp'
    | notify_empty => simpa using hs
    | notify_full => simp

end Steps

/-! ## The invariant -/

section Invariant

variable [Fintype θ] [DecidableEq θ] {capacity : ℕ} {c : System T θ} {t : θ} {q : BlockingQueue T θ}

theorem Covered.step {l : Label T} {p : Place T} (hv : Covered c)
    (h : Rule capacity t c.shared (c.pc t) l q p) : Covered ⟨q, Function.update c.pc t p⟩ where
  empty hc' := by
    cases hc : c.shared.closed with
    | false => exact .inl (exists_update (.inl (h.closes hc hc').1))
    | true =>
      rcases q.not_empty.waiting.eq_empty_or_nonempty with hw | hw
      · exact .inr (by simp [hw])
      · rcases h.closed_empty hc' hw with hp | ⟨-, -, hp⟩
        · exact .inl (exists_update (.inl hp))
        · rcases hv.empty hc with ⟨u, hu⟩ | hs
          · exact .inl (exists_update (.inr ⟨u, hu, hp⟩))
          · obtain ⟨rest, h1, h2⟩ := sum_split (fun _ => Place.owesNotEmpty (T := T)) c.pc t
            rw [owedNotEmpty, h1] at hs
            rw [owedNotEmpty, h2]
            exact .inr (h.cover_empty hc hs)
  full hc' := by
    cases hc : c.shared.closed with
    | false => exact .inl (exists_update (.inl (h.closes hc hc').2))
    | true =>
      rcases q.not_full.waiting.eq_empty_or_nonempty with hw | hw
      · exact .inr (by simp [hw])
      · cases hp' : p.owesAllFull with
        | true => exact .inl (exists_update (.inl hp'))
        | false =>
          rcases h.closed_full hc' hw with hp | ⟨-, -, hp⟩
          · rw [hp'] at hp; cases hp
          · rcases hv.full hc with ⟨u, hu⟩ | hs
            · exact .inl (exists_update (.inr ⟨u, hu, hp⟩))
            · obtain ⟨rest, h1, h2⟩ := sum_split (fun _ => Place.owesNotFull (T := T)) c.pc t
              rw [owedNotFull, h1] at hs
              rw [owedNotFull, h2]
              exact .inr (h.cover_full hc hp' hs)

theorem Covered.failed (hv : Covered c) (hr : c.shared.closed = true ∨ Recoverable capacity c)
    (hp : c.pc t = .drain .enter) (h : failedDrainSection c.shared = some q) :
    Covered ⟨q, Function.update c.pc t .idle⟩ := by
  obtain ⟨-, rfl⟩ := failedDrainSection_eq h
  obtain ⟨rest₁, h1, h1'⟩ := sum_split (fun _ => Place.owesNotEmpty (T := T)) c.pc t
  obtain ⟨rest₂, h2, h2'⟩ := sum_split (fun _ => Place.owesNotFull (T := T)) c.pc t
  have hempty : owedNotEmpty ⟨{ c.shared with closed := true }, Function.update c.pc t .idle⟩ =
      owedNotEmpty c := by
    rw [owedNotEmpty, owedNotEmpty, h1, h1', hp]
    rfl
  have hfull : owedNotFull ⟨{ c.shared with closed := true }, Function.update c.pc t .idle⟩ =
      owedNotFull c := by
    rw [owedNotFull, owedNotFull, h2, h2', hp]
    rfl
  refine ⟨?_, ?_⟩
  · intro _
    rw [hempty]
    rcases hr with hc | hr
    · rcases hv.empty hc with ⟨u, hu⟩ | hs
      · exact .inl (exists_update (.inr ⟨u, hu, by simp [hp]⟩))
      · exact .inr hs
    · exact .inr hr.empty
  · intro _
    rw [hfull]
    rcases hr with hc | hr
    · rcases hv.full hc with ⟨u, hu⟩ | hs
      · exact .inl (exists_update (.inr ⟨u, hu, by simp [hp]⟩))
      · exact .inr hs
    · exact .inr hr.full

end Invariant

end BlockingQueue

end TaskEngine
