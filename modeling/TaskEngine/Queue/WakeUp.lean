import TaskEngine.Queue.Conservation

/-!
# TaskEngine.Queue.WakeUp — no wake-up is lost

`notify_one` is sent after the mutex has been released, may find nobody, and may be overtaken by a
thread that never waited.  The invariant `Awake` balances what is available against the
notifications under way:

* open, and a consumer blocked: every item is matched by a notification that some push still owes or
  by a notified consumer that has not run yet; the same for free slots and producers;
* closed, and a thread blocked: some call still owes its variable a `notify_all`.

`no_lost_wakeup`: hence, when every thread inside the queue is blocked, none of them could proceed.
-/

namespace TaskEngine

open Interleaving

namespace BlockingQueue

variable {T θ : Type}

/-! ## What a thread owes -/

section Owed

/-- `push` has left its critical section and still owes `not_empty_` a `notify_one`. -/
def Place.owesNotEmpty : Place T → ℕ
  | .push (.notifying _) => 1
  | _ => 0

/-- `pop` has left its critical section and still owes `not_full_` a `notify_one`. -/
def Place.owesNotFull : Place T → ℕ
  | .pop (.notifying _) => 1
  | _ => 0

/-- A close still owes `not_empty_` its `notify_all`. -/
def Place.owesAllEmpty : Place T → Bool
  | .close .notifyingEmpty | .drain (.notifyingEmpty _) => true
  | _ => false

/-- A close still owes `not_full_` its `notify_all`. -/
def Place.owesAllFull : Place T → Bool
  | .close .notifyingEmpty | .close .notifyingFull => true
  | .drain (.notifyingEmpty _) | .drain (.notifyingFull _) => true
  | _ => false

/-- Blocked in `pop`'s wait or notified there. -/
def Place.consuming : Place T → Bool
  | .pop .waiting => true
  | _ => false

/-- Blocked in `push`'s wait or notified there. -/
def Place.producing : Place T → Bool
  | .push (.waiting _) => true
  | _ => false

attribute [simp] Place.owesNotEmpty.eq_1 Place.owesNotEmpty.eq_2 Place.owesNotFull.eq_1
  Place.owesNotFull.eq_2 Place.owesAllEmpty.eq_1 Place.owesAllEmpty.eq_2 Place.owesAllEmpty.eq_3
  Place.owesAllFull.eq_1 Place.owesAllFull.eq_2 Place.owesAllFull.eq_3 Place.owesAllFull.eq_4
  Place.owesAllFull.eq_5 Place.consuming.eq_1 Place.consuming.eq_2 Place.producing.eq_1
  Place.producing.eq_2

variable [Fintype θ]

/-- The `notify_one` calls owed to `not_empty_`. -/
def owedNotEmpty (c : System T θ) : ℕ :=
  ∑ t, (c.pc t).owesNotEmpty

/-- The `notify_one` calls owed to `not_full_`. -/
def owedNotFull (c : System T θ) : ℕ :=
  ∑ t, (c.pc t).owesNotFull

end Owed

/-! ## One step -/

section Steps

variable [DecidableEq θ] {capacity : ℕ} {t : θ} {q q' : BlockingQueue T θ} {p p' : Place T}
  {l : Label T}

/-- What a step does to `not_empty_`. -/
theorem Rule.not_empty_move (h : Rule capacity t q p l q' p') :
    CondVar.Move t p.consuming q.not_empty p'.consuming q'.not_empty := by
  cases h with
  | call op => cases op <;> exact .skip
  | ret hres => rcases p with _ | _ | (_ | _ | _ | _) | _ | _ <;> first | exact .skip | simp [Place.result] at hres
  | push h =>
    cases h with
    | enter h => cases pushSection_cases h <;> exact .skip
    | resume _ h => cases pushSection_cases h <;> exact .skip
    | spurious _ => exact .skip
    | notify_one h => exact .one h
  | pop h =>
    cases h with
    | enter h =>
      cases popSection_cases h with
      | block _ _ => exact .block
      | _ => exact .skip
    | resume hw h =>
      cases popSection_cases h with
      | block _ _ => exact .again hw
      | _ => exact .leave hw
    | spurious hw => exact .spurious hw
    | notify_one h => exact .skip
  | close h =>
    cases h with
    | enter h => cases closeSection_cases h <;> exact .skip
    | notify_empty => exact .all
    | notify_full => exact .skip
  | drain h =>
    cases h with
    | enter h => cases h; exact .skip
    | notify_empty => exact .all
    | notify_full => exact .skip

/-- What a step does to `not_full_`. -/
theorem Rule.not_full_move (h : Rule capacity t q p l q' p') :
    CondVar.Move t p.producing q.not_full p'.producing q'.not_full := by
  cases h with
  | call op => cases op <;> exact .skip
  | ret hres => rcases p with _ | (_ | _ | _ | _ | _) | _ | _ | _ <;> first | exact .skip | simp [Place.result] at hres
  | push h =>
    cases h with
    | enter h =>
      cases pushSection_cases h with
      | block _ _ => exact .block
      | _ => exact .skip
    | resume hw h =>
      cases pushSection_cases h with
      | block _ _ => exact .again hw
      | _ => exact .leave hw
    | spurious hw => exact .spurious hw
    | notify_one h => exact .skip
  | pop h =>
    cases h with
    | enter h => cases popSection_cases h <;> exact .skip
    | resume _ h => cases popSection_cases h <;> exact .skip
    | spurious _ => exact .skip
    | notify_one h => exact .one h
  | close h =>
    cases h with
    | enter h => cases closeSection_cases h <;> exact .skip
    | notify_empty => exact .skip
    | notify_full => exact .all
  | drain h =>
    cases h with
    | enter h => cases h; exact .skip
    | notify_empty => exact .skip
    | notify_full => exact .all

/-- Items against notifications to consumers: `rest` is what the other threads owe. -/
theorem Rule.supply (h : Rule capacity t q p l q' p')
    (hdisj : Disjoint q.not_empty.waiting q.not_empty.notified) (rest : ℕ)
    (hs : q.closed = false → q.not_empty.waiting.Nonempty →
      q.items.length ≤ p.owesNotEmpty + rest + q.not_empty.notified.card)
    (hc' : q'.closed = false) (hw' : q'.not_empty.waiting.Nonempty) :
    q'.items.length ≤ p'.owesNotEmpty + rest + q'.not_empty.notified.card := by
  cases h with
  | call op => cases op <;> simpa [Op.start] using hs hc' hw'
  | ret hres =>
    refine (hs hc' hw').trans ?_
    rcases p with _ | (_ | _ | _ | _ | _) | _ | _ | _ <;> simp [Place.result] at hres ⊢
  | push h =>
    cases h with
    | enter h =>
      cases pushSection_cases h with
      | refuse hc => rw [hc] at hc'; cases hc'
      -- one more item, and one more notification owed
      | insert _ _ => have := hs hc' hw'; simp at this ⊢; omega
      | block _ _ => simpa using hs hc' hw'
    | resume _ h =>
      cases pushSection_cases h with
      | refuse hc => rw [hc] at hc'; cases hc'
      | insert _ _ => have := hs hc' hw'; simp at this ⊢; omega
      | block _ _ => simpa using hs hc' hw'
    | spurious _ => simpa using hs hc' hw'
    | notify_one h =>
      -- the notification reaches somebody, or nobody is blocked any more
      have := hs hc' (hw'.mono h.waiting_subset)
      have hcard := h.card_notified hdisj hw'
      simp only [Place.owesNotEmpty] at this ⊢
      omega
  | pop h =>
    cases h with
    | enter h =>
      cases popSection_cases h with
      | exhaust hc _ => rw [hc] at hc'; cases hc'
      | take hi => have := hs hc' hw'; simp [hi] at this ⊢; omega
      -- whoever blocks has found no item
      | block _ hi => simp [hi]
    | resume _ h =>
      have hcard := q.not_empty.card_resume_le t
      cases popSection_cases h with
      | exhaust hc _ => rw [hc] at hc'; cases hc'
      | take hi =>
        have := hs hc' hw'
        rw [show q.items = _ from hi] at this
        simp only [List.length_cons, Place.owesNotEmpty] at this ⊢
        omega
      | block _ hi => simp [show q.items = [] from hi]
    | spurious hw =>
      simpa using hs hc' (hw'.mono (by simpa using Finset.erase_subset _ _))
    | notify_one _ => simpa using hs hc' hw'
  | close h =>
    cases h with
    | enter h =>
      cases closeSection_cases h with
      | again hc => rw [hc] at hc'; cases hc'
      | close _ => cases hc'
    | notify_empty => simp at hw'
    | notify_full => simpa using hs hc' hw'
  | drain h =>
    cases h with
    | enter h => cases h; cases hc'
    | notify_empty => simp at hw'
    | notify_full => simpa using hs hc' hw'

/-- Free slots against notifications to producers. -/
theorem Rule.space (h : Rule capacity t q p l q' p')
    (hdisj : Disjoint q.not_full.waiting q.not_full.notified) (rest : ℕ)
    (hs : q.closed = false → q.not_full.waiting.Nonempty →
      capacity ≤ q.items.length + (p.owesNotFull + rest + q.not_full.notified.card))
    (hc' : q'.closed = false) (hw' : q'.not_full.waiting.Nonempty) :
    capacity ≤ q'.items.length + (p'.owesNotFull + rest + q'.not_full.notified.card) := by
  cases h with
  | call op => cases op <;> simpa [Op.start] using hs hc' hw'
  | ret hres =>
    refine (hs hc' hw').trans ?_
    rcases p with _ | _ | (_ | _ | _ | _) | _ | _ <;> simp [Place.result] at hres ⊢
  | push h =>
    cases h with
    | enter h =>
      cases pushSection_cases h with
      | refuse hc => rw [hc] at hc'; cases hc'
      | insert _ _ => have := hs hc' hw'; simp at this ⊢; omega
      | block _ hs => exact hs.trans (Nat.le_add_right _ _)
    | resume _ h =>
      have hcard := q.not_full.card_resume_le t
      cases pushSection_cases h with
      | refuse hc => rw [hc] at hc'; cases hc'
      | insert _ _ =>
        have := hs hc' hw'
        simp only [List.length_append, List.length_singleton, Place.owesNotFull] at this ⊢
        omega
      | block _ hs => exact hs.trans (Nat.le_add_right _ _)
    | spurious _ => simpa using hs hc' (hw'.mono (by simpa using Finset.erase_subset _ _))
    | notify_one _ => simpa using hs hc' hw'
  | pop h =>
    cases h with
    | enter h =>
      cases popSection_cases h with
      | exhaust hc _ => rw [hc] at hc'; cases hc'
      | take hi => have := hs hc' hw'; simp [hi] at this ⊢; omega
      | block _ _ => simpa using hs hc' hw'
    | resume _ h =>
      cases popSection_cases h with
      | exhaust hc _ => rw [hc] at hc'; cases hc'
      | take hi =>
        have := hs hc' hw'
        rw [show q.items = _ from hi] at this
        simp only [List.length_cons, Place.owesNotFull] at this ⊢
        omega
      | block _ _ => simpa using hs hc' hw'
    | spurious _ => simpa using hs hc' hw'
    | notify_one h =>
      have := hs hc' (hw'.mono h.waiting_subset)
      have hcard := h.card_notified hdisj hw'
      simp only [Place.owesNotFull] at this ⊢
      omega
  | close h =>
    cases h with
    | enter h =>
      cases closeSection_cases h with
      | again hc => rw [hc] at hc'; cases hc'
      | close _ => cases hc'
    | notify_empty => simpa using hs hc' hw'
    | notify_full => simp at hw'
  | drain h =>
    cases h with
    | enter h => cases h; cases hc'
    | notify_empty => simpa using hs hc' hw'
    | notify_full => simp at hw'

/-- Whoever closes the queue owes a `notify_all` to both variables. -/
theorem Rule.closes (h : Rule capacity t q p l q' p') (hc : q.closed = false) (hc' : q'.closed = true) :
    p'.owesAllEmpty = true ∧ p'.owesAllFull = true := by
  have hno : q'.closed ≠ q.closed := by simp [hc, hc']
  cases h with
  | call _ => exact absurd rfl hno
  | ret _ => exact absurd rfl hno
  | push h =>
    cases h with
    | enter h => cases pushSection_cases h <;> exact absurd rfl hno
    | resume _ h => cases pushSection_cases h <;> exact absurd rfl hno
    | _ => exact absurd rfl hno
  | pop h =>
    cases h with
    | enter h => cases popSection_cases h <;> exact absurd rfl hno
    | resume _ h => cases popSection_cases h <;> exact absurd rfl hno
    | _ => exact absurd rfl hno
  | close h =>
    cases h with
    | enter h =>
      cases closeSection_cases h with
      | again _ => exact absurd rfl hno
      | close _ => exact ⟨rfl, rfl⟩
    | _ => exact absurd rfl hno
  | drain h =>
    cases h with
    | enter h => cases h; exact ⟨rfl, rfl⟩
    | _ => exact absurd rfl hno

/-- On a closed queue nobody blocks. -/
theorem Rule.waiting_subset (h : Rule capacity t q p l q' p') (hc : q.closed = true) :
    q'.not_empty.waiting ⊆ q.not_empty.waiting ∧ q'.not_full.waiting ⊆ q.not_full.waiting := by
  cases h with
  | call _ => exact ⟨subset_rfl, subset_rfl⟩
  | ret _ => exact ⟨subset_rfl, subset_rfl⟩
  | push h =>
    cases h with
    | enter h =>
      cases pushSection_cases h with
      | block ho _ => rw [hc] at ho; cases ho
      | _ => exact ⟨subset_rfl, subset_rfl⟩
    | resume _ h =>
      cases pushSection_cases h with
      | block ho _ => rw [show q.closed = false from ho] at hc; cases hc
      | _ => exact ⟨subset_rfl, subset_rfl⟩
    | spurious _ => exact ⟨subset_rfl, Finset.erase_subset _ _⟩
    | notify_one h => exact ⟨h.waiting_subset, subset_rfl⟩
  | pop h =>
    cases h with
    | enter h =>
      cases popSection_cases h with
      | block ho _ => rw [hc] at ho; cases ho
      | _ => exact ⟨subset_rfl, subset_rfl⟩
    | resume _ h =>
      cases popSection_cases h with
      | block ho _ => rw [show q.closed = false from ho] at hc; cases hc
      | _ => exact ⟨subset_rfl, subset_rfl⟩
    | spurious _ => exact ⟨Finset.erase_subset _ _, subset_rfl⟩
    | notify_one h => exact ⟨subset_rfl, h.waiting_subset⟩
  | close h =>
    cases h with
    | enter h => cases closeSection_cases h <;> exact ⟨subset_rfl, subset_rfl⟩
    | notify_empty => exact ⟨Finset.empty_subset _, subset_rfl⟩
    | notify_full => exact ⟨subset_rfl, Finset.empty_subset _⟩
  | drain h =>
    cases h with
    | enter h => cases h; exact ⟨subset_rfl, subset_rfl⟩
    | notify_empty => exact ⟨Finset.empty_subset _, subset_rfl⟩
    | notify_full => exact ⟨subset_rfl, Finset.empty_subset _⟩

/-- Whoever owes a `notify_all` sends it, to `not_empty_` first. -/
theorem Rule.pays (h : Rule capacity t q p l q' p') :
    (p.owesAllEmpty = true → q'.not_empty.waiting = ∅) ∧
      (p.owesAllFull = true → p'.owesAllFull = true ∨ q'.not_full.waiting = ∅) := by
  cases h with
  | call _ => simp
  | ret hres => rcases p with _ | _ | _ | (_ | _ | _ | _) | (_ | _ | _ | _) <;> simp [Place.result] at hres ⊢
  | push h => simp
  | pop h => simp
  | close h => cases h <;> simp
  | drain h => cases h <;> simp

/-- Blocked on `not_empty_` of a closed queue: the step has just closed it, or it was so before and
the step was not the `notify_all` owed. -/
theorem Rule.closed_empty (h : Rule capacity t q p l q' p') (hc' : q'.closed = true)
    (hw' : q'.not_empty.waiting.Nonempty) :
    p'.owesAllEmpty = true ∨
      (q.closed = true ∧ q.not_empty.waiting.Nonempty ∧ p.owesAllEmpty = false) := by
  cases hc : q.closed with
  | false => exact .inl (h.closes hc hc').1
  | true =>
    refine .inr ⟨rfl, hw'.mono (h.waiting_subset hc).1, ?_⟩
    by_contra howes
    exact hw'.ne_empty (h.pays.1 (by simpa using howes))

/-- The same for `not_full_`. -/
theorem Rule.closed_full (h : Rule capacity t q p l q' p') (hc' : q'.closed = true)
    (hw' : q'.not_full.waiting.Nonempty) :
    p'.owesAllFull = true ∨
      (q.closed = true ∧ q.not_full.waiting.Nonempty ∧ p.owesAllFull = false) := by
  cases hc : q.closed with
  | false => exact .inl (h.closes hc hc').2
  | true =>
    by_cases howes : p.owesAllFull = true
    · exact .inl ((h.pays.2 howes).resolve_right hw'.ne_empty)
    · exact .inr ⟨rfl, hw'.mono (h.waiting_subset hc).2, by simpa using howes⟩

end Steps

/-! ## The invariant -/

section Awake

variable [Fintype θ]

/-- Waiters, notifications and what is available, in balance. -/
structure Awake (capacity : ℕ) (c : System T θ) : Prop where
  consumers : CondVar.Disciplined (fun t => (c.pc t).consuming) c.shared.not_empty
  producers : CondVar.Disciplined (fun t => (c.pc t).producing) c.shared.not_full
  supply : c.shared.closed = false → c.shared.not_empty.waiting.Nonempty →
    c.shared.items.length ≤ owedNotEmpty c + c.shared.not_empty.notified.card
  space : c.shared.closed = false → c.shared.not_full.waiting.Nonempty →
    capacity ≤ c.shared.items.length + (owedNotFull c + c.shared.not_full.notified.card)
  closed_empty : c.shared.closed = true → c.shared.not_empty.waiting.Nonempty →
    ∃ t, (c.pc t).owesAllEmpty = true
  closed_full : c.shared.closed = true → c.shared.not_full.waiting.Nonempty →
    ∃ t, (c.pc t).owesAllFull = true

theorem awake_init (capacity : ℕ) : Awake capacity (init (T := T) (θ := θ)) where
  consumers := CondVar.disciplined_idle _
  producers := CondVar.disciplined_idle _
  supply _ hw := by simp [init, empty] at hw
  space _ hw := by simp [init, empty] at hw
  closed_empty hc _ := by simp [init, empty] at hc
  closed_full hc _ := by simp [init, empty] at hc

variable [DecidableEq θ] {capacity : ℕ} {c : System T θ}

omit [Fintype θ] in
theorem exists_update {owes : Place T → Bool} {pc : θ → Place T} {t : θ} {p : Place T}
    (h : owes p = true ∨ ∃ u, owes (pc u) = true ∧ owes (pc t) = false) :
    ∃ u, owes (Function.update pc t p u) = true := by
  rcases h with h | ⟨u, hu, ht⟩
  · exact ⟨t, by simpa using h⟩
  · have hut : u ≠ t := by rintro rfl; rw [hu] at ht; cases ht
    exact ⟨u, by rwa [Function.update_of_ne hut]⟩

theorem Awake.step {t : θ} {l : Label T} {q : BlockingQueue T θ} {p : Place T} (ha : Awake capacity c)
    (h : Rule capacity t c.shared (c.pc t) l q p) : Awake capacity ⟨q, Function.update c.pc t p⟩ where
  consumers := by
    refine CondVar.Move.disciplined (t := t) ?_ ha.consumers fun u hu => by
      simp [Function.update_of_ne hu]
    simpa using h.not_empty_move
  producers := by
    refine CondVar.Move.disciplined (t := t) ?_ ha.producers fun u hu => by
      simp [Function.update_of_ne hu]
    simpa using h.not_full_move
  supply hc hw := by
    -- `rest` is what the other threads owe
    obtain ⟨rest, h1, h2⟩ := sum_split (fun _ => Place.owesNotEmpty (T := T)) c.pc t
    have hs := ha.supply
    rw [owedNotEmpty, h1] at hs
    rw [owedNotEmpty, h2]
    exact h.supply ha.consumers.disjoint rest hs hc hw
  space hc hw := by
    obtain ⟨rest, h1, h2⟩ := sum_split (fun _ => Place.owesNotFull (T := T)) c.pc t
    have hs := ha.space
    rw [owedNotFull, h1] at hs
    rw [owedNotFull, h2]
    exact h.space ha.producers.disjoint rest hs hc hw
  closed_empty hc hw := by
    refine exists_update ((h.closed_empty hc hw).imp_right ?_)
    rintro ⟨hc, hw, ht⟩
    obtain ⟨u, hu⟩ := ha.closed_empty hc hw
    exact ⟨u, hu, ht⟩
  closed_full hc hw := by
    refine exists_update ((h.closed_full hc hw).imp_right ?_)
    rintro ⟨hc, hw, ht⟩
    obtain ⟨u, hu⟩ := ha.closed_full hc hw
    exact ⟨u, hu, ht⟩

theorem awake {log : List (θ × Label T)} (h : Run (rules capacity) init log c) : Awake capacity c :=
  h.preserves (P := Awake capacity) (fun _ _ _ _ _ ha hr => ha.step hr) (awake_init capacity)

/-- Blocked on `not_empty_`, not notified. -/
def BlockedEmpty (c : System T θ) (t : θ) : Prop :=
  (c.pc t).consuming = true ∧ t ∈ c.shared.not_empty.waiting

/-- Blocked on `not_full_`, not notified. -/
def BlockedFull (c : System T θ) (t : θ) : Prop :=
  (c.pc t).producing = true ∧ t ∈ c.shared.not_full.waiting

/-- The consumers notified that have not run since. -/
def notifiedConsumers (c : System T θ) : Finset θ :=
  Finset.univ.filter fun t => (c.pc t).consuming = true ∧ t ∈ c.shared.not_empty.notified

/-- The producers notified that have not run since. -/
def notifiedProducers (c : System T θ) : Finset θ :=
  Finset.univ.filter fun t => (c.pc t).producing = true ∧ t ∈ c.shared.not_full.notified

theorem Awake.notifiedConsumers_eq (ha : Awake capacity c) :
    notifiedConsumers c = c.shared.not_empty.notified := by
  ext t
  rw [notifiedConsumers, Finset.mem_filter]
  exact ⟨fun h => h.2.2, fun h => ⟨Finset.mem_univ t, ha.consumers.notified t h, h⟩⟩

theorem Awake.notifiedProducers_eq (ha : Awake capacity c) :
    notifiedProducers c = c.shared.not_full.notified := by
  ext t
  rw [notifiedProducers, Finset.mem_filter]
  exact ⟨fun h => h.2.2, fun h => ⟨Finset.mem_univ t, ha.producers.notified t h, h⟩⟩

/-- With every thread inside the queue blocked, nothing is owed and nobody is notified. -/
theorem Awake.of_all_blocked (ha : Awake capacity c)
    (hall : ∀ t, c.pc t ≠ .idle → BlockedEmpty c t ∨ BlockedFull c t) :
    owedNotEmpty c = 0 ∧ owedNotFull c = 0 ∧ notifiedConsumers c = ∅ ∧ notifiedProducers c = ∅ ∧
      ∀ t, (c.pc t).owesAllEmpty = false ∧ (c.pc t).owesAllFull = false := by
  -- a thread that is blocked is at one of two places, where it owes nothing
  have hplace : ∀ t, c.pc t = .idle ∨ c.pc t = .pop .waiting ∨ ∃ v, c.pc t = .push (.waiting v) := by
    intro t
    by_cases hi : c.pc t = .idle
    · exact .inl hi
    · rcases hall t hi with ⟨h, -⟩ | ⟨h, -⟩ <;> generalize c.pc t = place at h ⊢ <;>
        rcases place with _ | (_ | _ | _ | _ | _) | (_ | _ | _ | _) | _ | _ <;> simp at h ⊢
  refine ⟨Finset.sum_eq_zero ?_, Finset.sum_eq_zero ?_,
    Finset.filter_eq_empty_iff.mpr ?_, Finset.filter_eq_empty_iff.mpr ?_,
    ?_⟩
  · intro t _
    rcases hplace t with h | h | ⟨v, h⟩ <;> simp [h]
  · intro t _
    rcases hplace t with h | h | ⟨v, h⟩ <;> simp [h]
  · intro t _
    rintro ⟨hcon, hn⟩
    rcases hall t (by intro h; simp [h] at hcon) with ⟨-, hw⟩ | ⟨hp, -⟩
    · exact Finset.disjoint_left.mp ha.consumers.disjoint hw hn
    · rcases hplace t with h | h | ⟨v, h⟩ <;> simp [h] at hcon hp
  · intro t _
    rintro ⟨hpro, hn⟩
    rcases hall t (by intro h; simp [h] at hpro) with ⟨hp, -⟩ | ⟨-, hw⟩
    · rcases hplace t with h | h | ⟨v, h⟩ <;> simp [h] at hpro hp
    · exact Finset.disjoint_left.mp ha.producers.disjoint hw hn
  · intro t
    rcases hplace t with h | h | ⟨v, h⟩ <;> simp [h]

/-- With every thread inside the queue blocked, it is open, with no item for a consumer and no room for a
producer. -/
theorem Awake.open_of_all_blocked (ha : Awake capacity c)
    (hall : ∀ t, c.pc t ≠ .idle → BlockedEmpty c t ∨ BlockedFull c t) :
    (∀ t, BlockedEmpty c t → c.shared.closed = false ∧ c.shared.items = []) ∧
      ∀ t, BlockedFull c t → c.shared.closed = false ∧ capacity ≤ c.shared.items.length := by
  obtain ⟨h1, h2, h3, h4, h5⟩ := ha.of_all_blocked hall
  have hopen : ∀ t, BlockedEmpty c t ∨ BlockedFull c t → c.shared.closed = false := by
    intro t ht
    by_contra hc
    rw [Bool.not_eq_false] at hc
    obtain ⟨u, hu⟩ | ⟨u, hu⟩ := ht.imp (fun h => ha.closed_empty hc ⟨t, h.2⟩) fun h => ha.closed_full hc ⟨t, h.2⟩
    · simp [(h5 u).1] at hu
    · simp [(h5 u).2] at hu
  constructor
  · intro t ht
    have hsupply := ha.supply (hopen t (.inl ht)) ⟨t, ht.2⟩
    rw [h1, ← ha.notifiedConsumers_eq, h3] at hsupply
    exact ⟨hopen t (.inl ht), List.eq_nil_of_length_eq_zero (by simpa using hsupply)⟩
  · intro t ht
    have hspace := ha.space (hopen t (.inr ht)) ⟨t, ht.2⟩
    rw [h2, ← ha.notifiedProducers_eq, h4, Finset.card_empty] at hspace
    exact ⟨hopen t (.inr ht), by omega⟩

/-- **No lost wake-up.**  Open, with a consumer blocked, the items are at most the notifications owed
to `not_empty_` and the notified consumers together; the same for free slots and producers; closed,
with a thread blocked, its variable is still owed a `notify_all`.  Hence, when every thread inside
the queue is blocked, the queue is open and none of them could proceed, so they all wait for the
same thing. -/
theorem no_lost_wakeup (hcap : 0 < capacity) {log : List (θ × Label T)}
    (h : Run (rules capacity) init log c) :
    (c.shared.closed = false → ∀ t, BlockedEmpty c t →
      c.shared.items.length ≤ owedNotEmpty c + (notifiedConsumers c).card) ∧
    (c.shared.closed = false → ∀ t, BlockedFull c t →
      capacity - c.shared.items.length ≤ owedNotFull c + (notifiedProducers c).card) ∧
    (c.shared.closed = true →
      (∀ t, BlockedEmpty c t → ∃ u, (c.pc u).owesAllEmpty = true) ∧
      (∀ t, BlockedFull c t → ∃ u, (c.pc u).owesAllFull = true)) ∧
    ((∀ t, c.pc t ≠ .idle → BlockedEmpty c t ∨ BlockedFull c t) →
      (∀ t, BlockedEmpty c t → c.shared.closed = false ∧ c.shared.items = []) ∧
      (∀ t, BlockedFull c t → c.shared.closed = false ∧ c.shared.items.length = capacity) ∧
      ¬ ((∃ t, BlockedEmpty c t) ∧ ∃ t, BlockedFull c t)) := by
  have ha := awake h
  have hcon : c.shared.closed = false → ∀ t, BlockedEmpty c t →
      c.shared.items.length ≤ owedNotEmpty c + (notifiedConsumers c).card := fun hc t ht => by
    rw [ha.notifiedConsumers_eq]
    exact ha.supply hc ⟨t, ht.2⟩
  have hpro : c.shared.closed = false → ∀ t, BlockedFull c t →
      capacity - c.shared.items.length ≤ owedNotFull c + (notifiedProducers c).card := fun hc t ht => by
    rw [ha.notifiedProducers_eq]
    have := ha.space hc ⟨t, ht.2⟩
    omega
  refine ⟨hcon, hpro, fun hc => ⟨fun t ht => ha.closed_empty hc ⟨t, ht.2⟩,
    fun t ht => ha.closed_full hc ⟨t, ht.2⟩⟩, ?_⟩
  intro hall
  obtain ⟨hempty, hfull⟩ := ha.open_of_all_blocked hall
  have hle := length_le h (by simp [init, empty])
  refine ⟨hempty, fun t ht => ⟨(hfull t ht).1, le_antisymm hle (hfull t ht).2⟩, ?_⟩
  -- no capacity is both used up and unused
  rintro ⟨⟨t, ht⟩, u, hu⟩
  have hlen := (hfull u hu).2
  rw [(hempty t ht).2, List.length_nil] at hlen
  exact absurd hcap (not_lt.mpr hlen)

/-- A schedule for a queue of one: thread 0 fills it and blocks on a second item. -/
def fullSchedule : List (Fin 2 × Move ℕ (Fin 2)) :=
  [(0, .call (.push 7)), (0, .act .lock), (0, .act (.notify none)), (0, .ret), (0, .call (.push 8)),
   (0, .act .lock)]

/-- Its log, and the configuration that it ends in. -/
def fullRun : List (Fin 2 × Label ℕ) × System ℕ (Fin 2) :=
  (play (fun t mv q p => move 1 t q p mv) fullSchedule init).get rfl

/-- The only thread inside the queue is blocked, and there the queue is indeed full. -/
theorem no_lost_wakeup_fullRun :
    BlockedFull fullRun.2 0 ∧ fullRun.2.shared.items.length = 1 := by
  have hblocked : BlockedFull fullRun.2 0 := ⟨rfl, by decide⟩
  refine ⟨hblocked, ?_⟩
  have hrun : Run (rules 1) init fullRun.1 fullRun.2 :=
    play_run (fun _ _ _ _ _ _ _ => move_sound) rfl
  refine (((no_lost_wakeup (by decide) hrun).2.2.2 ?_).2.1 0 hblocked).2
  intro t ht
  fin_cases t
  · exact .inr hblocked
  · exact absurd rfl ht

end Awake

end BlockingQueue

end TaskEngine
