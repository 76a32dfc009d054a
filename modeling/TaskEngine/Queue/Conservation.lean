import TaskEngine.Queue.Fifo

/-!
# TaskEngine.Queue.Conservation — nothing is lost, duplicated or reordered

The abstract facts of `Fifo` read back on `BlockingQueue` (`conservation`, `length_le`,
`closed_stable`, `exhausted`); what the calls of a thread return for what its steps insert and remove
(`settled`); and two facts about single calls: what a refused `push` did while it ran (`refused_call`),
and when `pop` is about to return `std::nullopt` (`exhausted_of_nullopt`).  `conservation_and_order`
puts them together.
-/

namespace TaskEngine

open Interleaving

namespace BlockingQueue

variable {T θ : Type}

/-! ## Histories -/

section Histories

def Label.pushed : Label T → List T
  | .act ev => ev.pushed
  | _ => []

def Label.popped : Label T → List T
  | .act ev => ev.popped
  | _ => []

def Label.drained : Label T → List T
  | .act ev => ev.drained
  | _ => []

attribute [simp] Label.pushed.eq_1 Label.pushed.eq_2 Label.popped.eq_1 Label.popped.eq_2
  Label.drained.eq_1 Label.drained.eq_2

/-- The items whose push succeeded, in the order of their insertion. -/
abbrev pushed (log : List (θ × Label T)) : List T := collect Label.pushed log

/-- The items that `pop` removed, in the order of their removal. -/
abbrev popped (log : List (θ × Label T)) : List T := collect Label.popped log

/-- The items that `close_and_drain` removed. -/
abbrev drained (log : List (θ × Label T)) : List T := collect Label.drained log

/-- The arguments of the calls of `push`. -/
def Label.offered : Label T → List T
  | .call (.push value) => [value]
  | _ => []

/-- What the calls of `push` returned. -/
def Label.answered : Label T → List Bool
  | .ret (.push accepted) => [accepted]
  | _ => []

/-- The items that the calls of `pop` returned. -/
def Label.received : Label T → List T
  | .ret (.pop item) => item.toList
  | _ => []

/-- The items that the calls of `close_and_drain` returned. -/
def Label.handed_over : Label T → List T
  | .ret (.close_and_drain drained) => drained
  | _ => []

attribute [simp] Label.offered.eq_1 Label.offered.eq_2 Label.answered.eq_1 Label.answered.eq_2
  Label.received.eq_1 Label.received.eq_2 Label.handed_over.eq_1 Label.handed_over.eq_2

end Histories

/-! ## What a call under way has done -/

section Places

/-- The argument of `push`, moved from or not. -/
def PushPc.value : PushPc T → T
  | .enter value | .waiting value | .notifying value | .done value | .refused value => value

/-- The insertion has been made. -/
def PushPc.committed : PushPc T → Bool
  | .notifying _ | .done _ => true
  | _ => false

attribute [simp] PushPc.value.eq_1 PushPc.value.eq_2 PushPc.value.eq_3 PushPc.value.eq_4
  PushPc.value.eq_5 PushPc.committed.eq_1 PushPc.committed.eq_2 PushPc.committed.eq_3

/-- The argument of a `push` under way. -/
def Place.offering : Place T → List T
  | .push p => [p.value]
  | _ => []

/-- What a `push` under way has inserted. -/
def Place.inserted : Place T → List T
  | .push p => if p.committed then [p.value] else []
  | _ => []

/-- What a `pop` under way has removed and will return. -/
def Place.taken : Place T → List T
  | .pop (.notifying item) => [item]
  | .pop (.done item) => item.toList
  | _ => []

/-- What a `close_and_drain` under way has removed and will return. -/
def Place.flushed : Place T → List T
  | .drain (.notifyingEmpty drained) | .drain (.notifyingFull drained) | .drain (.done drained) => drained
  | _ => []

attribute [simp] Place.offering.eq_1 Place.offering.eq_2 Place.inserted.eq_1 Place.inserted.eq_2
  Place.taken.eq_1 Place.taken.eq_2 Place.taken.eq_3 Place.flushed.eq_1 Place.flushed.eq_2
  Place.flushed.eq_3 Place.flushed.eq_4

variable [DecidableEq θ]

/-- What thread `t` inserted and removed is what its calls returned it for, but for the call under way:
each `push` that returned `true` inserted its argument, and no other did; each `pop` and each
`close_and_drain` returned what it removed, or is about to. -/
structure Settled (t : θ) (log : List (θ × Label T)) (p : Place T) : Prop where
  pushes : ∃ calls : List (T × Bool),
    collect Label.offered (stepsOf t log) = calls.map Prod.fst ++ p.offering ∧
    collect Label.answered (stepsOf t log) = calls.map Prod.snd ∧
    pushed (stepsOf t log) = (calls.filter Prod.snd).map Prod.fst ++ p.inserted
  pops : popped (stepsOf t log) = collect Label.received (stepsOf t log) ++ p.taken
  drains : drained (stepsOf t log) = collect Label.handed_over (stepsOf t log) ++ p.flushed

end Places

variable [DecidableEq θ] {capacity : ℕ} {c c' : System T θ}
  {log : List (θ × Label T)}

theorem puts_log (log : List (θ × Label T)) : Fifo.puts ((toFifo capacity).log log) = pushed log :=
  (toFifo capacity).collect_log (fun l => by rcases l with _ | (_ | _) | _ <;> rfl) log

theorem takes_log (log : List (θ × Label T)) :
    Fifo.takes ((toFifo capacity).log log) = popped log :=
  (toFifo capacity).collect_log (fun l => by rcases l with _ | (_ | _) | _ <;> rfl) log

theorem flushes_log (log : List (θ × Label T)) :
    Fifo.flushes ((toFifo capacity).log log) = drained log :=
  (toFifo capacity).collect_log (fun l => by rcases l with _ | (_ | _) | _ <;> rfl) log

/-! ## What the abstract queue says -/

section Abstract

theorem conservation (h : Run (rules capacity) c log c') :
    popped log ++ drained log ++ c'.shared.items = c.shared.items ++ pushed log := by
  have := Fifo.conservation ((toFifo capacity).run h)
  rwa [takes_log, flushes_log, puts_log] at this

theorem length_le (h : Run (rules capacity) c log c') (hc : c.shared.items.length ≤ capacity) :
    c'.shared.items.length ≤ capacity :=
  Fifo.length_le ((toFifo capacity).run h) hc

theorem drained_le (h : Run (rules capacity) c log c') (hc : c.shared.items.length ≤ capacity) :
    c'.shared.items.length + (drained log).length ≤ capacity := by
  have := Fifo.flushed_le ((toFifo capacity).run h) hc
  rwa [flushes_log] at this

theorem closed_stable (h : Run (rules capacity) c log c') (hc : c.shared.closed = true) :
    c'.shared.closed = true ∧ pushed log = [] := by
  have := Fifo.closed_stable ((toFifo capacity).run h) hc
  rwa [puts_log] at this

theorem exhausted (h : Run (rules capacity) c log c') (hc : c.shared.closed = true)
    (hi : c.shared.items = []) :
    c'.shared.closed = true ∧ c'.shared.items = [] ∧ popped log = [] ∧ drained log = [] := by
  have := Fifo.exhausted ((toFifo capacity).run h) (by simp [Projection.config, toFifo, hc, hi])
  rw [takes_log, flushes_log] at this
  obtain ⟨hs, hp, hd⟩ := this
  simp only [Projection.config, toFifo, Fifo.mk.injEq] at hs
  exact ⟨hs.2, hs.1, hp, hd⟩

end Abstract

/-! ## What the calls return -/

section Returns

/-- What a step does to the accounts of its thread.  Only the return of a `push` adds to the calls of
`push` that have returned. -/
theorem Rule.settles {t : θ} {q q' : BlockingQueue T θ} {place place' : Place T} {l : Label T}
    (h : Rule capacity t q place l q' place') :
    (∃ calls : List (T × Bool), place.offering ++ l.offered = calls.map Prod.fst ++ place'.offering ∧
      l.answered = calls.map Prod.snd ∧
      place.inserted ++ l.pushed = (calls.filter Prod.snd).map Prod.fst ++ place'.inserted) ∧
    l.received ++ place'.taken = place.taken ++ l.popped ∧
    l.handed_over ++ place'.flushed = place.flushed ++ l.drained := by
  cases h with
  | call op =>
    refine ⟨⟨[], ?_⟩, ?_⟩
    all_goals cases op <;> simp [Op.start]
  | push h =>
    refine ⟨⟨[], ?_⟩, ?_⟩
    all_goals
      cases h with
      | enter h => cases pushSection_cases h <;> simp
      | resume _ h => cases pushSection_cases h <;> simp
      | _ => simp
  | pop h =>
    refine ⟨⟨[], ?_⟩, ?_⟩
    all_goals
      cases h with
      | enter h => cases popSection_cases h <;> simp
      | resume _ h => cases popSection_cases h <;> simp
      | _ => simp
  | close h =>
    refine ⟨⟨[], ?_⟩, ?_⟩
    all_goals
      cases h with
      | enter h => cases closeSection_cases h <;> simp
      | _ => simp
  | drain h =>
    refine ⟨⟨[], ?_⟩, ?_⟩
    all_goals
      cases h with
      | enter h => cases h; simp
      | _ => simp
  -- the return hands out what the critical section has left with the thread
  | ret hres =>
    cases place with
    | idle => cases hres
    | push p =>
      cases p with
      | done value => cases hres; exact ⟨⟨[(value, true)], by simp⟩, by simp⟩
      | refused value => cases hres; exact ⟨⟨[(value, false)], by simp⟩, by simp⟩
      | _ => cases hres
    | pop p => cases p <;> cases hres; exact ⟨⟨[], by simp⟩, by simp⟩
    | close p => cases p <;> cases hres; exact ⟨⟨[], by simp⟩, by simp⟩
    | drain p => cases p <;> cases hres; exact ⟨⟨[], by simp⟩, by simp⟩

/-- The accounts of every thread are settled, but for its call under way. -/
theorem settled (h : Run (rules capacity) init log c) (t : θ) : Settled t log (c.pc t) := by
  refine ⟨?_, ?_, ?_⟩
  · refine h.induct (I := fun log d => ∃ calls : List (T × Bool),
      collect Label.offered (stepsOf t log) = calls.map Prod.fst ++ (d.pc t).offering ∧
      collect Label.answered (stepsOf t log) = calls.map Prod.snd ∧
      pushed (stepsOf t log) = (calls.filter Prod.snd).map Prod.fst ++ (d.pc t).inserted) ⟨[], rfl, rfl, rfl⟩ ?_
    rintro log d u l m place - ⟨calls, hoffered, hanswered, hpushed⟩ hr
    by_cases hu : u = t
    · subst hu
      obtain ⟨⟨more, ho, ha, hp⟩, -⟩ := Rule.settles hr
      dsimp only
      rw [Function.update_self]
      refine ⟨calls ++ more, ?_, ?_, ?_⟩
      · rw [collect_stepsOf_self, hoffered, List.append_assoc, ho]
        simp
      · rw [collect_stepsOf_self, hanswered, ha, List.map_append]
      · rw [pushed, collect_stepsOf_self, ← pushed, hpushed, List.append_assoc, hp]
        simp
    · refine ⟨calls, ?_⟩
      dsimp only
      rw [Function.update_of_ne (Ne.symm hu), collect_stepsOf_other _ hu, collect_stepsOf_other _ hu, pushed,
        collect_stepsOf_other _ hu]
      exact ⟨hoffered, hanswered, hpushed⟩
  · exact h.hands_on fun _ _ _ _ _ hr => (Rule.settles hr).2.1
  · exact h.hands_on fun _ _ _ _ _ hr => (Rule.settles hr).2.2

end Returns

/-! ## Single calls -/

section Calls

/-- No call of `t` starts or returns in the log. -/
def InCall (t : θ) (log : List (θ × Label T)) : Prop := ∀ l ∈ log, l.1 = t → ∃ ev, l.2 = .act ev

/-- A step of `push` keeps the argument, cannot undo the insertion, and touches `items_` and
`closed_` only to make it. -/
theorem PushRule.effect {t : θ} {q q' : BlockingQueue T θ} {p p' : PushPc T} {ev : Event T}
    (h : PushRule capacity t q p ev q' p') :
    p'.value = p.value ∧ (p.committed = true → p'.committed = true) ∧
      (p'.committed = false →
        (Label.act ev).pushed = [] ∧ q'.items = q.items ∧ q'.closed = q.closed) := by
  cases h with
  | enter h => cases pushSection_cases h <;> simp
  | resume _ h => cases pushSection_cases h <;> simp
  | spurious _ => simp
  | notify_one _ => simp

/-- A thread inside `push` stays there, with its argument, until its call returns. -/
theorem push_stays {t : θ} {p : PushPc T} (h : Run (rules capacity) c log c') (hin : InCall t log)
    (hp : c.pc t = .push p) :
    ∃ p', c'.pc t = .push p' ∧ p'.value = p.value ∧ (p.committed = true → p'.committed = true) := by
  revert hin
  refine h.induct (I := fun log d => InCall t log →
    ∃ p', d.pc t = .push p' ∧ p'.value = p.value ∧ (p.committed = true → p'.committed = true))
    (fun _ => ⟨p, hp, rfl, id⟩) ?_
  intro log d u l m place _ ih hr hin
  obtain ⟨p', hd, hv, hcom⟩ := ih fun l hl => hin l (by simp [hl])
  by_cases hu : u = t
  · subst hu
    obtain ⟨ev, rfl⟩ := hin (u, l) (by simp) rfl
    rw [hd] at hr
    cases (hr : Rule capacity u _ _ _ _ _) with
    | @push _ _ _ p'' h =>
      obtain ⟨hv', hcom', -⟩ := h.effect
      exact ⟨p'', by simp, hv'.trans hv, hcom' ∘ hcom⟩
  · exact ⟨p', by simpa [Function.update_of_ne (Ne.symm hu)] using hd, hv, hcom⟩

/-- **A refused push**: the argument comes back as it was, and none of the steps of the call
inserted anything or changed `items_` or `closed_`. -/
theorem refused_call {t : θ} {value value' : T} (h : Run (rules capacity) c log c')
    (hin : InCall t log) (hp : c.pc t = .push (.enter value)) (hp' : c'.pc t = .push (.refused value')) :
    value' = value ∧ ∀ l₁ l l₂ d d', log = l₁ ++ (t, l) :: l₂ → Run (rules capacity) c l₁ d →
      Step (rules capacity) d (t, l) d' → Run (rules capacity) d' l₂ c' →
      l.pushed = [] ∧ d'.shared.items = d.shared.items ∧ d'.shared.closed = d.shared.closed := by
  constructor
  · obtain ⟨p', h1, h2, -⟩ := push_stays h hin hp
    rw [hp'] at h1
    obtain rfl : PushPc.refused value' = p' := Place.push.inj h1
    exact h2
  · rintro l₁ l l₂ d d' rfl h₁ hs h₂
    obtain ⟨p, hd, -, -⟩ := push_stays h₁ (fun l hl => hin l (by simp [hl])) hp
    obtain ⟨ev, rfl⟩ := hin (t, l) (by simp) rfl
    cases hs with
    | @mk _ _ m p' hr =>
      rw [hd] at hr
      cases (hr : Rule capacity t _ _ _ _ _) with
      | @push _ _ _ p'' hpush =>
        obtain ⟨-, -, hun⟩ := hpush.effect
        -- had the step inserted, the call could not be refused later on
        refine hun ?_
        by_contra hcom
        obtain ⟨p', h1, -, h3⟩ := push_stays (p := p'') h₂ (fun l hl => hin l (by simp [hl])) (by simp)
        rw [hp'] at h1
        obtain rfl : PushPc.refused value' = p' := Place.push.inj h1
        exact absurd (h3 (by simpa using hcom)) (by simp)

/-- When `pop` is about to return `std::nullopt`, the queue is closed and empty. -/
theorem exhausted_of_nullopt (h : Run (rules capacity) init log c) {t : θ}
    (hp : c.pc t = .pop (.done none)) : c.shared.closed = true ∧ c.shared.items = [] := by
  revert t
  refine h.induct (I := fun _ d => ∀ {t : θ}, d.pc t = .pop (.done none) →
    d.shared.closed = true ∧ d.shared.items = []) (by simp [init]) ?_
  intro log d u l m place hrun ih hr t hp
  -- the thread has just found the queue exhausted, or it stays so
  by_cases hu : t = u
  · subst hu
    simp only [Function.update_self] at hp
    generalize d.pc t = old at hr
    cases (hr : Rule capacity t _ _ _ _ _) with
    | call op => cases op <;> simp [Op.start] at hp
    | pop h =>
      cases h with
      | enter h => cases popSection_cases h <;> simp_all
      | resume _ h => cases popSection_cases h <;> simp_all
      | spurious _ => simp at hp
      | notify_one _ => simp at hp
    | push _ => simp at hp
    | close _ => simp at hp
    | drain _ => simp at hp
    | ret _ => simp at hp
  · simp only [Function.update_of_ne hu] at hp
    obtain ⟨hc, hi⟩ := ih hp
    obtain ⟨hc', hi', -⟩ := exhausted (.single (.mk hr)) hc hi
    exact ⟨hc', hi'⟩

end Calls

/-! ## The contract of the queue -/

/-- **Conservation and order.**  In every reachable configuration: the items popped, in the order of
their removal, then the items drained, then the items still queued, are the items pushed, in the
order of their insertion; each call returns what its steps removed, and `true` for what they inserted;
the bound holds; closing is final; a refused push changes nothing; and `pop` returns `std::nullopt` only
when the queue is closed and empty, and then for good. -/
theorem conservation_and_order (capacity : ℕ) {log : List (θ × Label T)}
    {c : System T θ} (h : Run (rules capacity) init log c) :
    popped log ++ drained log ++ c.shared.items = pushed log ∧
    (∀ t, Settled t log (c.pc t)) ∧
    c.shared.items.length ≤ capacity ∧
    (c.shared.closed = true → ∀ log' c', Run (rules capacity) c log' c' →
      c'.shared.closed = true ∧ pushed log' = []) ∧
    (∀ t value value' log' c', c.pc t = .push (.enter value) → Run (rules capacity) c log' c' →
      InCall t log' → c'.pc t = .push (.refused value') →
      value' = value ∧ ∀ l₁ l l₂ d d', log' = l₁ ++ (t, l) :: l₂ → Run (rules capacity) c l₁ d →
        Step (rules capacity) d (t, l) d' → Run (rules capacity) d' l₂ c' →
        l.pushed = [] ∧ d'.shared.items = d.shared.items ∧ d'.shared.closed = d.shared.closed) ∧
    (∀ t, c.pc t = .pop (.done none) → c.shared.closed = true ∧ c.shared.items = [] ∧
      ∀ log' c', Run (rules capacity) c log' c' → popped log' = [] ∧ drained log' = []) := by
  refine ⟨by simpa [init, empty] using conservation h, settled h, length_le h (by simp [init, empty]),
    fun hc log' c' h' => closed_stable h' hc, fun t value value' log' c' hp h' hin hp' =>
      refused_call h' hin hp hp', ?_⟩
  intro t hp
  obtain ⟨hc, hi⟩ := exhausted_of_nullopt h hp
  refine ⟨hc, hi, ?_⟩
  intro log' c' h'
  obtain ⟨-, -, hpop, hdrain⟩ := exhausted h' hc hi
  exact ⟨hpop, hdrain⟩

/-- A schedule for a queue of one: thread 0 pushes an item and blocks on a second one, thread 1 pops
the first, so that the second goes in and thread 0 blocks on a third; then thread 1 closes and drains. -/
def abortSchedule : List (Fin 2 × Move ℕ (Fin 2)) :=
  [(0, .call (.push 7)), (0, .act .lock), (0, .act (.notify none)), (0, .ret), (0, .call (.push 8)),
   (0, .act .lock), (1, .call .pop), (1, .act .lock), (1, .act (.notify (some 0))), (1, .ret),
   (0, .act .lock), (0, .act (.notify none)), (0, .ret), (0, .call (.push 9)), (0, .act .lock),
   (1, .call .close_and_drain), (1, .act .lock), (1, .act (.notify none)), (1, .act (.notify none)),
   (1, .ret), (0, .act .lock)]

/-- Its log, and the configuration that it ends in. -/
def abortRun : List (Fin 2 × Label ℕ) × System ℕ (Fin 2) :=
  (play (fun t mv q p => move 1 t q p mv) abortSchedule init).get rfl

theorem abortRun_run : Run (rules 1) init abortRun.1 abortRun.2 :=
  play_run (fun _ _ _ _ _ _ _ => move_sound) rfl

/-- One item is popped and one drained, and each is returned; the third is refused. -/
theorem conservation_and_order_abortRun :
    popped abortRun.1 ++ drained abortRun.1 ++ abortRun.2.shared.items = pushed abortRun.1 ∧
      pushed abortRun.1 = [7, 8] ∧ abortRun.2.pc 0 = .push (.refused 9) ∧
      popped (stepsOf 1 abortRun.1) = [7] ∧ drained (stepsOf 1 abortRun.1) = [8] := by
  obtain ⟨hitems, hsettled, -⟩ := conservation_and_order 1 abortRun_run
  exact ⟨hitems, rfl, rfl, (hsettled 1).pops, (hsettled 1).drains⟩

end BlockingQueue

end TaskEngine
