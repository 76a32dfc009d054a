import TaskEngine.Queue.WakeUp

/-!
# TaskEngine.Queue.Progress — where a call of the queue can go on

A thread inside `push` or `pop` that is not blocked can go on up to its return, and so can one inside
`close` or `close_and_drain`.  So where nothing goes on but by new calls and spurious wake-ups, every
thread inside the queue is blocked (`blocked_of_stuck`).
-/

namespace TaskEngine

open Interleaving

namespace BlockingQueue

variable {T θ : Type} [DecidableEq θ] {t : θ} {q q' : BlockingQueue T θ} {ev : Event T}

section Enabled

theorem pushSection_ne_spurious {capacity : ℕ} {value : T} :
    (pushSection capacity t q value).1 ≠ .spurious := by
  rcases h : pushSection capacity t q value with ⟨ev, q', p⟩
  cases pushSection_cases h <;> simp

theorem popSection_ne_spurious : (popSection t q).1 ≠ .spurious := by
  rcases h : popSection t q with ⟨ev, q', p⟩
  cases popSection_cases h <;> simp

omit [DecidableEq θ] in
theorem closeSection_ne_spurious : (closeSection q).1 ≠ .spurious := by
  rcases h : closeSection q with ⟨ev, q', p⟩
  cases closeSection_cases h <;> simp

/-- Inside `push` a thread that is not blocked can go on, up to the return. -/
theorem PushRule.enabled (capacity : ℕ) {p : PushPc T} (hw : t ∉ q.not_full.waiting) :
    (∃ ev q' p', PushRule capacity t q p ev q' p' ∧ ev ≠ .spurious) ∨
      (∃ value, p = .done value) ∨ ∃ value, p = .refused value := by
  cases p with
  | enter value => exact .inl ⟨_, _, _, .enter rfl, pushSection_ne_spurious⟩
  | waiting value => exact .inl ⟨_, _, _, .resume hw rfl, pushSection_ne_spurious⟩
  | notifying value =>
    obtain ⟨cv, hcv⟩ := q.not_empty.exists_notifyOne
    exact .inl ⟨_, _, _, .notify_one hcv, by simp⟩
  | done value => exact .inr (.inl ⟨value, rfl⟩)
  | refused value => exact .inr (.inr ⟨value, rfl⟩)

/-- Inside `pop` a thread that is not blocked can go on, up to the return. -/
theorem PopRule.enabled {p : PopPc T} (hw : t ∉ q.not_empty.waiting) :
    (∃ ev q' p', PopRule t q p ev q' p' ∧ ev ≠ .spurious) ∨ ∃ item, p = .done item := by
  cases p with
  | enter => exact .inl ⟨_, _, _, .enter rfl, popSection_ne_spurious⟩
  | waiting => exact .inl ⟨_, _, _, .resume hw rfl, popSection_ne_spurious⟩
  | notifying item =>
    obtain ⟨cv, hcv⟩ := q.not_full.exists_notifyOne
    exact .inl ⟨_, _, _, .notify_one hcv, by simp⟩
  | done item => exact .inr ⟨item, rfl⟩

theorem CloseRule.enabled (p : ClosePc) :
    (∃ ev q' p', CloseRule q p ev q' p' ∧ ev ≠ .spurious) ∨ p = .done := by
  cases p with
  | enter => exact .inl ⟨_, _, _, .enter rfl, closeSection_ne_spurious⟩
  | notifyingEmpty => exact .inl ⟨_, _, _, .notify_empty, by simp⟩
  | notifyingFull => exact .inl ⟨_, _, _, .notify_full, by simp⟩
  | done => exact .inr rfl

theorem DrainRule.enabled (p : DrainPc T) :
    (∃ ev q' p', DrainRule q p ev q' p' ∧ ev ≠ .spurious) ∨ ∃ drained, p = .done drained := by
  cases p with
  | enter => exact .inl ⟨_, _, _, .enter rfl, by simp⟩
  | notifyingEmpty drained => exact .inl ⟨_, _, _, .notify_empty, by simp⟩
  | notifyingFull drained => exact .inl ⟨_, _, _, .notify_full, by simp⟩
  | done drained => exact .inr ⟨drained, rfl⟩

end Enabled

/-! ## Stuck queues -/

section Stuck

/-- A call goes on or returns. -/
def Label.goes : Label T → Bool
  | .call _ | .act .spurious => false
  | _ => true

theorem goes_act (h : ev ≠ .spurious) : (Label.act ev).goes = true := by
  cases ev <;> first | rfl | exact absurd rfl h

/-- Where no call goes on, those in progress are blocked. -/
theorem blocked_of_stuck {capacity : ℕ} {c : System T θ}
    (hstuck : ∀ l c', Step (rules capacity) c l c' → l.2.goes = false) (hne : c.pc t ≠ .idle) :
    BlockedEmpty c t ∨ BlockedFull c t := by
  have hno : ∀ {l m p}, Rule capacity t c.shared (c.pc t) l m p → l.goes = false := fun hr =>
    hstuck (t, _) _ (.mk (R := rules capacity) hr)
  -- all that a thread could do is wake up spuriously
  have hact : ∀ {ev m p}, Rule capacity t c.shared (c.pc t) (.act ev) m p → ev = .spurious := fun hr => by
    by_contra hev
    have := hno hr
    rw [goes_act hev] at this
    cases this
  have hret : (c.pc t).result = none := by
    by_contra hres
    obtain ⟨res, hres⟩ := Option.ne_none_iff_exists'.mp hres
    cases hno (.ret hres)
  unfold BlockedEmpty BlockedFull
  generalize c.pc t = place at hne hact hret ⊢
  cases place with
  | idle => exact absurd rfl hne
  | push p =>
    cases p with
    | enter value => exact absurd (hact (.push (.enter rfl))) pushSection_ne_spurious
    | waiting value =>
      refine .inr ⟨rfl, ?_⟩
      by_contra hw
      exact pushSection_ne_spurious (hact (.push (.resume hw rfl)))
    | notifying value =>
      obtain ⟨cv, hcv⟩ := c.shared.not_empty.exists_notifyOne
      cases hact (.push (.notify_one hcv))
    | done value => cases hret
    | refused value => cases hret
  | pop p =>
    cases p with
    | enter => exact absurd (hact (.pop (.enter rfl))) popSection_ne_spurious
    | waiting =>
      refine .inl ⟨rfl, ?_⟩
      by_contra hw
      exact popSection_ne_spurious (hact (.pop (.resume hw rfl)))
    | notifying item =>
      obtain ⟨cv, hcv⟩ := c.shared.not_full.exists_notifyOne
      cases hact (.pop (.notify_one hcv))
    | done item => cases hret
  | close p =>
    rcases CloseRule.enabled (q := c.shared) p with ⟨ev, q, p', hr, hev⟩ | rfl
    · exact absurd (hact (.close hr)) hev
    · cases hret
  | drain p =>
    rcases DrainRule.enabled (q := c.shared) p with ⟨ev, q, p', hr, hev⟩ | ⟨drained, rfl⟩
    · exact absurd (hact (.drain hr)) hev
    · cases hret

end Stuck

end BlockingQueue

end TaskEngine
