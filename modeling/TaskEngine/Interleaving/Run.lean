import Mathlib.Data.Fintype.BigOperators
import Mathlib.Data.Multiset.Bind
import Mathlib.Tactic

/-!
# TaskEngine.Interleaving.Run — threads that interleave over one shared memory

A thread has a place of its own (`Pc t`) and a rule for the atomic steps it can take there; a step
reads and writes the shared memory `σ`, moves only its own thread, and leaves an event.  `Run` is
any finite interleaving of such steps, with the log of the events in their order.  Nothing here
knows what the threads do.

* `Run.trans`, `Run.split`: runs compose and decompose along their logs.
* `Run.induct`: an invariant of the log and the configuration, from one step.
* `Run.hands_on`: what one thread gets and gives in its steps (`stepsOf`), in their order.
* `play`: a schedule given by actions is computed, and what it computes is a run (`play_sound`).
-/

namespace Interleaving

variable {θ σ Ev : Type} {Pc : θ → Type}

/-! ## Definitions -/

section Defs

/-- The shared memory and the place of every thread. -/
structure Config (σ : Type) {θ : Type} (Pc : θ → Type) where
  shared : σ
  pc : (t : θ) → Pc t

/-- The atomic steps of each thread: from the memory and its own place, with an event, to a new
memory and a new place. -/
abbrev Rules (σ Ev : Type) {θ : Type} (Pc : θ → Type) :=
  (t : θ) → σ → Pc t → Ev → σ → Pc t → Prop

/-- One step of one thread; the others stay where they are. -/
inductive Step [DecidableEq θ] (R : Rules σ Ev Pc) (c : Config σ Pc) : θ × Ev → Config σ Pc → Prop
  | mk {t : θ} {ev : Ev} {m : σ} {p : Pc t} (h : R t c.shared (c.pc t) ev m p) :
      Step R c (t, ev) ⟨m, Function.update c.pc t p⟩

/-- A finite interleaving from `c`, with the log of its events. -/
inductive Run [DecidableEq θ] (R : Rules σ Ev Pc) (c : Config σ Pc) : List (θ × Ev) → Config σ Pc → Prop
  | refl : Run R c [] c
  | tail {log : List (θ × Ev)} {c' c'' : Config σ Pc} {l : θ × Ev} (h : Run R c log c')
      (hs : Step R c' l c'') : Run R c (log ++ [l]) c''

/-- The lists that the events of a log carry, in the order of the log. -/
def collect {β : Type} (f : Ev → List β) (log : List (θ × Ev)) : List β := log.flatMap fun l => f l.2

end Defs

section Collect

variable {β : Type} (f : Ev → List β)

@[simp] theorem collect_nil : collect f ([] : List (θ × Ev)) = [] := rfl

@[simp] theorem collect_append (l₁ l₂ : List (θ × Ev)) :
    collect f (l₁ ++ l₂) = collect f l₁ ++ collect f l₂ := List.flatMap_append

@[simp] theorem collect_cons (l : θ × Ev) (log : List (θ × Ev)) :
    collect f (l :: log) = f l.2 ++ collect f log := List.flatMap_cons

theorem map_collect {γ : Type} (g : β → γ) (log : List (θ × Ev)) :
    (collect f log).map g = collect (fun ev => (f ev).map g) log := List.map_flatMap

theorem mem_collect {log : List (θ × Ev)} {b : β} : b ∈ collect f log ↔ ∃ l ∈ log, b ∈ f l.2 :=
  List.mem_flatMap

/-- The steps of one thread. -/
def stepsOf [DecidableEq θ] (t : θ) (log : List (θ × Ev)) : List (θ × Ev) := log.filter fun l => l.1 = t

variable [DecidableEq θ]

theorem collect_stepsOf_self (t : θ) (log : List (θ × Ev)) (ev : Ev) :
    collect f (stepsOf t (log ++ [(t, ev)])) = collect f (stepsOf t log) ++ f ev := by
  simp [stepsOf]

theorem collect_stepsOf_other {t u : θ} (hu : u ≠ t) (log : List (θ × Ev)) (ev : Ev) :
    collect f (stepsOf t (log ++ [(u, ev)])) = collect f (stepsOf t log) := by
  simp [stepsOf, hu]

end Collect

/-! ## Composing and decomposing runs -/

section Runs

variable [DecidableEq θ] {R : Rules σ Ev Pc} {c c' c'' : Config σ Pc}

theorem Run.single {l : θ × Ev} (h : Step R c l c') : Run R c [l] c' := Run.refl.tail h

theorem Run.trans {l₁ l₂ : List (θ × Ev)} (h₁ : Run R c l₁ c') (h₂ : Run R c' l₂ c'') :
    Run R c (l₁ ++ l₂) c'' := by
  induction h₂ with
  | refl => simpa using h₁
  | tail _ hs ih => rw [← List.append_assoc]; exact ih.tail hs

theorem Run.nil_inv (h : Run R c [] c') : c' = c := by
  generalize hl : ([] : List (θ × Ev)) = log at h
  cases h with
  | refl => rfl
  | tail _ _ => simp at hl

theorem Run.concat_inv {log : List (θ × Ev)} {l : θ × Ev} (h : Run R c (log ++ [l]) c'') :
    ∃ c', Run R c log c' ∧ Step R c' l c'' := by
  generalize hl : log ++ [l] = log' at h
  cases h with
  | refl => simp at hl
  | tail h hs =>
    obtain ⟨rfl, hl'⟩ := List.append_inj' hl rfl
    simp only [List.cons.injEq, and_true] at hl'
    subst hl'
    exact ⟨_, h, hs⟩

theorem Run.split {l₁ l₂ : List (θ × Ev)} (h : Run R c (l₁ ++ l₂) c'') :
    ∃ c', Run R c l₁ c' ∧ Run R c' l₂ c'' := by
  induction l₂ using List.reverseRecOn generalizing c'' with
  | nil => exact ⟨c'', by simpa using h, .refl⟩
  | append_singleton l₂ l ih =>
    rw [← List.append_assoc] at h
    obtain ⟨d, hd, hs⟩ := h.concat_inv
    obtain ⟨d', h₁, h₂⟩ := ih hd
    exact ⟨d', h₁, h₂.tail hs⟩

/-- A run whose log has the event `l` in the middle passes through a step with that event. -/
theorem Run.split_at {l₁ l₂ : List (θ × Ev)} {l : θ × Ev} (h : Run R c (l₁ ++ l :: l₂) c'') :
    ∃ d d', Run R c l₁ d ∧ Step R d l d' ∧ Run R d' l₂ c'' := by
  rw [show l₁ ++ l :: l₂ = l₁ ++ [l] ++ l₂ by simp] at h
  obtain ⟨d', h', h₂⟩ := h.split
  obtain ⟨d, h₁, hs⟩ := h'.concat_inv
  exact ⟨d, d', h₁, hs, h₂⟩

theorem Run.induct {I : List (θ × Ev) → Config σ Pc → Prop} (h0 : I [] c)
    (hstep : ∀ log d t ev m p, Run R c log d → I log d → R t d.shared (d.pc t) ev m p →
      I (log ++ [(t, ev)]) ⟨m, Function.update d.pc t p⟩)
    {log : List (θ × Ev)} (h : Run R c log c') : I log c' := by
  induction h with
  | refl => exact h0
  | tail h hs ih =>
    cases hs with
    | mk hr => exact hstep _ _ _ _ _ _ h ih hr

theorem Run.preserves {P : Config σ Pc → Prop}
    (hstep : ∀ d t ev m p, P d → R t d.shared (d.pc t) ev m p → P ⟨m, Function.update d.pc t p⟩)
    {log : List (θ × Ev)} (h : Run R c log c') (hc : P c) : P c' :=
  h.induct (I := fun _ d => P d) hc fun _ _ _ _ _ _ _ hd hr => hstep _ _ _ _ _ hd hr

/-- A run of rules that allow less is one of rules that allow more, as far as the run goes. -/
theorem Run.mono {R' : Rules σ Ev Pc} {log : List (θ × Ev)} (h : Run R c log c')
    (hle : ∀ log d t ev m p, Run R c log d → R t d.shared (d.pc t) ev m p →
      R' t d.shared (d.pc t) ev m p) : Run R' c log c' :=
  h.induct (I := fun log d => Run R' c log d) .refl
    fun _ _ _ _ _ _ hrun ih hr => ih.tail (.mk (hle _ _ _ _ _ _ hrun hr))

/-- Every event of the log was left by a rule of its thread. -/
theorem Run.event {log : List (θ × Ev)} (h : Run R c log c') :
    ∀ l ∈ log, ∃ m p m' p', R l.1 m p l.2 m' p' := by
  apply h.induct (I := fun log _ => ∀ l ∈ log, ∃ m p m' p', R l.1 m p l.2 m' p') (by simp)
  intro log d t ev m p _ ih hr l hl
  rcases List.mem_append.mp hl with hl | hl
  · exact ih l hl
  · obtain rfl := List.mem_singleton.mp hl
    exact ⟨_, _, _, _, hr⟩

/-- **A thread hands on what it gets**, in that order: what its events bring in is what they give back,
then what it still holds. -/
theorem Run.hands_on {β : Type} {t : θ} {gets gives : Ev → List β} {hand : Pc t → List β}
    (hstep : ∀ m p ev m' p', R t m p ev m' p' → gives ev ++ hand p' = hand p ++ gets ev)
    {log : List (θ × Ev)} (h : Run R c log c') :
    hand (c.pc t) ++ collect gets (stepsOf t log) = collect gives (stepsOf t log) ++ hand (c'.pc t) := by
  refine h.induct (I := fun log d => hand (c.pc t) ++ collect gets (stepsOf t log) =
    collect gives (stepsOf t log) ++ hand (d.pc t)) (by simp [stepsOf]) ?_
  intro log d u ev m p _ ih hr
  by_cases hu : u = t
  · subst hu
    dsimp only
    rw [collect_stepsOf_self, collect_stepsOf_self, Function.update_self, ← List.append_assoc, ih,
      List.append_assoc, List.append_assoc, hstep _ _ _ _ _ hr]
  · dsimp only
    rw [collect_stepsOf_other _ hu, collect_stepsOf_other _ hu, Function.update_of_ne (Ne.symm hu), ih]

/-- Where a step that lowers `f` can be taken until the goal, the goal can be reached by such steps. -/
theorem Run.reaches (f : Config σ Pc → ℕ) {I G : Config σ Pc → Prop} {P : θ × Ev → Prop}
    (hgo : ∀ c, I c → ¬ G c → ∃ l c', Step R c l c' ∧ P l ∧ I c' ∧ f c' < f c) (hc : I c) :
    ∃ log c', Run R c log c' ∧ (∀ l ∈ log, P l) ∧ I c' ∧ G c' := by
  induction hn : f c using Nat.strong_induction_on generalizing c with
  | h n ih =>
    by_cases hg : G c
    · exact ⟨[], c, .refl, by simp, hc, hg⟩
    · obtain ⟨l, d, hs, hl, hd, hlt⟩ := hgo c hc hg
      obtain ⟨log, c', hrun, hlog, hinv, hgoal⟩ := ih (f d) (hn ▸ hlt) hd rfl
      refine ⟨[l] ++ log, c', (Run.single hs).trans hrun, ?_, hinv, hgoal⟩
      intro l' hl'
      rcases List.mem_append.mp hl' with hl' | hl'
      · rwa [List.mem_singleton.mp hl']
      · exact hlog l' hl'

theorem Run.stuck {log : List (θ × Ev)} (h : Run R c log c') (hno : ∀ l d, ¬ Step R c l d) : log = [] := by
  induction h with
  | refl => rfl
  | tail h hs ih =>
    subst ih
    rw [h.nil_inv] at hs
    exact absurd hs (hno _ _)

end Runs

/-! ## Computing runs -/

/-! The threads of a schedule are numerals of a small `Fin`; with an instance of its own for each size
they elaborate to the same terms everywhere. -/

instance (priority := high) neZero_one : NeZero 1 := ⟨Nat.one_ne_zero⟩

instance (priority := high) neZero_two : NeZero 2 := ⟨Nat.succ_ne_zero 1⟩

instance (priority := high) neZero_three : NeZero 3 := ⟨Nat.succ_ne_zero 2⟩

section Play

variable [DecidableEq θ] {Act : Type}

/-- Runs a schedule: the listed threads act in turn, and the result is their log and the
configuration reached, or `none` when one of the actions cannot be taken. -/
def play (act : (t : θ) → Act → σ → Pc t → Option (Ev × σ × Pc t)) :
    List (θ × Act) → Config σ Pc → Option (List (θ × Ev) × Config σ Pc)
  | [], c => some ([], c)
  | (t, a) :: rest, c =>
    match act t a c.shared (c.pc t) with
    | none => none
    | some (ev, m, p) =>
      match play act rest ⟨m, Function.update c.pc t p⟩ with
      | none => none
      | some (log, c') => some ((t, ev) :: log, c')

variable {R : Rules σ Ev Pc} {act : (t : θ) → Act → σ → Pc t → Option (Ev × σ × Pc t)}

theorem play_sound (hact : ∀ t a m p ev m' p', act t a m p = some (ev, m', p') → R t m p ev m' p') :
    ∀ (sched : List (θ × Act)) {c c' : Config σ Pc} {log : List (θ × Ev)},
      play act sched c = some (log, c') → Run R c log c'
  | [], c, c', log, h => by
    simp only [play, Option.some.injEq, Prod.mk.injEq] at h
    obtain ⟨rfl, rfl⟩ := h
    exact .refl
  | (t, a) :: rest, c, c', log, h => by
    simp only [play] at h
    cases ha : act t a c.shared (c.pc t) with
    | none => simp [ha] at h
    | some r =>
      obtain ⟨ev, m, p⟩ := r
      simp only [ha] at h
      cases hp : play act rest ⟨m, Function.update c.pc t p⟩ with
      | none => simp [hp] at h
      | some q =>
        obtain ⟨log', d⟩ := q
        simp only [hp, Option.some.injEq, Prod.mk.injEq] at h
        obtain ⟨rfl, rfl⟩ := h
        exact (Run.single (.mk (hact _ _ _ _ _ _ _ ha))).trans (play_sound hact rest hp)

theorem play_run (hact : ∀ t a m p ev m' p', act t a m p = some (ev, m', p') → R t m p ev m' p')
    {sched : List (θ × Act)} {c : Config σ Pc} (h : (play act sched c).isSome) :
    Run R c ((play act sched c).get h).1 ((play act sched c).get h).2 :=
  play_sound hact sched (Option.some_get h).symm

end Play

end Interleaving
