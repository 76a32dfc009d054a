import TaskEngine.Interleaving.Run

/-!
# TaskEngine.Interleaving.Fairness — interleavings that go on for ever

An `Execution` has a configuration at every moment.  Between two moments one thread takes a step, or none
does, so that a run which stops is an execution as well.  It is `Fair` when no thread that could go on from
some moment on is passed over for good.

* `Execution.run`: what is reached at a moment is reached by a run.
* `Ranking`: as long as `P` holds and `Q` is not reached, a rank does not rise, and some thread can take a
  step that lowers it; as long as the rank is the same, that thread can.  `Ranking.leadsTo`: then, fairly,
  `P` leads to `Q`.  `Ranking.own` is the case of one thread that goes its way alone.
* `Run.exists_fair`: a run after which no thread can go on is a fair execution.
-/

namespace Interleaving

variable {θ σ Ev : Type} {Pc : θ → Type}

/-! ## Executions -/

section Executions

variable [DecidableEq θ]

/-- An interleaving from `c₀` that goes on for ever, at each moment by a step or by none. -/
structure Execution (R : Rules σ Ev Pc) (c₀ : Config σ Pc) where
  config : ℕ → Config σ Pc
  label : ℕ → Option (θ × Ev)
  start : config 0 = c₀
  step : ∀ n, (label n).elim (config (n + 1) = config n) fun l => Step R (config n) l (config (n + 1))

variable {R : Rules σ Ev Pc} {c₀ c : Config σ Pc}

/-- The log of an execution up to a moment. -/
def Execution.log (E : Execution R c₀) (n : ℕ) : List (θ × Ev) := (List.range n).filterMap E.label

theorem Execution.log_succ (E : Execution R c₀) (n : ℕ) : E.log (n + 1) = E.log n ++ (E.label n).toList := by
  rw [Execution.log, List.range_succ, List.filterMap_append]
  cases h : E.label n <;> simp [Execution.log, h]

/-- Between two moments nothing happens, or one thread takes a step. -/
theorem Execution.next (E : Execution R c₀) (n : ℕ) : E.config (n + 1) = E.config n ∨
    ∃ t ev m p, R t (E.config n).shared ((E.config n).pc t) ev m p ∧
      E.config (n + 1) = ⟨m, Function.update (E.config n).pc t p⟩ := by
  have hs := E.step n
  cases h : E.label n with
  | none =>
    rw [h] at hs
    exact .inl hs
  | some l =>
    rw [h] at hs
    generalize E.config (n + 1) = c' at hs ⊢
    obtain ⟨hr⟩ := (show Step R (E.config n) l c' from hs)
    exact .inr ⟨_, _, _, _, hr, rfl⟩

theorem Execution.run (E : Execution R c₀) (n : ℕ) : Run R c₀ (E.log n) (E.config n) := by
  induction n with
  | zero =>
    rw [E.start]
    exact .refl
  | succ n ih =>
    have hs := E.step n
    rw [E.log_succ]
    cases h : E.label n with
    | none =>
      rw [h] at hs
      rw [show E.config (n + 1) = E.config n from hs]
      simpa using ih
    | some l =>
      rw [h] at hs
      exact ih.tail hs

theorem Execution.run_later (E : Execution R c₀) {n k : ℕ} (hk : n ≤ k) :
    ∃ log, E.log k = E.log n ++ log ∧ Run R (E.config n) log (E.config k) := by
  induction k, hk using Nat.le_induction with
  | base => exact ⟨[], by simp, .refl⟩
  | succ k _ ih =>
    obtain ⟨log, hlog, hrun⟩ := ih
    have hs := E.step k
    rw [E.log_succ, hlog]
    cases h : E.label k with
    | none =>
      rw [h] at hs
      rw [show E.config (k + 1) = E.config k from hs]
      exact ⟨log, by simp, hrun⟩
    | some l =>
      rw [h] at hs
      exact ⟨log ++ [l], by simp, hrun.tail hs⟩

end Executions

/-! ## Fairness -/

section Fairness

/-- A thread can take a step with an event of the given kind. -/
def Able (R : Rules σ Ev Pc) (must : Ev → Prop) (c : Config σ Pc) (t : θ) : Prop :=
  ∃ ev m p, R t c.shared (c.pc t) ev m p ∧ must ev

variable [DecidableEq θ] {R : Rules σ Ev Pc} {c₀ : Config σ Pc} {must : Ev → Prop}

/-- **Weak fairness**: a thread that from some moment on can always take such a step takes one. -/
def Execution.Fair (E : Execution R c₀) (must : Ev → Prop) : Prop :=
  ∀ t n, (∀ k, n ≤ k → Able R must (E.config k) t) → ∃ k, n ≤ k ∧ ∃ ev, must ev ∧ E.label k = some (t, ev)

/-- How `P` comes to `Q`: no step raises the rank before, and there are threads whose steps lower it, which
can take one as long as the rank stays. -/
structure Ranking (R : Rules σ Ev Pc) (c₀ : Config σ Pc) (must : Ev → Prop) (P Q : Config σ Pc → Prop)
    (α : Type) [PartialOrder α] where
  rank : Config σ Pc → α
  Helps : Config σ Pc → θ → Prop
  helper : ∀ log c, Run R c₀ log c → P c → ∃ t, Helps c t
  able : ∀ log c t, Run R c₀ log c → P c → Helps c t → Able R must c t
  step : ∀ log c t ev m p, Run R c₀ log c → P c → R t c.shared (c.pc t) ev m p →
    Q ⟨m, Function.update c.pc t p⟩ ∨ P ⟨m, Function.update c.pc t p⟩ ∧
      (rank ⟨m, Function.update c.pc t p⟩ < rank c ∨
        rank ⟨m, Function.update c.pc t p⟩ = rank c ∧
          ∀ u, Helps c u → u ≠ t ∧ Helps ⟨m, Function.update c.pc t p⟩ u)

variable {P Q : Config σ Pc → Prop} {α : Type} [PartialOrder α]

/-- **Fair executions make progress**: what has a ranking comes about. -/
theorem Ranking.leadsTo [WellFoundedLT α] (A : Ranking R c₀ must P Q α) {E : Execution R c₀}
    (hfair : E.Fair must) {n : ℕ} (hP : P (E.config n)) : ∃ k, n ≤ k ∧ Q (E.config k) := by
  -- induction on the rank: from wherever it is lower, `Q` comes about
  induction hr : A.rank (E.config n) using WellFoundedLT.induction generalizing n with
  | ind r ih =>
    by_contra hno
    have hnot : ∀ k, n ≤ k → ¬ Q (E.config k) := fun k hk hq => hno ⟨k, hk, hq⟩
    obtain ⟨t, ht⟩ := A.helper _ _ (E.run n) hP
    -- while the rank stays, `t` helps, and it takes no step
    have hnext : ∀ k, n ≤ k → P (E.config k) → A.rank (E.config k) = r → A.Helps (E.config k) t →
        (P (E.config (k + 1)) ∧ A.rank (E.config (k + 1)) = r ∧ A.Helps (E.config (k + 1)) t) ∧
          ∀ ev, E.label k ≠ some (t, ev) := by
      intro k hk hPk hrk htk
      have hs := E.step k
      cases hl : E.label k with
      | none =>
        rw [hl] at hs
        rw [show E.config (k + 1) = E.config k from hs]
        exact ⟨⟨hPk, hrk, htk⟩, by simp⟩
      | some l =>
        rw [hl] at hs
        have hq := hnot (k + 1) (by omega)
        have hlow : P (E.config (k + 1)) → ¬ A.rank (E.config (k + 1)) < r := fun hP' hlt => by
          obtain ⟨j, hj, hQ⟩ := ih _ hlt hP' rfl
          exact hnot j (by omega) hQ
        generalize E.config (k + 1) = c' at hs hq hlow ⊢
        obtain ⟨hrule⟩ := (show Step R (E.config k) l c' from hs)
        rcases A.step _ _ _ _ _ _ (E.run k) hPk hrule with hQ | ⟨hP', hlt | ⟨heq, hhelp⟩⟩
        · exact absurd hQ hq
        · exact absurd (hrk ▸ hlt) (hlow hP')
        · refine ⟨⟨hP', heq.trans hrk, (hhelp t htk).2⟩, ?_⟩
          rintro ev hev
          simp only [Option.some.injEq, Prod.mk.injEq] at hev
          exact (hhelp t htk).1 hev.1.symm
    have hstay : ∀ k, n ≤ k → P (E.config k) ∧ A.rank (E.config k) = r ∧ A.Helps (E.config k) t := by
      intro k hk
      induction k, hk using Nat.le_induction with
      | base => exact ⟨hP, hr, ht⟩
      | succ k hk ih' => exact (hnext k hk ih'.1 ih'.2.1 ih'.2.2).1
    obtain ⟨k, hk, ev, -, hl⟩ := hfair t n fun k hk =>
      A.able _ _ t (E.run k) (hstay k hk).1 (hstay k hk).2.2
    exact (hnext k hk (hstay k hk).1 (hstay k hk).2.1 (hstay k hk).2.2).2 ev hl

/-- One thread that goes its way alone. -/
def Ranking.own (t : θ) (At : Pc t → Prop) (weight : Pc t → α)
    (hable : ∀ log c, Run R c₀ log c → At (c.pc t) → Able R must c t)
    (hown : ∀ log c ev m p, Run R c₀ log c → At (c.pc t) → R t c.shared (c.pc t) ev m p →
      Q ⟨m, Function.update c.pc t p⟩ ∨ At p ∧ weight p < weight (c.pc t)) :
    Ranking R c₀ must (fun c => At (c.pc t)) Q α where
  rank c := weight (c.pc t)
  Helps _ u := u = t
  helper _ _ _ _ := ⟨t, rfl⟩
  able log c u hrun hP hu := hu ▸ hable log c hrun hP
  step log c u ev m p hrun hP hr := by
    by_cases hu : u = t
    · subst hu
      refine (hown log c ev m p hrun hP hr).imp_right fun h => ⟨by simpa using h.1, .inl (by simpa using h.2)⟩
    · refine .inr ⟨?_, .inr ⟨?_, fun v hv => ⟨fun h => hu (h ▸ hv), hv⟩⟩⟩
      · simpa [Function.update_of_ne (Ne.symm hu)] using hP
      · simp [Function.update_of_ne (Ne.symm hu)]

end Fairness

/-! ## Runs that stop -/

section Stopping

variable [DecidableEq θ] {R : Rules σ Ev Pc} {c₀ c : Config σ Pc} {must : Ev → Prop} {log : List (θ × Ev)}

theorem Run.exists_execution (h : Run R c₀ log c) :
    ∃ E : Execution R c₀, E.log log.length = log ∧ ∀ n, log.length ≤ n → E.config n = c := by
  induction h with
  | refl => exact ⟨⟨fun _ => c₀, fun _ => none, rfl, fun _ => rfl⟩, rfl, fun _ _ => rfl⟩
  | @tail log c' c'' l _ hs ih =>
    obtain ⟨E, hlog, hend⟩ := ih
    let E' : Execution R c₀ :=
      { config n := if n ≤ log.length then E.config n else c''
        label n := if n < log.length then E.label n else if n = log.length then some l else none
        start := by simpa using E.start
        step n := by
          rcases lt_trichotomy n log.length with hn | rfl | hn
          · simpa [hn, hn.le, Nat.succ_le_of_lt hn] using E.step n
          · simpa [hend _ le_rfl] using hs
          · simp [hn.not_gt, hn.ne', Nat.not_le.mpr hn, Nat.not_le.mpr (hn.trans (Nat.lt_succ_self n))] }
    have hprefix : E'.log log.length = log := by
      refine Eq.trans (List.filterMap_congr fun n hn => ?_) hlog
      simp [E', List.mem_range.mp hn]
    refine ⟨E', ?_, fun n hn => ?_⟩
    · rw [List.length_append, List.length_singleton, E'.log_succ, hprefix]
      simp [E']
    · rw [List.length_append, List.length_singleton] at hn
      simp [E', Nat.not_le.mpr (Nat.lt_of_succ_le hn)]

/-- **A run to where no thread can go on is a fair execution.** -/
theorem Run.exists_fair (h : Run R c₀ log c) (hstop : ∀ t, ¬ Able R must c t) :
    ∃ E : Execution R c₀, E.Fair must ∧ E.log log.length = log ∧ ∀ n, log.length ≤ n → E.config n = c := by
  obtain ⟨E, hlog, hend⟩ := h.exists_execution
  refine ⟨E, fun t n hable => ?_, hlog, hend⟩
  have := hable (max n log.length) (le_max_left _ _)
  rw [hend _ (le_max_right _ _)] at this
  exact absurd this (hstop t)

end Stopping

end Interleaving
