import TaskEngine.Interleaving.Run

/-!
# TaskEngine.Interleaving.Ledger — conservation laws, measures and projections of interleavings

What holds of one rule of one thread is summed over the threads and over a run.

* `Ledger`: every thread holds something, the memory stores something, and each rule balances what
  its event brings in against what it takes out.  `Ledger.run`: the totals balance over a run.
* `Measure`: a number that every rule lowers bounds the length of every run (`Measure.length_le`).
* `Potential`: a number that every rule lowers, up to what its event is worth, bounds the length of a
  run by the worth of its events (`Potential.length_le`); where the free events suffice to go on until
  a goal, they suffice to reach it (`Potential.reaches`).
* `Projection`: a map of memories, places and events under which each rule is a rule of another
  family or no step at all.  `Projection.run`: runs map to runs.
-/

namespace Interleaving

variable {θ σ Ev : Type} {Pc : θ → Type}

/-! ## Sums over the threads -/

section Sums

variable [DecidableEq θ] [Fintype θ] {M : Type} [AddCommMonoid M]

/-- The sum over the threads, split at one of them: moving it leaves the rest as it is. -/
theorem sum_split (f : (t : θ) → Pc t → M) (pc : (t : θ) → Pc t) (t : θ) :
    ∃ rest, ∑ u, f u (pc u) = f t (pc t) + rest ∧
      ∀ p, ∑ u, f u (Function.update pc t p u) = f t p + rest := by
  refine ⟨∑ u ∈ Finset.univ.erase t, f u (pc u),
    (Finset.add_sum_erase _ _ (Finset.mem_univ t)).symm, ?_⟩
  intro p
  rw [← Finset.add_sum_erase _ _ (Finset.mem_univ t), Function.update_self]
  congr 1
  exact Finset.sum_congr rfl fun u hu => by rw [Function.update_of_ne (Finset.ne_of_mem_erase hu)]

end Sums

/-! ## Ledgers -/

section Ledger

/-- A conservation law: what the threads hold and the memory stores changes, at every rule, by
exactly what the event brings in and takes out. -/
structure Ledger (R : Rules σ Ev Pc) (M : Type) [AddCommMonoid M] where
  hand : (t : θ) → Pc t → M
  store : σ → M
  inflow : Ev → M
  outflow : Ev → M
  balance : ∀ t m p ev m' p', R t m p ev m' p' →
    hand t p' + store m' + outflow ev = hand t p + store m + inflow ev

variable [DecidableEq θ] [Fintype θ] {R : Rules σ Ev Pc} {M : Type} [AddCommMonoid M]

/-- What all threads hold. -/
def Ledger.hands (L : Ledger R M) (c : Config σ Pc) : M := ∑ t, L.hand t (c.pc t)

/-- What the events of a log brought in. -/
def Ledger.income (L : Ledger R M) (log : List (θ × Ev)) : M := (log.map fun l => L.inflow l.2).sum

/-- What the events of a log took out. -/
def Ledger.expense (L : Ledger R M) (log : List (θ × Ev)) : M :=
  (log.map fun l => L.outflow l.2).sum

/-- **The books balance** over every run. -/
theorem Ledger.run (L : Ledger R M) {c c' : Config σ Pc} {log : List (θ × Ev)} (h : Run R c log c') :
    L.hands c' + L.store c'.shared + L.expense log =
      L.hands c + L.store c.shared + L.income log := by
  refine h.induct (I := fun log d => L.hands d + L.store d.shared + L.expense log =
    L.hands c + L.store c.shared + L.income log) (by simp [Ledger.income, Ledger.expense]) ?_
  intro log d t ev m p _ ih hr
  have hb := L.balance _ _ _ _ _ _ hr
  obtain ⟨rest, h1, h2⟩ := sum_split L.hand d.pc t
  simp only [Ledger.hands, Ledger.income, Ledger.expense, List.map_append, List.map_singleton,
    List.sum_append, List.sum_singleton] at ih ⊢
  rw [h2 p]
  calc L.hand t p + rest + L.store m + (L.expense log + L.outflow ev)
      = (L.hand t p + L.store m + L.outflow ev) + rest + L.expense log := by abel
    _ = (L.hand t (d.pc t) + L.store d.shared + L.inflow ev) + rest + L.expense log := by rw [hb]
    _ = (L.hand t (d.pc t) + rest + L.store d.shared + L.expense log) + L.inflow ev := by abel
    _ = _ := by rw [← h1]; exact (congrArg (· + L.inflow ev) ih).trans (add_assoc _ _ _)

end Ledger

/-- The lists that the events of a log carry, added up as multisets. -/
theorem sum_map_coe {β : Type} (f : Ev → List β) (log : List (θ × Ev)) :
    (log.map fun l => (f l.2 : Multiset β)).sum = (collect f log : Multiset β) := by
  induction log with
  | nil => rfl
  | cons l log ih => rw [List.map_cons, List.sum_cons, ih, collect_cons, Multiset.coe_add]

/-! ## Measures -/

section Measure

/-- A number that every rule lowers, as long as the memory is `Good` and the event is `ok`. -/
structure Measure (R : Rules σ Ev Pc) where
  Good : σ → Prop
  ok : Ev → Prop
  weight : (t : θ) → Pc t → ℕ
  store : σ → ℕ
  good : ∀ t m p ev m' p', Good m → R t m p ev m' p' → Good m'
  lower : ∀ t m p ev m' p', Good m → ok ev → R t m p ev m' p' →
    weight t p' + store m' < weight t p + store m

variable [DecidableEq θ] [Fintype θ] {R : Rules σ Ev Pc}

/-- The measure of a configuration. -/
def Measure.total (μ : Measure R) (c : Config σ Pc) : ℕ :=
  ∑ t, μ.weight t (c.pc t) + μ.store c.shared

theorem Measure.step (μ : Measure R) {c c' : Config σ Pc} {l : θ × Ev} (hg : μ.Good c.shared)
    (hok : μ.ok l.2) (h : Step R c l c') : μ.total c' < μ.total c := by
  cases h with
  | mk hr =>
    have hl := μ.lower _ _ _ _ _ _ hg hok hr
    obtain ⟨rest, h1, h2⟩ := sum_split μ.weight c.pc ‹_›
    simp only [Measure.total, h1, h2]
    omega

/-- **Runs end**: a run is no longer than the measure it starts with. -/
theorem Measure.length_le (μ : Measure R) {c c' : Config σ Pc} {log : List (θ × Ev)}
    (h : Run R c log c') (hg : μ.Good c.shared) (hok : ∀ l ∈ log, μ.ok l.2) :
    log.length + μ.total c' ≤ μ.total c := by
  induction h with
  | refl => simp
  | tail h hs ih =>
    have hg' := h.preserves (P := fun d => μ.Good d.shared)
      (fun _ _ _ _ _ hd hr => μ.good _ _ _ _ _ _ hd hr) hg
    have := μ.step hg' (hok _ (by simp)) hs
    have := ih fun l hl => hok l (by simp [hl])
    simp only [List.length_append, List.length_singleton]
    omega

end Measure

/-! ## Potentials -/

section Potential

/-- A number that every rule lowers, up to the cost of its event. -/
structure Potential (R : Rules σ Ev Pc) where
  weight : (t : θ) → Pc t → ℕ
  store : σ → ℕ
  cost : Ev → ℕ
  spend : ∀ t m p ev m' p', R t m p ev m' p' →
    weight t p' + store m' < weight t p + store m + cost ev

variable [DecidableEq θ] [Fintype θ] {R : Rules σ Ev Pc}

/-- The potential of a configuration. -/
def Potential.total (Φ : Potential R) (c : Config σ Pc) : ℕ :=
  ∑ t, Φ.weight t (c.pc t) + Φ.store c.shared

/-- What the events of a log are worth. -/
def Potential.costs (Φ : Potential R) (log : List (θ × Ev)) : ℕ := (log.map fun l => Φ.cost l.2).sum

theorem Potential.step (Φ : Potential R) {c c' : Config σ Pc} {l : θ × Ev} (h : Step R c l c') :
    Φ.total c' < Φ.total c + Φ.cost l.2 := by
  cases h with
  | mk hr =>
    have hs := Φ.spend _ _ _ _ _ _ hr
    obtain ⟨rest, h1, h2⟩ := sum_split Φ.weight c.pc ‹_›
    simp only [Potential.total, h1, h2]
    omega

/-- **Runs end**, unless their events keep paying for them. -/
theorem Potential.length_le (Φ : Potential R) {c c' : Config σ Pc} {log : List (θ × Ev)}
    (h : Run R c log c') : log.length + Φ.total c' ≤ Φ.total c + Φ.costs log := by
  induction h with
  | refl => simp [Potential.costs]
  | tail _ hs ih =>
    have := Φ.step hs
    simp only [Potential.costs, List.length_append, List.length_singleton, List.map_append,
      List.map_singleton, List.sum_append, List.sum_singleton] at ih ⊢
    omega

/-- Where a free step can be taken until the goal, the goal can be reached by free steps. -/
theorem Potential.reaches (Φ : Potential R) {c₀ : Config σ Pc} {Goal : Config σ Pc → Prop}
    (hgo : ∀ log c, Run R c₀ log c → ¬ Goal c → ∃ l c', Step R c l c' ∧ Φ.cost l.2 = 0)
    {log : List (θ × Ev)} {c : Config σ Pc} (h : Run R c₀ log c) :
    ∃ log' c', Run R c log' c' ∧ (∀ l ∈ log', Φ.cost l.2 = 0) ∧ Goal c' := by
  have hlower : ∀ d, (∃ log, Run R c₀ log d) → ¬ Goal d →
      ∃ l d', Step R d l d' ∧ Φ.cost l.2 = 0 ∧ (∃ log, Run R c₀ log d') ∧ Φ.total d' < Φ.total d := by
    rintro d ⟨log, hd⟩ hgoal
    obtain ⟨l, d', hs, hl⟩ := hgo log d hd hgoal
    have hlt := Φ.step hs
    exact ⟨l, d', hs, hl, ⟨_, hd.tail hs⟩, by omega⟩
  obtain ⟨log', c', hrun, hfree, -, hgoal⟩ :=
    Run.reaches Φ.total (P := fun l => Φ.cost l.2 = 0) hlower ⟨log, h⟩
  exact ⟨log', c', hrun, hfree, hgoal⟩

end Potential

/-! ## Projections -/

section Projection

variable {σ' Ev' : Type} {Pc' : θ → Type}

/-- A view of the threads as threads of another family of rules: each rule is seen as a rule with
the event seen, or, when its event is not seen, as no change. -/
structure Projection (R : Rules σ Ev Pc) (R' : Rules σ' Ev' Pc') where
  mem : σ → σ'
  place : (t : θ) → Pc t → Pc' t
  event : Ev → Option Ev'
  seen : ∀ t m p ev m' p' ev', R t m p ev m' p' → event ev = some ev' →
    R' t (mem m) (place t p) ev' (mem m') (place t p')
  unseen : ∀ t m p ev m' p', R t m p ev m' p' → event ev = none →
    mem m' = mem m ∧ place t p' = place t p

variable {R : Rules σ Ev Pc} {R' : Rules σ' Ev' Pc'}

/-- The configuration as it is seen. -/
def Projection.config (π : Projection R R') (c : Config σ Pc) : Config σ' Pc' :=
  ⟨π.mem c.shared, fun t => π.place t (c.pc t)⟩

/-- The log as it is seen. -/
def Projection.log (π : Projection R R') (log : List (θ × Ev)) : List (θ × Ev') :=
  log.filterMap fun l => (π.event l.2).map (Prod.mk l.1)

@[simp] theorem Projection.log_nil (π : Projection R R') : π.log [] = [] := rfl

@[simp] theorem Projection.log_append (π : Projection R R') (l₁ l₂ : List (θ × Ev)) :
    π.log (l₁ ++ l₂) = π.log l₁ ++ π.log l₂ := by
  simp [Projection.log]

theorem Projection.collect_log (π : Projection R R') {β : Type} {f : Ev → List β} {f' : Ev' → List β}
    (hf : ∀ ev, f ev = (π.event ev).elim [] f') (log : List (θ × Ev)) :
    collect f' (π.log log) = collect f log := by
  induction log with
  | nil => rfl
  | cons l log ih =>
    rw [collect_cons, ← ih, hf, ← List.singleton_append, π.log_append, collect_append]
    congr 1
    cases h : π.event l.2 <;> simp [Projection.log, h]

variable [DecidableEq θ]

theorem Projection.config_update (π : Projection R R') (c : Config σ Pc) (t : θ) (m : σ) (p : Pc t) :
    π.config ⟨m, Function.update c.pc t p⟩ =
      ⟨π.mem m, Function.update (π.config c).pc t (π.place t p)⟩ := by
  simp only [Projection.config, Config.mk.injEq, true_and]
  funext u
  by_cases hu : u = t
  · subst hu; simp
  · simp [Function.update_of_ne hu]

/-- **Refinement**: what is seen of a run is a run. -/
theorem Projection.run (π : Projection R R') {c c' : Config σ Pc} {log : List (θ × Ev)}
    (h : Run R c log c') : Run R' (π.config c) (π.log log) (π.config c') := by
  apply h.induct (I := fun log d => Run R' (π.config c) (π.log log) (π.config d)) .refl
  intro log d t ev m p _ ih hr
  rw [π.config_update, π.log_append]
  cases hev : π.event ev with
  | none =>
    obtain ⟨hm, hp⟩ := π.unseen _ _ _ _ _ _ hr hev
    have hsame : (⟨π.mem m, Function.update (π.config d).pc t (π.place t p)⟩ : Config σ' Pc') =
        π.config d := by
      rw [hm, hp]
      exact congrArg (Config.mk _) (Function.update_eq_self t (π.config d).pc)
    simpa [Projection.log, hev, hsame] using ih
  | some ev' =>
    have hr' := π.seen _ _ _ _ _ _ _ hr hev
    have : π.log [(t, ev)] = [(t, ev')] := by simp [Projection.log, hev]
    rw [this]
    exact ih.tail (.mk hr')

end Projection

end Interleaving
