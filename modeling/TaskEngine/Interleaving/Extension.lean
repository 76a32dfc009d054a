import TaskEngine.Interleaving.Ledger
import TaskEngine.Interleaving.Outline

/-!
# TaskEngine.Interleaving.Extension — further steps, and conditions on the steps of a run

`Rules.extend` adds steps of another kind to a family of rules, such as faults.  A run without them is
a run of the family (`Run.base`), and a proof outline or a measure carries over once the further steps
meet it too (`Outline.extend`, `Measure.extend`).  `Rules.guard` stops all steps where the memory does
not allow any.  `RunWith` is a run all of whose steps meet a condition on the configuration before the
step and on its event.
-/

namespace Interleaving

variable {θ σ Ev Ev' : Type} {Pc : θ → Type}

/-! ## Further steps -/

section Extend

/-- A step of `R`, or a further one. -/
inductive Extended (R : Rules σ Ev Pc) (F : Rules σ Ev' Pc) (t : θ) (m : σ) (p : Pc t) :
    Ev ⊕ Ev' → σ → Pc t → Prop
  | base {ev m' p'} (h : R t m p ev m' p') : Extended R F t m p (.inl ev) m' p'
  | further {ev m' p'} (h : F t m p ev m' p') : Extended R F t m p (.inr ev) m' p'

/-- The rules with further steps. -/
def Rules.extend (R : Rules σ Ev Pc) (F : Rules σ Ev' Pc) : Rules σ (Ev ⊕ Ev') Pc := Extended R F

/-- The steps of the family itself in a log. -/
def baseLog (log : List (θ × (Ev ⊕ Ev'))) : List (θ × Ev) :=
  log.filterMap fun l => l.2.getLeft?.map (Prod.mk l.1)

@[simp] theorem baseLog_nil : baseLog ([] : List (θ × (Ev ⊕ Ev'))) = [] := rfl

@[simp] theorem baseLog_append (l₁ l₂ : List (θ × (Ev ⊕ Ev'))) :
    baseLog (l₁ ++ l₂) = baseLog l₁ ++ baseLog l₂ := List.filterMap_append

@[simp] theorem baseLog_base (t : θ) (ev : Ev) :
    baseLog [((t, .inl ev) : θ × (Ev ⊕ Ev'))] = [(t, ev)] := rfl

@[simp] theorem baseLog_further (t : θ) (ev : Ev') :
    baseLog [((t, .inr ev) : θ × (Ev ⊕ Ev'))] = [] := rfl

theorem mem_baseLog {log : List (θ × (Ev ⊕ Ev'))} {t : θ} {ev : Ev} :
    (t, ev) ∈ baseLog log ↔ (t, .inl ev) ∈ log := by
  simp only [baseLog, List.mem_filterMap, Option.map_eq_some_iff, Prod.mk.injEq]
  constructor
  · rintro ⟨⟨u, ev' | ev'⟩, hl, a, ha, rfl, rfl⟩
    · cases ha
      exact hl
    · cases ha
  · exact fun hl => ⟨_, hl, ev, rfl, rfl, rfl⟩

variable [DecidableEq θ] {R : Rules σ Ev Pc} {F : Rules σ Ev' Pc} {c c' : Config σ Pc}

/-- **Without further steps** a run is one of the family. -/
theorem Run.base {log : List (θ × (Ev ⊕ Ev'))} (h : Run (R.extend F) c log c')
    (hbase : ∀ l ∈ log, l.2.isLeft = true) : Run R c (baseLog log) c' := by
  revert hbase
  refine h.induct (I := fun log d => (∀ l ∈ log, l.2.isLeft = true) → Run R c (baseLog log) d)
    (fun _ => .refl) ?_
  intro log d t ev m p _ ih hr hbase
  have hd := ih fun l hl => hbase l (List.mem_append_left _ hl)
  cases (hr : Extended R F _ _ _ _ _ _) with
  | base h =>
    rw [baseLog_append, baseLog_base]
    exact hd.tail (.mk h)
  | further h => exact absurd (hbase _ (List.mem_append_right _ (List.mem_singleton.mpr rfl))) (by simp)

/-- A run of the family is one without further steps. -/
theorem Run.extended {log : List (θ × Ev)} (h : Run R c log c') :
    Run (R.extend F) c (log.map fun l => (l.1, .inl l.2)) c' := by
  apply h.induct (I := fun log d => Run (R.extend F) c (log.map fun l => (l.1, .inl l.2)) d) .refl
  intro log d t ev m p _ ih hr
  rw [List.map_append]
  exact ih.tail (.mk (Extended.base hr))

omit [DecidableEq θ] in
/-- Further steps that change nothing are not seen by the family. -/
def Rules.forget (hF : ∀ t m p ev m' p', F t m p ev m' p' → m' = m ∧ p' = p) : Projection (R.extend F) R where
  mem := id
  place _ := id
  event := Sum.getLeft?
  seen t m p ev m' p' ev' h he := by
    cases (h : Extended R F _ _ _ _ _ _) with
    | base h => cases he; exact h
    | further h => cases he
  unseen t m p ev m' p' h he := by
    cases (h : Extended R F _ _ _ _ _ _) with
    | base h => cases he
    | further h => exact hF _ _ _ _ _ _ h

/-- Assertions that the further steps re-establish and preserve as well. -/
def Outline.extend (O : Outline R)
    (own : ∀ log t m p ev m' p', O.Global log m → O.At t p log m → F t m p ev m' p' →
      O.Global log m' ∧ O.At t p' log m')
    (others : ∀ log t m p ev m' p', O.Global log m → O.At t p log m → F t m p ev m' p' →
      ∀ u q, u ≠ t → O.At u q log m → O.At u q log m') : Outline (R.extend F) where
  Global log m := O.Global (baseLog log) m
  At t p log m := O.At t p (baseLog log) m
  own log t m p ev m' p' hg hat h := by
    rw [baseLog_append]
    cases (h : Extended R F _ _ _ _ _ _) with
    | base h => exact O.own _ _ _ _ _ _ _ hg hat h
    | further h => simpa using own _ _ _ _ _ _ _ hg hat h
  others log t m p ev m' p' hg hat h u q hu hq := by
    rw [baseLog_append]
    cases (h : Extended R F _ _ _ _ _ _) with
    | base h => exact O.others _ _ _ _ _ _ _ hg hat h u q hu hq
    | further h => simpa using others _ _ _ _ _ _ _ hg hat h u q hu hq

/-- A measure that the further steps lower as well. -/
def Measure.extend (μ : Measure R)
    (good : ∀ t m p ev m' p', μ.Good m → F t m p ev m' p' → μ.Good m')
    (lower : ∀ t m p ev m' p', μ.Good m → F t m p ev m' p' →
      μ.weight t p' + μ.store m' < μ.weight t p + μ.store m) : Measure (R.extend F) where
  Good := μ.Good
  ok ev := ∀ ev', ev.getLeft? = some ev' → μ.ok ev'
  weight := μ.weight
  store := μ.store
  good t m p ev m' p' hg h := by
    cases (h : Extended R F _ _ _ _ _ _) with
    | base h => exact μ.good _ _ _ _ _ _ hg h
    | further h => exact good _ _ _ _ _ _ hg h
  lower t m p ev m' p' hg hok h := by
    cases (h : Extended R F _ _ _ _ _ _) with
    | base h => exact μ.lower _ _ _ _ _ _ hg (hok _ rfl) h
    | further h => exact lower _ _ _ _ _ _ hg h

/-- The choices of the family, and the one to take a further step. -/
def extendAct {Act : Type} (act : (t : θ) → Act → σ → Pc t → Option (Ev × σ × Pc t))
    (further : (t : θ) → σ → Pc t → Option (Ev' × σ × Pc t)) (t : θ) :
    Option Act → σ → Pc t → Option ((Ev ⊕ Ev') × σ × Pc t)
  | some a, m, p => (act t a m p).map fun r => (.inl r.1, r.2.1, r.2.2)
  | none, m, p => (further t m p).map fun r => (.inr r.1, r.2.1, r.2.2)

omit [DecidableEq θ] in
theorem extendAct_sound {Act : Type} {act : (t : θ) → Act → σ → Pc t → Option (Ev × σ × Pc t)}
    {further : (t : θ) → σ → Pc t → Option (Ev' × σ × Pc t)}
    (hact : ∀ t a m p ev m' p', act t a m p = some (ev, m', p') → R t m p ev m' p')
    (hfurther : ∀ t m p ev m' p', further t m p = some (ev, m', p') → F t m p ev m' p') :
    ∀ t a m p ev m' p', extendAct act further t a m p = some (ev, m', p') →
      R.extend F t m p ev m' p' := by
  intro t a m p ev m' p' h
  cases a with
  | some a =>
    obtain ⟨r, hr, he⟩ := Option.map_eq_some_iff.mp h
    cases he
    exact .base (hact _ _ _ _ _ _ _ hr)
  | none =>
    obtain ⟨r, hr, he⟩ := Option.map_eq_some_iff.mp h
    cases he
    exact .further (hfurther _ _ _ _ _ _ hr)

end Extend

/-! ## Guards -/

/-- The rules where the memory allows any step at all. -/
def Rules.guard (R : Rules σ Ev Pc) (ok : σ → Prop) : Rules σ Ev Pc :=
  fun t m p ev m' p' => ok m ∧ R t m p ev m' p'

/-- The choices where the memory allows any. -/
def guardAct {Act : Type} (act : (t : θ) → Act → σ → Pc t → Option (Ev × σ × Pc t)) (ok : σ → Prop)
    [DecidablePred ok] (t : θ) (a : Act) (m : σ) (p : Pc t) : Option (Ev × σ × Pc t) :=
  if ok m then act t a m p else none

section Conditions

/-- A run whose steps all meet a condition. -/
inductive RunWith [DecidableEq θ] (R : Rules σ Ev Pc) (P : Config σ Pc → θ × Ev → Prop)
    (c : Config σ Pc) : List (θ × Ev) → Config σ Pc → Prop
  | refl : RunWith R P c [] c
  | tail {log : List (θ × Ev)} {c' c'' : Config σ Pc} {l : θ × Ev} (h : RunWith R P c log c')
      (hp : P c' l) (hs : Step R c' l c'') : RunWith R P c (log ++ [l]) c''

variable [DecidableEq θ] {R : Rules σ Ev Pc} {P : Config σ Pc → θ × Ev → Prop} {c c' : Config σ Pc}

theorem RunWith.run {log : List (θ × Ev)} (h : RunWith R P c log c') : Run R c log c' := by
  induction h with
  | refl => exact .refl
  | tail _ _ hs ih => exact ih.tail hs

/-- Such a run goes on with events that meet the condition wherever they occur. -/
theorem RunWith.append {l₁ l₂ : List (θ × Ev)} {c'' : Config σ Pc} (h : RunWith R P c l₁ c')
    (h' : Run R c' l₂ c'') (hp : ∀ l ∈ l₂, ∀ d, P d l) : RunWith R P c (l₁ ++ l₂) c'' := by
  induction h' with
  | refl => simpa using h
  | tail _ hs ih =>
    rw [← List.append_assoc]
    exact (ih fun l hl => hp l (by simp [hl])).tail (hp _ (by simp) _) hs

theorem Run.runWith {log : List (θ × Ev)} (h : Run R c log c') (hp : ∀ l ∈ log, ∀ d, P d l) :
    RunWith R P c log c' := RunWith.refl.append h hp

theorem RunWith.induct {I : List (θ × Ev) → Config σ Pc → Prop} (h0 : I [] c)
    (hstep : ∀ log d t ev m p, Run R c log d → I log d → P d (t, ev) → R t d.shared (d.pc t) ev m p →
      I (log ++ [(t, ev)]) ⟨m, Function.update d.pc t p⟩)
    {log : List (θ × Ev)} (h : RunWith R P c log c') : I log c' := by
  induction h with
  | refl => exact h0
  | tail h hp hs ih =>
    cases hs with
    | mk hr => exact hstep _ _ _ _ _ _ h.run ih hp hr

end Conditions

end Interleaving
