import TaskEngine.Interleaving.Linearizability

/-!
# TaskEngine.Interleaving.Refinement — interleavings that carry out a sequential object

A `Refinement` sees every configuration as a state of a sequential object, and every step as no change of
that state or as one operation, with its answer.  `Refinement.legal`: the operations of a run are a
sequence that the object allows.

The other way round, `Solo` is what one thread does while the others stand still, and `Solo.run` the run
that this makes; a sequence that the object allows is carried out by one thread alone for each operation
(`Legal.realize`).
-/

namespace Interleaving

variable {θ σ Ev S Op Res : Type} {Pc : θ → Type}

/-! ## Refinements -/

section Refine

variable [DecidableEq θ]

/-- A view of the configurations as states of an object, and of the events as its operations. -/
structure Refinement (R : Rules σ Ev Pc) (c₀ : Config σ Pc) (O : SeqObject S Op Res) where
  state : Config σ Pc → S
  operation : Ev → Option (Op × Res)
  initial : state c₀ = O.initial
  step : ∀ log c t ev m p, Run R c₀ log c → R t c.shared (c.pc t) ev m p →
    (operation ev).elim (state ⟨m, Function.update c.pc t p⟩ = state c) fun o =>
      O.Perform (state c) o.1 o.2 (state ⟨m, Function.update c.pc t p⟩)

/-- The operations in a log. -/
def operations (operation : Ev → Option (Op × Res)) (log : List (θ × Ev)) : List (Op × Res) :=
  log.filterMap fun l => operation l.2

section Operations

omit [DecidableEq θ]

variable (operation : Ev → Option (Op × Res))

@[simp] theorem operations_nil : operations operation ([] : List (θ × Ev)) = [] := rfl

@[simp] theorem operations_append (l₁ l₂ : List (θ × Ev)) :
    operations operation (l₁ ++ l₂) = operations operation l₁ ++ operations operation l₂ :=
  List.filterMap_append

theorem operations_singleton (l : θ × Ev) : operations operation [l] = (operation l.2).toList := by
  cases h : operation l.2 <;> simp [operations, h]

end Operations

variable {R : Rules σ Ev Pc} {c₀ c : Config σ Pc} {O : SeqObject S Op Res} {log : List (θ × Ev)}

/-- **The operations of a run are a legal sequence** of the object. -/
theorem Refinement.legal (A : Refinement R c₀ O) (h : Run R c₀ log c) :
    O.Legal O.initial (operations A.operation log) (A.state c) := by
  refine h.induct (I := fun log d => O.Legal O.initial (operations A.operation log) (A.state d)) ?_ ?_
  · rw [A.initial]
    exact .nil
  · intro log d t ev m p hrun ih hr
    have hs := A.step log d t ev m p hrun hr
    rw [operations_append, operations_singleton]
    cases ho : A.operation ev with
    | none =>
      rw [ho] at hs
      rw [show A.state ⟨m, Function.update d.pc t p⟩ = A.state d from hs]
      simpa using ih
    | some o =>
      rw [ho] at hs
      exact ih.snoc hs

end Refine

/-! ## Threads that run alone -/

section Alone

/-- What a thread does while the others stand still, with its events. -/
inductive Solo (R : Rules σ Ev Pc) (t : θ) : σ → Pc t → List Ev → σ → Pc t → Prop
  | nil {m : σ} {p : Pc t} : Solo R t m p [] m p
  | cons {m m' m'' : σ} {p p' p'' : Pc t} {ev : Ev} {evs : List Ev} (h : R t m p ev m' p')
      (hs : Solo R t m' p' evs m'' p'') : Solo R t m p (ev :: evs) m'' p''

variable [DecidableEq θ] {R : Rules σ Ev Pc} {c c₀ : Config σ Pc} {O : SeqObject S Op Res}

theorem Solo.run {t : θ} {m : σ} {p : Pc t} {evs : List Ev} (h : Solo R t c.shared (c.pc t) evs m p) :
    Run R c (evs.map (Prod.mk t)) ⟨m, Function.update c.pc t p⟩ := by
  generalize hm : c.shared = m₀ at h
  generalize hp : c.pc t = p₀ at h
  induction h generalizing c with
  | nil =>
    subst hm hp
    rw [Function.update_eq_self]
    exact .refl
  | @cons m₀ m' m'' p₀ p' p'' ev evs h _ ih =>
    subst hm hp
    have hrest := ih (c := ⟨m', Function.update c.pc t p'⟩) rfl (Function.update_self _ _ _)
    rw [Function.update_idem] at hrest
    exact (Run.single (.mk h)).trans hrest

/-- **Legal sequences are carried out**: what holds at the start and allows each operation in turn to be
carried out by one thread alone, and holds again after it. -/
theorem SeqObject.Legal.realize {operation : Ev → Option (Op × Res)} {s : S} {seq : List (Op × Res)}
    (I : ℕ → S → Config σ Pc → Prop) (h0 : I 0 O.initial c₀)
    (hstep : ∀ n s s' op res c, n < seq.length → I n s c → O.Perform s op res s' →
      ∃ t evs m p, Solo R t c.shared (c.pc t) evs m p ∧ evs.filterMap operation = [(op, res)] ∧
        I (n + 1) s' ⟨m, Function.update c.pc t p⟩)
    (h : O.Legal O.initial seq s) :
    ∃ log c, Run R c₀ log c ∧ operations operation log = seq ∧ I seq.length s c := by
  induction h with
  | nil => exact ⟨[], c₀, .refl, rfl, h0⟩
  | @snoc seq s' s'' op res _ hp ih =>
    obtain ⟨log, c, hrun, hops, hI⟩ := ih fun n s s' op res c hn =>
      hstep n s s' op res c (hn.trans (by simp))
    obtain ⟨t, evs, m, p, hsolo, hev, hI'⟩ := hstep _ _ _ _ _ _ (by simp) hI hp
    refine ⟨log ++ evs.map (Prod.mk t), _, hrun.trans hsolo.run, ?_, by simpa using hI'⟩
    rw [operations_append, hops, operations, List.filterMap_map]
    exact congrArg _ hev

end Alone

end Interleaving
