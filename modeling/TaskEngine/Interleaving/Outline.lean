import TaskEngine.Interleaving.Run

/-!
# TaskEngine.Interleaving.Outline — proof outlines that do not interfere

An assertion at every place of every thread, and one for all of them; both may speak of the log, as
an auxiliary variable.  A step has to establish the assertion at its new place and to leave the
assertions of the other threads alone.  `Outline.run`: then they hold throughout every run.
-/

namespace Interleaving

variable {θ σ Ev : Type} {Pc : θ → Type}

/-- Assertions that each rule re-establishes for its own thread and preserves for the others. -/
structure Outline (R : Rules σ Ev Pc) where
  Global : List (θ × Ev) → σ → Prop
  At : (t : θ) → Pc t → List (θ × Ev) → σ → Prop
  own : ∀ log t m p ev m' p', Global log m → At t p log m → R t m p ev m' p' →
    Global (log ++ [(t, ev)]) m' ∧ At t p' (log ++ [(t, ev)]) m'
  others : ∀ log t m p ev m' p', Global log m → At t p log m → R t m p ev m' p' →
    ∀ u q, u ≠ t → At u q log m → At u q (log ++ [(t, ev)]) m'

/-- All assertions hold. -/
def Outline.Holds {R : Rules σ Ev Pc} (O : Outline R) (log : List (θ × Ev)) (c : Config σ Pc) : Prop :=
  O.Global log c.shared ∧ ∀ t, O.At t (c.pc t) log c.shared

variable [DecidableEq θ] {R : Rules σ Ev Pc} {c c' : Config σ Pc} {log : List (θ × Ev)}

/-- **Interference freedom**: assertions that hold at the start hold after every run. -/
theorem Outline.run (O : Outline R) (h : Run R c log c') (h0 : O.Holds [] c) : O.Holds log c' := by
  refine h.induct (I := O.Holds) h0 ?_
  rintro log d t ev m p - ⟨hg, hat⟩ hr
  obtain ⟨hg', hown⟩ := O.own _ _ _ _ _ _ _ hg (hat t) hr
  refine ⟨hg', (Function.forall_update_iff d.pc fun u q => O.At u q (log ++ [(t, ev)]) m).mpr ⟨hown, ?_⟩⟩
  intro u hu
  exact O.others _ _ _ _ _ _ _ hg (hat t) hr u _ hu (hat u)

end Interleaving
