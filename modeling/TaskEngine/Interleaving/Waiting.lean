import TaskEngine.Interleaving.Ledger

/-!
# TaskEngine.Interleaving.Waiting — threads that also block until something can be read

To a family of rules, `Reads.rules` adds blocking reads: a thread at a place that allows it may begin to
read something, and goes on once the memory has it.  What is seen of a run without the reads is a run of
the family (`Reads.forget`).  A bound on the length of runs carries over (`Reads.potential`), and so does
progress: something goes on where the family can, and where it cannot but what is waited for is there
(`Reads.goesOn`).
-/

namespace Interleaving

variable {θ σ Ev K V : Type} {Pc : θ → Type}

/-! ## Blocking reads -/

section Defs

/-- A place of its own, or blocked there on `k`. -/
inductive MayWait (P K : Type)
  | busy (p : P)
  | waiting (p : P) (k : K)

/-- An event of the family, the beginning of a read, or its end with what was read. -/
inductive ReadEvent (Ev K V : Type)
  | base (ev : Ev)
  | wait (k : K)
  | resume (k : K) (v : V)

def MayWait.place {P : Type} : MayWait P K → P
  | .busy p | .waiting p _ => p

def ReadEvent.base? : ReadEvent Ev K V → Option Ev
  | .base ev => some ev
  | _ => none

/-- Where a thread may begin to read, what there is to read, and what is read once it is there. -/
structure Reads (σ K V : Type) (Pc : θ → Type) where
  may : (t : θ) → Pc t → Prop
  known : K → σ → Prop
  read : K → σ → Option V

/-- A step of the family, or one of a blocking read. -/
inductive ReadRule (R : Rules σ Ev Pc) (Q : Reads σ K V Pc) (t : θ) :
    σ → MayWait (Pc t) K → ReadEvent Ev K V → σ → MayWait (Pc t) K → Prop
  | base {m p ev m' p'} (h : R t m p ev m' p') : ReadRule R Q t m (.busy p) (.base ev) m' (.busy p')
  | wait {m p k} (hp : Q.may t p) (hk : Q.known k m) : ReadRule R Q t m (.busy p) (.wait k) m (.waiting p k)
  | resume {m p k v} (hv : Q.read k m = some v) :
      ReadRule R Q t m (.waiting p k) (.resume k v) m (.busy p)

/-- The family with the reads. -/
def Reads.rules (Q : Reads σ K V Pc) (R : Rules σ Ev Pc) :
    Rules σ (ReadEvent Ev K V) fun t => MayWait (Pc t) K := ReadRule R Q

end Defs

variable {R : Rules σ Ev Pc} {Q : Reads σ K V Pc}

/-! ## Without the reads -/

/-- **A read is not seen** by the family. -/
def Reads.forget (Q : Reads σ K V Pc) (R : Rules σ Ev Pc) : Projection (Q.rules R) R where
  mem := id
  place _ := MayWait.place
  event := ReadEvent.base?
  seen t m p ev m' p' ev' h he := by
    cases (h : ReadRule R Q _ _ _ _ _ _) with
    | base h => cases he; exact h
    | wait _ _ => cases he
    | resume _ => cases he
  unseen t m p ev m' p' h he := by
    cases (h : ReadRule R Q _ _ _ _ _ _) with
    | base h => cases he
    | wait _ _ => exact ⟨rfl, rfl⟩
    | resume _ => exact ⟨rfl, rfl⟩

/-- The beginning of a read costs two, for itself and for its end. -/
def Reads.potential (Q : Reads σ K V Pc) (Φ : Potential R) : Potential (Q.rules R) where
  weight t
    | .busy p => Φ.weight t p
    | .waiting p _ => Φ.weight t p + 1
  store := Φ.store
  cost
    | .base ev => Φ.cost ev
    | .wait _ => 2
    | .resume _ _ => 0
  spend t m p ev m' p' h := by
    cases (h : ReadRule R Q _ _ _ _ _ _) with
    | base h => exact Φ.spend _ _ _ _ _ _ h
    | wait _ _ => simp only; omega
    | resume _ => simp only; omega

/-! ## Progress -/

section Progress

variable [DecidableEq θ] {c₀ c : Config σ fun t => MayWait (Pc t) K} {log : List (θ × ReadEvent Ev K V)}

/-- A thread waits where it may, for what there is to read. -/
theorem Reads.waits (h : Run (Q.rules R) c₀ log c) (h0 : ∀ t p k, c₀.pc t ≠ .waiting p k)
    (hknown : ∀ t m p ev m' p' k, R t m p ev m' p' → Q.known k m → Q.known k m') :
    ∀ t p k, c.pc t = .waiting p k → Q.may t p ∧ Q.known k c.shared := by
  refine h.induct (I := fun _ d => ∀ t p k, d.pc t = .waiting p k → Q.may t p ∧ Q.known k d.shared)
    (fun t p k hp => absurd hp (h0 t p k)) ?_
  intro log d t ev m p' _ ih hr u p k hp
  have hkeep : ∀ k, Q.known k d.shared → Q.known k m := fun k hk => by
    generalize d.pc t = q at hr
    cases (hr : ReadRule R Q _ _ _ _ _ _) with
    | base h => exact hknown _ _ _ _ _ _ _ h hk
    | wait _ _ => exact hk
    | resume _ => exact hk
  by_cases hu : u = t
  · subst hu
    obtain rfl : p' = .waiting p k := by simpa using hp
    generalize d.pc u = q at hr
    cases (hr : ReadRule R Q _ _ _ _ _ _) with
    | wait hp hk => exact ⟨hp, hk⟩
  · obtain ⟨hmay, hk⟩ := ih u p k (by simpa [Function.update_of_ne hu] using hp)
    exact ⟨hmay, hkeep k hk⟩

/-- A step of the kind in question, or the end of a read. -/
def ReadEvent.free (free : Ev → Prop) : ReadEvent Ev K V → Prop
  | .base ev => free ev
  | .wait _ => False
  | .resume _ _ => True

/-- **Something goes on**, unless a read is waiting for what is not there while the family is stuck: a step of
the family is one of a thread that does not wait, as those that do have none of this kind. -/
theorem Reads.goesOn {free : Ev → Prop} (hwait : ∀ t p k, c.pc t = .waiting p k → Q.may t p)
    (hmay : ∀ t m p ev m' p', Q.may t p → R t m p ev m' p' → ¬ free ev)
    (hgo : (∃ l d, Step R ((Q.forget R).config c) l d ∧ free l.2) ∨
      ∃ t p k v, c.pc t = .waiting p k ∧ Q.read k c.shared = some v) :
    ∃ l d, Step (Q.rules R) c l d ∧ l.2.free free := by
  rcases hgo with ⟨⟨t, ev⟩, d, ⟨hr⟩, hfree⟩ | ⟨t, p, k, v, hp, hv⟩
  · have hplace : ((Q.forget R).config c).pc t = (c.pc t).place := rfl
    rw [hplace] at hr
    cases hp : c.pc t with
    | busy p =>
      rw [hp] at hr
      exact ⟨(t, .base ev), _, .mk (hp ▸ ReadRule.base hr), hfree⟩
    | waiting p k =>
      rw [hp] at hr
      exact absurd hfree (hmay _ _ _ _ _ _ (hwait t p k hp) hr)
  · exact ⟨(t, .resume k v), _, .mk (hp ▸ ReadRule.resume hv), trivial⟩

end Progress

/-! ## Computing runs -/

section Play

variable {Act : Type}

/-- A choice of the family, the beginning of a read, or its end. -/
inductive ReadAct (Act K : Type)
  | base (a : Act)
  | wait (k : K)
  | resume

/-- The step that a choice leads to. -/
def Reads.act (Q : Reads σ K V Pc) [∀ t p, Decidable (Q.may t p)] [∀ k m, Decidable (Q.known k m)]
    (act : (t : θ) → Act → σ → Pc t → Option (Ev × σ × Pc t)) (t : θ) :
    ReadAct Act K → σ → MayWait (Pc t) K → Option (ReadEvent Ev K V × σ × MayWait (Pc t) K)
  | .base a, m, .busy p => (act t a m p).map fun r => (.base r.1, r.2.1, .busy r.2.2)
  | .wait k, m, .busy p => if Q.may t p ∧ Q.known k m then some (.wait k, m, .waiting p k) else none
  | .resume, m, .waiting p k => (Q.read k m).map fun v => (.resume k v, m, .busy p)
  | _, _, _ => none

theorem Reads.act_sound [∀ t p, Decidable (Q.may t p)] [∀ k m, Decidable (Q.known k m)]
    {act : (t : θ) → Act → σ → Pc t → Option (Ev × σ × Pc t)}
    (hact : ∀ t a m p ev m' p', act t a m p = some (ev, m', p') → R t m p ev m' p') :
    ∀ t a m p ev m' p', Q.act act t a m p = some (ev, m', p') → Q.rules R t m p ev m' p' := by
  intro t a m p ev m' p' h
  unfold Reads.act at h
  split at h
  · obtain ⟨r, hr, he⟩ := Option.map_eq_some_iff.mp h
    cases he
    exact .base (hact _ _ _ _ _ _ _ hr)
  · split_ifs at h with hk
    cases h
    exact .wait hk.1 hk.2
  · obtain ⟨v, hv, he⟩ := Option.map_eq_some_iff.mp h
    cases he
    exact .resume hv
  · cases h

end Play

end Interleaving
