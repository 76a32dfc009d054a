import TaskEngine.Interleaving.HappensBefore

/-!
# TaskEngine.Interleaving.DataRace — accesses that the causal order keeps apart

An event reads and writes locations.  Two events conflict when both touch a location and one of them
writes it, and a log is free of races when of two conflicting events the earlier always happens before
the later.

`Sync.Covers` says who may touch a location next: every event so far with `A` happens before whatever
follows an event with `P`.  It is kept by events without `A` (`Covers.skip`), and handed on by an event
that comes after all those with `P` (`Covers.step`): to the thread itself (`Covers.own`), from a thread
to an object that it releases (`Covers.release`), from an object to the thread that acquires it
(`Covers.acquire`), and through a whole critical section (`Covers.relay`).  `RaceFree.snoc`: an event
that comes after all that conflicts with it adds no race.

Two ways of keeping accesses apart are built from these: a mutex whose holder alone makes them
(`Sync.Guarded`), and objects that threads own and hand to each other through a store under a mutex
(`Custody`).
-/

namespace Interleaving

variable {θ Ev O T L : Type}

/-! ## Covering -/

namespace Sync

section Defs

variable (S : Sync θ Ev O T)

/-- The event at `i` is one with `P`, or happens before one. -/
def Reaching (log : List (θ × Ev)) (P : θ × Ev → Prop) (i : ℕ) : Prop :=
  ∃ j l, Relation.ReflTransGen (S.Edge log) i j ∧ log[j]? = some l ∧ P l

/-- Every event with `A` is one with `P`, or happens before one. -/
def Covers (log : List (θ × Ev)) (A P : θ × Ev → Prop) : Prop :=
  ∀ i l, log[i]? = some l → A l → S.Reaching log P i

/-- By thread `t`. -/
abbrev By (t : θ) : θ × Ev → Prop := fun l => l.1 = t

/-- A release of `o`. -/
abbrev Releasing (o : O) : θ × Ev → Prop := fun l => o ∈ S.releases l

/-- The event `l` comes after all events with `A`. -/
def Follows (log : List (θ × Ev)) (A : θ × Ev → Prop) (l : θ × Ev) : Prop :=
  ∃ P, S.Covers log A P ∧ ∀ l', P l' → S.Orders l' l

end Defs

variable {S : Sync θ Ev O T} {log : List (θ × Ev)} {l : θ × Ev} {t : θ} {ev : Ev} {o : O}
  {A P Q : θ × Ev → Prop} {i : ℕ}

theorem Reaching.append (h : S.Reaching log P i) (log' : List (θ × Ev)) : S.Reaching (log ++ log') P i := by
  obtain ⟨j, l, hij, hl, hp⟩ := h
  exact ⟨j, l, Relation.ReflTransGen.mono (fun _ _ he => Edge.append he log') _ _ hij,
    getElem?_append_of_some hl _, hp⟩

/-- Whatever comes after the events with `P` comes after what reaches one. -/
theorem Reaching.next (h : S.Reaching log P i) (ho : ∀ l', P l' → S.Orders l' l) :
    S.HappensBefore (log ++ [l]) i log.length := by
  obtain ⟨j, l', hij, hl', hp⟩ := h
  have hj : j < log.length := (List.getElem?_eq_some_iff.mp hl').1
  refine Relation.TransGen.tail'
    (Relation.ReflTransGen.mono (fun _ _ he => Edge.append he _) _ _ hij) ⟨hj, l', l, ?_, ?_, ho l' hp⟩
  · exact getElem?_append_of_some hl' _
  · simp

theorem Covers.nil : S.Covers [] A P := by
  intro i l hl
  simp at hl

theorem Covers.of_none (h : ∀ l ∈ log, ¬ A l) : S.Covers log A P :=
  fun _ l hl ha => absurd ha (h l (List.mem_of_getElem? hl))

theorem Covers.mono (h : S.Covers log A P) (hq : ∀ l ∈ log, Q l → A l) : S.Covers log Q P :=
  fun i l hl hl' => h i l hl (hq l (List.mem_of_getElem? hl) hl')

theorem Covers.skip (h : S.Covers log A P) (hl : ¬ A l) : S.Covers (log ++ [l]) A P := by
  intro i l' hi ha
  rw [List.getElem?_append] at hi
  split at hi
  · exact (h i l' hi ha).append _
  · rw [List.getElem?_singleton] at hi
    split at hi
    · cases hi
      exact absurd ha hl
    · cases hi

/-- An event after all those with `P` takes their place. -/
theorem Covers.step (h : S.Covers log A P) (ho : ∀ l', P l' → S.Orders l' l) (hq : Q l) :
    S.Covers (log ++ [l]) A Q := by
  intro i l' hi ha
  rw [List.getElem?_append] at hi
  split at hi
  · exact ⟨log.length, l, ((h i l' hi ha).next ho).to_reflTransGen, by simp, hq⟩
  · rw [List.getElem?_singleton] at hi
    split at hi
    · next hge hi0 =>
      refine ⟨log.length, l, ?_, by simp, hq⟩
      rw [show i = log.length by omega]
    · cases hi

theorem Covers.own (h : S.Covers log A (By t)) : S.Covers (log ++ [(t, ev)]) A (By t) :=
  h.step (fun _ hl' => .inl hl') rfl

theorem Covers.release (h : S.Covers log A (By t)) (ho : o ∈ S.releases (t, ev)) :
    S.Covers (log ++ [(t, ev)]) A (S.Releasing o) :=
  h.step (fun _ hl' => .inl hl') ho

theorem Covers.acquire (h : S.Covers log A (S.Releasing o)) (ho : o ∈ S.acquires (t, ev)) :
    S.Covers (log ++ [(t, ev)]) A (By t) :=
  h.step (fun _ hl' => .inr ⟨o, hl', ho⟩) rfl

theorem Covers.relay (h : S.Covers log A (S.Releasing o)) (ha : o ∈ S.acquires l) (hr : o ∈ S.releases l) :
    S.Covers (log ++ [l]) A (S.Releasing o) :=
  h.step (fun _ hl' => .inr ⟨o, hl', ha⟩) hr

theorem Covers.follows (h : S.Covers log A (By t)) : S.Follows log A (t, ev) :=
  ⟨_, h, fun _ hl' => .inl hl'⟩

theorem Covers.follows_release (h : S.Covers log A (S.Releasing o)) (ho : o ∈ S.acquires l) :
    S.Follows log A l :=
  ⟨_, h, fun _ hl' => .inr ⟨o, hl', ho⟩⟩

theorem Follows.mono (h : S.Follows log A l) (hq : ∀ l' ∈ log, Q l' → A l') : S.Follows log Q l := by
  obtain ⟨P, hcov, ho⟩ := h
  exact ⟨P, hcov.mono hq, ho⟩

/-! ## Under a mutex -/

section Guarded

variable (S) in
/-- What the mutex `o` protects: its holder comes after all events with `A`, or whoever takes it next. -/
def Guarded (log : List (θ × Ev)) (A : θ × Ev → Prop) (o : O) : Option θ → Prop
  | none => S.Covers log A (S.Releasing o)
  | some t => S.Covers log A (By t)

variable (S) in
/-- A step that has to do with the mutex `o`, and its holder before and after. -/
inductive Section (o : O) (l : θ × Ev) : Option θ → Option θ → Prop
  | lock (ha : o ∈ S.acquires l) : Section o l none (some l.1)
  /-- the whole critical section in one step -/
  | pass (ha : o ∈ S.acquires l) (hr : o ∈ S.releases l) : Section o l none none
  | held : Section o l (some l.1) (some l.1)
  | unlock (hr : o ∈ S.releases l) : Section o l (some l.1) none

variable {holder holder' : Option θ}

theorem Guarded.nil : S.Guarded [] A o holder := by
  cases holder with
  | none => exact Covers.nil
  | some t => exact Covers.nil

theorem Guarded.follows (h : S.Guarded log A o holder) (hs : S.Section o l holder holder') :
    S.Follows log A l := by
  cases hs with
  | lock ha => exact Covers.follows_release h ha
  | pass ha _ => exact Covers.follows_release h ha
  | held => exact Covers.follows h
  | unlock _ => exact Covers.follows h

/-- What is protected stays so through a critical section, whether the step is one with `A` or not. -/
theorem Guarded.through (h : S.Guarded log A o holder) (hs : S.Section o l holder holder') :
    S.Guarded (log ++ [l]) A o holder' := by
  cases hs with
  | lock ha => exact Covers.acquire h ha
  | pass ha hr => exact Covers.relay h ha hr
  | held => exact Covers.own h
  | unlock hr => exact Covers.release h hr

theorem Guarded.skip (h : S.Guarded log A o holder) (hl : ¬ A l) : S.Guarded (log ++ [l]) A o holder := by
  cases holder with
  | none => exact Covers.skip h hl
  | some t => exact Covers.skip h hl

end Guarded

end Sync

/-! ## Owners -/

section Custody

variable {σ K : Type} {Pc : θ → Type}

/-- Objects that belong to threads, to a store under the mutex `o`, or do not exist yet. -/
structure Custody (S : Sync θ Ev O T) (o : O) (Pc : θ → Type) (σ K : Type) where
  owned : (t : θ) → Pc t → Set K
  stored : σ → Set K
  unborn : σ → Set K
  touched : Ev → Set K

namespace Custody

variable {S : Sync θ Ev O T} {o : O} (X : Custody S o Pc σ K)

/-- Each object is in one place. -/
structure Apart (c : Config σ Pc) : Prop where
  owners : ∀ t u k, k ∈ X.owned t (c.pc t) → k ∈ X.owned u (c.pc u) → t = u
  stored : ∀ t k, k ∈ X.owned t (c.pc t) → k ∉ X.stored c.shared
  unborn : ∀ k ∈ X.unborn c.shared, (∀ t, k ∉ X.owned t (c.pc t)) ∧ k ∉ X.stored c.shared

/-- A step touches what its thread owns, what it takes out of the store, and what it creates, and puts into
the store what it owned; the store it enters and leaves with the mutex. -/
structure Handover (t : θ) (m : σ) (p : Pc t) (ev : Ev) (m' : σ) (p' : Pc t) : Prop where
  owned : ∀ k ∈ X.owned t p', k ∈ X.owned t p ∨ k ∈ X.stored m ∧ o ∈ S.acquires (t, ev) ∨ k ∈ X.unborn m
  stored : ∀ k ∈ X.stored m', k ∈ X.stored m ∨ k ∈ X.owned t p ∧ o ∈ S.releases (t, ev)
  unborn : ∀ k ∈ X.unborn m', k ∈ X.unborn m ∧ k ∉ X.touched ev
  touched : ∀ k ∈ X.touched ev, k ∈ X.owned t p ∨ k ∈ X.stored m ∧ o ∈ S.acquires (t, ev) ∨ k ∈ X.unborn m
  whole : o ∈ S.acquires (t, ev) → o ∈ S.releases (t, ev)

/-- The events that touch `k`. -/
def Touching (k : K) : θ × Ev → Prop := fun l => k ∈ X.touched l.2

/-- Whoever has an object comes after all that have touched it. -/
structure Ordered (log : List (θ × Ev)) (c : Config σ Pc) : Prop where
  owned : ∀ t, ∀ k ∈ X.owned t (c.pc t), S.Covers log (X.Touching k) (Sync.By t)
  stored : ∀ k ∈ X.stored c.shared, S.Covers log (X.Touching k) (S.Releasing o)
  unborn : ∀ k ∈ X.unborn c.shared, ∀ l ∈ log, ¬ X.Touching k l

variable {X} {log : List (θ × Ev)} {c : Config σ Pc}

/-- What a step touches was touched before it only by events that happen before it. -/
theorem Ordered.follows {t : θ} {ev : Ev} {m : σ} {p : Pc t} (h : X.Ordered log c)
    (hh : X.Handover t c.shared (c.pc t) ev m p) {k : K} (hk : k ∈ X.touched ev) :
    S.Follows log (X.Touching k) (t, ev) := by
  rcases hh.touched k hk with hk | ⟨hk, ha⟩ | hk
  · exact (h.owned t k hk).follows
  · exact (h.stored k hk).follows_release ha
  · exact (Sync.Covers.of_none (P := Sync.By t) (h.unborn k hk)).follows

variable [DecidableEq θ]

theorem Ordered.step {t : θ} {ev : Ev} {m : σ} {p : Pc t} (h : X.Ordered log c) (hc : X.Apart c)
    (hh : X.Handover t c.shared (c.pc t) ev m p) :
    X.Ordered (log ++ [(t, ev)]) ⟨m, Function.update c.pc t p⟩ where
  owned u k (hk : k ∈ X.owned u (Function.update c.pc t p u)) := by
    by_cases hu : u = t
    · subst hu
      rw [Function.update_self] at hk
      rcases hh.owned k hk with hk | ⟨hk, ha⟩ | hk
      · exact (h.owned u k hk).own
      · exact (h.stored k hk).acquire ha
      · exact (Sync.Covers.of_none (h.unborn k hk)).own
    · -- what another thread owns is out of reach
      rw [Function.update_of_ne hu] at hk
      refine (h.owned u k hk).skip fun ht => ?_
      rcases hh.touched k ht with ht | ⟨ht, -⟩ | ht
      · exact hu (hc.owners u t k hk ht)
      · exact hc.stored u k hk ht
      · exact (hc.unborn k ht).1 u hk
  stored k hk := by
    rcases hh.stored k hk with hk | ⟨hk, hr⟩
    · by_cases ha : o ∈ S.acquires (t, ev)
      · exact (h.stored k hk).relay ha (hh.whole ha)
      · refine (h.stored k hk).skip fun ht => ?_
        rcases hh.touched k ht with ht | ⟨-, ht⟩ | ht
        · exact hc.stored t k ht hk
        · exact ha ht
        · exact (hc.unborn k ht).2 hk
    · exact (h.owned t k hk).release hr
  unborn k hk l hl ht := by
    obtain ⟨hold, hnew⟩ := hh.unborn k hk
    rcases List.mem_append.mp hl with hl | hl
    · exact h.unborn k hold l hl ht
    · rw [List.mem_singleton.mp hl] at ht
      exact hnew ht

/-- **Ownership orders the accesses**: where each object is always in one place and every step hands over
as it should, whoever has an object comes after all that have touched it. -/
theorem ordered {R : Rules σ Ev Pc} {c₀ : Config σ Pc} (h : Run R c₀ log c)
    (hapart : ∀ log d, Run R c₀ log d → X.Apart d)
    (hstep : ∀ log d t ev m p, Run R c₀ log d → R t d.shared (d.pc t) ev m p →
      X.Handover t d.shared (d.pc t) ev m p) : X.Ordered log c := by
  refine h.induct (I := X.Ordered) ⟨fun _ _ _ => .nil, fun _ _ => .nil, fun _ _ _ hl => absurd hl List.not_mem_nil⟩ ?_
  intro log d t ev m p hrun ih hr
  exact ih.step (hapart log d hrun) (hstep log d t ev m p hrun hr)

end Custody

end Custody

/-! ## Races -/

/-- The locations that an event reads and those that it writes. -/
structure Footprint (θ Ev L : Type) where
  reads : θ × Ev → Set L
  writes : θ × Ev → Set L

namespace Footprint

variable (F : Footprint θ Ev L)

def Touches (x : L) (l : θ × Ev) : Prop := x ∈ F.reads l ∨ x ∈ F.writes l

/-- Both touch a location that one of them writes. -/
def Conflict (l l' : θ × Ev) : Prop :=
  ∃ x, F.Touches x l ∧ F.Touches x l' ∧ (x ∈ F.writes l ∨ x ∈ F.writes l')

end Footprint

/-- Of two conflicting events the earlier happens before the later. -/
def RaceFree (S : Sync θ Ev O T) (F : Footprint θ Ev L) (log : List (θ × Ev)) : Prop :=
  ∀ i j l l', i < j → log[i]? = some l → log[j]? = some l' → F.Conflict l l' → S.HappensBefore log i j

section RaceFree

variable {S : Sync θ Ev O T} {F : Footprint θ Ev L} {log : List (θ × Ev)} {l : θ × Ev}

theorem RaceFree.nil : RaceFree S F [] := by
  intro i j l l' _ hl
  simp at hl

/-- **One more event** adds no race when it comes after every access to what it writes, and after every
write of what it reads. -/
theorem RaceFree.snoc (h : RaceFree S F log) (hw : ∀ x ∈ F.writes l, S.Follows log (F.Touches x) l)
    (hr : ∀ x ∈ F.reads l, S.Follows log (fun l' => x ∈ F.writes l') l) : RaceFree S F (log ++ [l]) := by
  intro i j l₁ l₂ hij hi hj hc
  have hlt : i < (log ++ [l]).length := (List.getElem?_eq_some_iff.mp hi).1
  -- the later of the two events is an old one, or it is `l`
  rw [List.getElem?_append] at hj
  split at hj
  · next hjlt =>
    rw [List.getElem?_append_left (hij.trans hjlt)] at hi
    exact (h i j l₁ l₂ hij hi hj hc).append _
  · next hjge =>
    rw [List.getElem?_singleton] at hj
    split at hj
    · cases hj
      obtain rfl : j = log.length := by omega
      rw [List.getElem?_append_left hij] at hi
      have hafter : ∀ {A : θ × Ev → Prop}, S.Follows log A l → A l₁ →
          S.HappensBefore (log ++ [l]) i log.length := by
        rintro A ⟨P, hcov, ho⟩ ha
        exact (hcov i l₁ hi ha).next ho
      obtain ⟨x, ht₁, ht₂, hx | hx⟩ := hc
      · rcases ht₂ with ht₂ | ht₂
        · exact hafter (hr x ht₂) hx
        · exact hafter (hw x ht₂) ht₁
      · exact hafter (hw x hx) ht₁
    · cases hj

end RaceFree

end Interleaving
