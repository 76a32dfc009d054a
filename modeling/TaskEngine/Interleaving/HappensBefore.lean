import Mathlib.Data.List.NodupEquivFin
import TaskEngine.Interleaving.Run

/-!
# TaskEngine.Interleaving.HappensBefore — the causal order of a log, and clocks that respect it

An event acquires and releases objects: mutexes, or threads that end.  In a log an event happens before a
later one where both are of one thread, where the later acquires what the earlier releases, and through
others.  A clock is monotone over a log when no reading is below one that happens before it.

* `Sync.Knows`, `Sync.Passed`: a reading that happens before whatever a thread does next, or before
  whatever acquires an object next; `Knows.read`, `Knows.later`, `Knows.release`, `Passed.later`
  and `Passed.acquire` follow them along a run, event by event.
* `Sync.Monotone.le`, `Sync.Monotone.le_later`: what they are for.
* `Sync.Monotone.seen`, `Sync.Knows.unseen`: a log and a part of it.
-/

namespace Interleaving

variable {θ Ev Ev' O T : Type}

/-- What an event of a thread acquires and releases, and what it reads off the clock. -/
structure Sync (θ Ev O T : Type) where
  acquires : θ × Ev → List O
  releases : θ × Ev → List O
  reads : θ × Ev → List T

namespace Sync

variable (S : Sync θ Ev O T)

/-! ## Definitions -/

section Defs

/-- Where `l` comes first, `l'` happens after it. -/
def Orders (l l' : θ × Ev) : Prop := l.1 = l'.1 ∨ ∃ o ∈ S.releases l, o ∈ S.acquires l'

/-- The event at `i` happens before the one at `j`, through no other. -/
def Edge (log : List (θ × Ev)) (i j : ℕ) : Prop :=
  i < j ∧ ∃ l l', log[i]? = some l ∧ log[j]? = some l' ∧ S.Orders l l'

/-- The event at `i` happens before the one at `j`. -/
def HappensBefore (log : List (θ × Ev)) : ℕ → ℕ → Prop := Relation.TransGen (S.Edge log)

/-- The readings do not decrease along the causal order. -/
def Monotone [LE T] (log : List (θ × Ev)) : Prop :=
  ∀ i j, S.HappensBefore log i j → ∀ l l', log[i]? = some l → log[j]? = some l' →
    ∀ x ∈ S.reads l, ∀ y ∈ S.reads l', x ≤ y

/-- `x` was read at or before some event with `P`. -/
def Reaches (log : List (θ × Ev)) (P : θ × Ev → Prop) (x : T) : Prop :=
  ∃ i j l l', log[i]? = some l ∧ x ∈ S.reads l ∧ Relation.ReflTransGen (S.Edge log) i j ∧
    log[j]? = some l' ∧ P l'

/-- `x` was read before whatever `t` does next. -/
def Knows (log : List (θ × Ev)) (t : θ) (x : T) : Prop := S.Reaches log (fun l => l.1 = t) x

/-- `x` was read before whatever acquires `o` next. -/
def Passed (log : List (θ × Ev)) (o : O) (x : T) : Prop := S.Reaches log (fun l => o ∈ S.releases l) x

end Defs

variable {S} {log log' : List (θ × Ev)} {l : θ × Ev} {t : θ} {o : O} {x y : T}

/-! ## Longer logs -/

section Append

theorem getElem?_append_of_some {i : ℕ} (h : log[i]? = some l) (log' : List (θ × Ev)) :
    (log ++ log')[i]? = some l := by
  rw [List.getElem?_append_left (List.getElem?_eq_some_iff.mp h).1, h]

theorem Edge.append {i j : ℕ} (h : S.Edge log i j) (log' : List (θ × Ev)) : S.Edge (log ++ log') i j := by
  obtain ⟨hij, l, l', hl, hl', ho⟩ := h
  exact ⟨hij, l, l', getElem?_append_of_some hl _, getElem?_append_of_some hl' _, ho⟩

theorem HappensBefore.append {i j : ℕ} (h : S.HappensBefore log i j) (log' : List (θ × Ev)) :
    S.HappensBefore (log ++ log') i j :=
  Relation.TransGen.mono (fun _ _ he => Edge.append he log') _ _ h

theorem Monotone.prefix [LE T] (h : S.Monotone (log ++ log')) : S.Monotone log :=
  fun i j hij l l' hl hl' => h i j (hij.append log') l l' (getElem?_append_of_some hl _)
    (getElem?_append_of_some hl' _)

theorem Reaches.append {P : θ × Ev → Prop} (h : S.Reaches log P x) (log' : List (θ × Ev)) :
    S.Reaches (log ++ log') P x := by
  obtain ⟨i, j, l, l', hl, hx, hij, hl', hp⟩ := h
  exact ⟨i, j, l, l', getElem?_append_of_some hl _, hx,
    Relation.ReflTransGen.mono (fun _ _ he => Edge.append he log') _ _ hij, getElem?_append_of_some hl' _, hp⟩

/-- What reaches an event reaches the next one that comes after it. -/
theorem Reaches.next {P : θ × Ev → Prop} (h : S.Reaches log P x) (ho : ∀ l', P l' → S.Orders l' l)
    (log' : List (θ × Ev)) : ∃ i l₀, (log ++ l :: log')[i]? = some l₀ ∧ x ∈ S.reads l₀ ∧
      S.HappensBefore (log ++ l :: log') i log.length := by
  obtain ⟨i, j, l₀, l', hl₀, hx, hij, hl', hp⟩ := h
  have hj : j < log.length := (List.getElem?_eq_some_iff.mp hl').1
  refine ⟨i, l₀, getElem?_append_of_some hl₀ _, hx, Relation.TransGen.tail'
    (Relation.ReflTransGen.mono (fun _ _ he => Edge.append he _) _ _ hij) ?_⟩
  exact ⟨hj, l', l, getElem?_append_of_some hl' _, by simp, ho l' hp⟩

theorem Reaches.step {P : θ × Ev → Prop} (h : S.Reaches log P x) (ho : ∀ l', P l' → S.Orders l' l) :
    S.Reaches (log ++ [l]) (· = l) x := by
  obtain ⟨i, l₀, hl₀, hx, hi⟩ := h.next ho []
  exact ⟨i, log.length, l₀, l, hl₀, hx, hi.to_reflTransGen, by simp, rfl⟩

theorem Reaches.imp {P Q : θ × Ev → Prop} (h : S.Reaches log P x) (hpq : ∀ l, P l → Q l) :
    S.Reaches log Q x := by
  obtain ⟨i, j, l, l', hl, hx, hij, hl', hp⟩ := h
  exact ⟨i, j, l, l', hl, hx, hij, hl', hpq l' hp⟩

end Append

/-! ## Following a reading -/

section Following

theorem Knows.later (h : S.Knows log t x) : S.Knows (log ++ log') t x := Reaches.append h log'

theorem Passed.later (h : S.Passed log o x) : S.Passed (log ++ log') o x := Reaches.append h log'

/-- A thread knows what it has read. -/
theorem Knows.read {ev : Ev} (hx : x ∈ S.reads (t, ev)) : S.Knows (log ++ [(t, ev)]) t x :=
  ⟨log.length, log.length, (t, ev), (t, ev), by simp, hx, .refl, by simp, rfl⟩

/-- A thread passes on what it knows. -/
theorem Knows.release {ev : Ev} (h : S.Knows log t x) (ho : o ∈ S.releases (t, ev)) :
    S.Passed (log ++ [(t, ev)]) o x := by
  refine Reaches.imp (Reaches.step h fun l' hl' => .inl hl') ?_
  rintro l rfl
  exact ho

/-- A thread comes to know what has been passed on. -/
theorem Passed.acquire {ev : Ev} (h : S.Passed log o x) (ho : o ∈ S.acquires (t, ev)) :
    S.Knows (log ++ [(t, ev)]) t x := by
  refine Reaches.imp (Reaches.step h fun l' hl' => .inr ⟨o, hl', ho⟩) ?_
  rintro l rfl
  rfl

end Following

/-! ## Monotone clocks -/

section Monotone

theorem HappensBefore.lt {i j : ℕ} (h : S.HappensBefore log i j) : i < j := by
  induction h with
  | single he => exact he.1
  | tail _ he ih => exact ih.trans he.1

theorem monotone_of_pairwise [Preorder T] (h : (log.flatMap S.reads).Pairwise (· ≤ ·)) : S.Monotone log := by
  intro i j hij l l' hl hl' x hx y hy
  obtain ⟨hi, rfl⟩ := List.getElem?_eq_some_iff.mp hl
  obtain ⟨hj, rfl⟩ := List.getElem?_eq_some_iff.mp hl'
  exact List.pairwise_iff_getElem.mp (List.pairwise_flatMap.mp h).2 i j hi hj hij.lt x hx y hy

variable [LE T]

/-- What a thread reads is not below what it knows, nor is what is read after its reading. -/
theorem Monotone.le_later {k : ℕ} {ev : Ev} (hm : S.Monotone (log ++ (t, ev) :: log')) (h : S.Knows log t x)
    (hk : Relation.ReflTransGen (S.Edge (log ++ (t, ev) :: log')) log.length k)
    (hl : (log ++ (t, ev) :: log')[k]? = some l) (hy : y ∈ S.reads l) : x ≤ y := by
  obtain ⟨i, l₀, hl₀, hx, hi⟩ := Reaches.next (l := (t, ev)) h (fun l' hl' => .inl hl') log'
  exact hm i k (hi.trans_left hk) l₀ l hl₀ hl x hx y hy

theorem Monotone.le {ev : Ev} (hm : S.Monotone (log ++ [(t, ev)])) (h : S.Knows log t x)
    (hy : y ∈ S.reads (t, ev)) : x ≤ y :=
  hm.le_later h .refl (by simp) hy

end Monotone

/-! ## Parts of a log -/

section Parts

/-- `S'` orders and reads no more than `S`, event by event. -/
structure Sees (S : Sync θ Ev O T) (S' : Sync θ Ev' O T) (f : Ev → Option Ev') : Prop where
  acquires : ∀ t ev ev', f ev = some ev' → S'.acquires (t, ev') ⊆ S.acquires (t, ev)
  releases : ∀ t ev ev', f ev = some ev' → S'.releases (t, ev') ⊆ S.releases (t, ev)
  reads : ∀ t ev ev', f ev = some ev' → S'.reads (t, ev') ⊆ S.reads (t, ev)

/-- What is seen of a log. -/
def seen (f : Ev → Option Ev') (log : List (θ × Ev)) : List (θ × Ev') :=
  log.filterMap fun l => (f l.2).map (Prod.mk l.1)

theorem seen_sublist (f : Ev → Option Ev') (log : List (θ × Ev)) :
    ((seen f log).map some).Sublist (log.map fun l => (f l.2).map (Prod.mk l.1)) := by
  induction log with
  | nil => exact List.Sublist.refl _
  | cons l log ih =>
    cases hl : f l.2 with
    | none => simpa [seen, hl] using ih.cons none
    | some ev => simpa [seen, hl] using ih.cons_cons (some (l.1, ev))

theorem exists_position (f : Ev → Option Ev') (log : List (θ × Ev)) : ∃ φ : ℕ ↪o ℕ,
    ∀ i l', (seen f log)[i]? = some l' → ∃ ev, log[φ i]? = some (l'.1, ev) ∧ f ev = some l'.2 := by
  obtain ⟨φ, hφ⟩ := List.sublist_iff_exists_orderEmbedding_getElem?_eq.mp (seen_sublist f log)
  refine ⟨φ, ?_⟩
  intro i l' hl'
  have := hφ i
  rw [List.getElem?_map, hl', Option.map_some, List.getElem?_map, eq_comm, Option.map_eq_some_iff] at this
  obtain ⟨⟨t, ev⟩, hl, hev⟩ := this
  obtain ⟨ev', hev', rfl⟩ := Option.map_eq_some_iff.mp hev
  exact ⟨ev, hl, hev'⟩

variable {S' : Sync θ Ev' O T} {f : Ev → Option Ev'}

/-- What happens before in the part seen does so in the log. -/
theorem Sees.edge (hs : S.Sees S' f) {φ : ℕ ↪o ℕ} (hφ : ∀ i l', (seen f log)[i]? = some l' →
    ∃ ev, log[φ i]? = some (l'.1, ev) ∧ f ev = some l'.2) {i j : ℕ} (h : S'.Edge (seen f log) i j) :
    S.Edge log (φ i) (φ j) := by
  obtain ⟨hij, ⟨t, ev⟩, ⟨t', ev'⟩, hl, hl', ho⟩ := h
  obtain ⟨a, ha, hfa⟩ := hφ i _ hl
  obtain ⟨a', ha', hfa'⟩ := hφ j _ hl'
  refine ⟨φ.strictMono hij, _, _, ha, ha', ho.imp_right ?_⟩
  rintro ⟨o, hrel, hacq⟩
  exact ⟨o, hs.releases _ _ _ hfa hrel, hs.acquires _ _ _ hfa' hacq⟩

/-- **A clock monotone over a log** is monotone over what is seen of it. -/
theorem Monotone.seen [LE T] (hs : S.Sees S' f) (hm : S.Monotone log) : S'.Monotone (seen f log) := by
  obtain ⟨φ, hφ⟩ := exists_position f log
  intro i j hij l l' hl hl' x hx y hy
  obtain ⟨a, ha, hfa⟩ := hφ i l hl
  obtain ⟨a', ha', hfa'⟩ := hφ j l' hl'
  exact hm (φ i) (φ j) (hij.lift φ fun _ _ he => hs.edge hφ he) _ _ ha ha' x (hs.reads _ _ _ hfa hx) y
    (hs.reads _ _ _ hfa' hy)

theorem Knows.unseen (hs : S.Sees S' f) (h : S'.Knows (seen f log) t x) : S.Knows log t x := by
  obtain ⟨φ, hφ⟩ := exists_position f log
  obtain ⟨i, j, l, l', hl, hx, hij, hl', rfl⟩ := h
  obtain ⟨a, ha, hfa⟩ := hφ i l hl
  obtain ⟨a', ha', -⟩ := hφ j l' hl'
  exact ⟨φ i, φ j, _, _, ha, hs.reads _ _ _ hfa hx, hij.lift φ fun _ _ he => hs.edge hφ he, ha', rfl⟩

end Parts

end Sync

end Interleaving
