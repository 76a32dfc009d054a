import TaskEngine.Interleaving.Run

/-!
# TaskEngine.Interleaving.Linearizability — concurrent calls that take effect one at a time

A sequential object says what each operation answers and does when it is carried out alone.  A history,
the calls and the returns of the threads in their order, is linearizable when its operations can be put
into one sequence that the object allows, with the answers returned, in which an operation that had
returned before another was called does not come after it.  Calls that have not returned may be in the
sequence or not.

`Implements` is the rule: every step of a thread calls, returns, changes nothing that the object is
about, or carries out the pending operation of its thread, and a call returns what carrying it out
answered.  `Implements.linearizes`: then every history is linearizable.
-/

namespace Interleaving

variable {θ σ Ev S Op Res : Type} {Pc : θ → Type}

/-! ## Objects and histories -/

section Defs

/-- What each operation answers and does, and from which states it can be carried out at all. -/
structure SeqObject (S Op Res : Type) where
  initial : S
  Perform : S → Op → Res → S → Prop

/-- A sequence of operations with their answers that the object allows. -/
inductive SeqObject.Legal (O : SeqObject S Op Res) (s : S) : List (Op × Res) → S → Prop
  | nil : Legal O s [] s
  | snoc {seq : List (Op × Res)} {s' s'' : S} {op : Op} {res : Res} (h : Legal O s seq s')
      (hp : O.Perform s' op res s'') : Legal O s (seq ++ [(op, res)]) s''

/-- What a caller sees of a thread. -/
inductive Interaction (Op Res : Type)
  | call (op : Op)
  | ret (res : Res)

/-- The calls and the returns of all threads, in their order. -/
abbrev History (θ Op Res : Type) := List (θ × Interaction Op Res)

/-- Thread `t` does nothing in the history after position `i`. -/
def History.Last (H : History θ Op Res) (t : θ) (i : ℕ) : Prop := ∀ j a, i < j → H[j]? ≠ some (t, a)

/-- The call at position `i` has not returned. -/
def History.Open (H : History θ Op Res) (t : θ) (i : ℕ) (op : Op) : Prop :=
  H[i]? = some (t, .call op) ∧ H.Last t i

/-- The call at position `i` returns at position `j`. -/
def History.Returns (H : History θ Op Res) (i j : ℕ) (res : Res) : Prop :=
  i < j ∧ ∃ t op, H[i]? = some (t, .call op) ∧ H[j]? = some (t, .ret res) ∧
    ∀ k a, i < k → k < j → H[k]? ≠ some (t, a)

/-- The call at position `i` returns before the one at position `i'` is made. -/
def History.Precedes (H : History θ Op Res) (i i' : ℕ) : Prop := ∃ j res, H.Returns i j res ∧ j < i'

/-- An operation in a sequence: the position of its call, and its answer. -/
structure Entry (Op Res : Type) where
  pos : ℕ
  op : Op
  res : Res

/-- The sequence without the positions. -/
def answers (lin : List (Entry Op Res)) : List (Op × Res) := lin.map fun e => (e.op, e.res)

/-- The operations of the history in one sequence, which has every operation that has returned, with
the answer returned, and never one after another that was called after its return. -/
structure Linearization (O : SeqObject S Op Res) (H : History θ Op Res) (lin : List (Entry Op Res)) :
    Prop where
  called : ∀ e ∈ lin, ∃ t, H[e.pos]? = some (t, .call e.op)
  once : (lin.map Entry.pos).Nodup
  returned : ∀ i j res, H.Returns i j res → ∃ e ∈ lin, e.pos = i ∧ e.res = res
  order : lin.Pairwise fun e e' => ¬ H.Precedes e'.pos e.pos
  legal : ∃ s, O.Legal O.initial (answers lin) s

/-- The history is one of the object, up to the order of overlapping calls. -/
def Linearizable (O : SeqObject S Op Res) (H : History θ Op Res) : Prop := ∃ lin, Linearization O H lin

end Defs

/-! ## Longer histories -/

section Append

variable {H : History θ Op Res} {t u : θ} {i j : ℕ} {op : Op} {res : Res} {a : Interaction Op Res}

theorem History.getElem?_snoc {l : θ × Interaction Op Res} (h : (H ++ [l])[i]? = some (u, a)) :
    H[i]? = some (u, a) ∨ i = H.length ∧ l = (u, a) := by
  rw [List.getElem?_append] at h
  split at h
  · exact .inl h
  · next hi =>
    rw [List.getElem?_singleton] at h
    split at h
    · exact .inr ⟨by omega, Option.some.inj h⟩
    · cases h

theorem History.getElem?_mono {l : θ × Interaction Op Res} (h : H[i]? = some (u, a)) :
    (H ++ [l])[i]? = some (u, a) := by
  rw [List.getElem?_append_left (List.getElem?_eq_some_iff.mp h).1, h]

theorem History.Open.snoc (h : H.Open t i op) (hu : u ≠ t) : History.Open (H ++ [(u, a)]) t i op := by
  refine ⟨History.getElem?_mono h.1, ?_⟩
  intro j b hj hb
  rcases History.getElem?_snoc hb with hb | ⟨-, hb⟩
  · exact h.2 j b hj hb
  · exact hu (congrArg Prod.fst hb)

theorem History.open_snoc : History.Open (H ++ [(t, .call op)]) t H.length op := by
  refine ⟨by simp, ?_⟩
  intro j b hj hb
  rcases History.getElem?_snoc hb with hb | ⟨hj', -⟩
  · have := (List.getElem?_eq_some_iff.mp hb).1
    omega
  · omega

theorem History.Open.not_returns (h : H.Open t i op) : ¬ H.Returns i j res := by
  rintro ⟨hij, u, op', hi, hj, -⟩
  rw [h.1] at hi
  obtain ⟨rfl, -⟩ := Prod.mk.inj (Option.some.inj hi)
  exact h.2 j _ hij hj

theorem History.Open.unique {op' : Op} (h : H.Open t i op) (h' : H.Open t j op') : i = j := by
  by_contra hne
  rcases Nat.lt_or_gt_of_ne hne with hij | hij
  · exact h.2 j _ hij h'.1
  · exact h'.2 i _ hij h.1

theorem History.returns_snoc (h : History.Returns (H ++ [(u, a)]) i j res) :
    H.Returns i j res ∨ j = H.length ∧ a = .ret res ∧ ∃ op, H.Open u i op := by
  obtain ⟨hij, t, op, hi, hj, hno⟩ := h
  rcases History.getElem?_snoc hj with hj | ⟨rfl, hl⟩
  · have hlt : j < H.length := (List.getElem?_eq_some_iff.mp hj).1
    have hi' : H[i]? = some (t, .call op) := by rwa [List.getElem?_append_left (hij.trans hlt)] at hi
    exact .inl ⟨hij, t, op, hi', hj, fun k b hik hkj hk => hno k b hik hkj (History.getElem?_mono hk)⟩
  · obtain ⟨rfl, rfl⟩ := Prod.mk.inj hl
    have hi' : H[i]? = some (u, .call op) := by rwa [List.getElem?_append_left hij] at hi
    refine .inr ⟨rfl, rfl, op, hi', ?_⟩
    intro k b hik hk
    exact hno k b hik (List.getElem?_eq_some_iff.mp hk).1 (History.getElem?_mono hk)

/-- No call is made in the history after its last event returns. -/
theorem History.precedes_snoc {i' : ℕ} {op : Op} (h : History.Precedes (H ++ [(u, a)]) i i')
    (hi' : H[i']? = some (t, .call op)) : H.Precedes i i' := by
  obtain ⟨j, res, hr, hj⟩ := h
  rcases History.returns_snoc hr with hr | ⟨rfl, -, -⟩
  · exact ⟨j, res, hr, hj⟩
  · have := (List.getElem?_eq_some_iff.mp hi').1
    omega

end Append

/-! ## Longer sequences -/

section Sequences

variable {O : SeqObject S Op Res} {H : History θ Op Res} {lin : List (Entry Op Res)} {t : θ} {i : ℕ}
  {op : Op} {res : Res}

theorem linearization_nil : Linearization O ([] : History θ Op Res) [] where
  called := by simp
  once := List.nodup_nil
  returned i j res h := by
    obtain ⟨-, t, op, hi, -⟩ := h
    simp at hi
  order := .nil
  legal := ⟨_, .nil⟩

/-- A new call may wait for its place in the sequence. -/
theorem Linearization.call (h : Linearization O H lin) (t : θ) (op : Op) :
    Linearization O (H ++ [(t, .call op)]) lin where
  called e he := (h.called e he).imp fun _ => History.getElem?_mono
  once := h.once
  returned i j res hr := by
    rcases History.returns_snoc hr with hr | ⟨-, ha, -⟩
    · exact h.returned i j res hr
    · cases ha
  order := h.order.imp_of_mem fun {e e'} he _ hno hp => by
    obtain ⟨u, hu⟩ := h.called e he
    exact hno (History.precedes_snoc hp hu)
  legal := h.legal

/-- An open call may be put at the end of the sequence. -/
theorem Linearization.perform (h : Linearization O H lin) (ho : H.Open t i op)
    (hi : i ∉ lin.map Entry.pos) {s s' : S} (hl : O.Legal O.initial (answers lin) s)
    (hp : O.Perform s op res s') : Linearization O H (lin ++ [⟨i, op, res⟩]) where
  called e he := by
    rcases List.mem_append.mp he with he | he
    · exact h.called e he
    · obtain rfl := List.mem_singleton.mp he
      exact ⟨t, ho.1⟩
  once := by
    rw [List.map_append, List.map_singleton, List.nodup_append]
    refine ⟨h.once, List.nodup_singleton _, ?_⟩
    rintro x hx y hy rfl
    rw [List.mem_singleton.mp hy] at hx
    exact hi hx
  returned i' j res' hr := by
    obtain ⟨e, he, hpos⟩ := h.returned i' j res' hr
    exact ⟨e, List.mem_append_left _ he, hpos⟩
  -- `op` has not returned, so nothing was called after its return
  order := by
    rw [List.pairwise_append]
    refine ⟨h.order, List.pairwise_singleton _ _, ?_⟩
    rintro e - e' he' ⟨j, res', hr, -⟩
    obtain rfl := List.mem_singleton.mp he'
    exact ho.not_returns hr
  legal := ⟨s', by simpa [answers] using hl.snoc hp⟩

/-- A call in the sequence may return its answer. -/
theorem Linearization.ret (h : Linearization O H lin) (ho : H.Open t i op) (hi : ⟨i, op, res⟩ ∈ lin) :
    Linearization O (H ++ [(t, .ret res)]) lin where
  called e he := (h.called e he).imp fun _ => History.getElem?_mono
  once := h.once
  returned i' j res' hr := by
    rcases History.returns_snoc hr with hr | ⟨-, ha, op', ho'⟩
    · exact h.returned i' j res' hr
    · cases ha
      exact ⟨_, hi, ho.unique ho', rfl⟩
  order := h.order.imp_of_mem fun {e e'} he _ hno hp => by
    obtain ⟨u, hu⟩ := h.called e he
    exact hno (History.precedes_snoc hp hu)
  legal := h.legal

end Sequences

/-! ## Implementations -/

section Implements

/-- How far the call of a thread has come: there is none, it has been made, or it has been carried
out. -/
inductive Stage (Op Res : Type)
  | idle
  | pending (op : Op)
  | performed (op : Op) (res : Res)

/-- What a step of a thread is for the object. -/
inductive SeqObject.Does (O : SeqObject S Op Res) (s : S) :
    Stage Op Res → Option (Interaction Op Res) → S → Stage Op Res → Prop
  | call (op : Op) : Does O s .idle (some (.call op)) s (.pending op)
  | perform {op : Op} {res : Res} {s' : S} (h : O.Perform s op res s') :
      Does O s (.pending op) none s' (.performed op res)
  | ret {op : Op} {res : Res} : Does O s (.performed op res) (some (.ret res)) s .idle
  | silent {st : Stage Op Res} : Does O s st none s st

/-- The threads implement the object. -/
structure Implements (R : Rules σ Ev Pc) (O : SeqObject S Op Res) where
  state : σ → S
  stage : (t : θ) → Pc t → Stage Op Res
  action : Ev → Option (Interaction Op Res)
  does : ∀ t m p ev m' p', R t m p ev m' p' →
    O.Does (state m) (stage t p) (action ev) (state m') (stage t p')

variable {R : Rules σ Ev Pc} {O : SeqObject S Op Res}

/-- What the callers see of a log. -/
def Implements.history (I : Implements R O) (log : List (θ × Ev)) : History θ Op Res :=
  log.filterMap fun l => (I.action l.2).map (Prod.mk l.1)

/-- The call in progress, if any, is open in the history, and in the sequence once carried out. -/
def Stage.Agrees (H : History θ Op Res) (lin : List (Entry Op Res)) (t : θ) : Stage Op Res → Prop
  | .idle => True
  | .pending op => ∃ i, H.Open t i op ∧ i ∉ lin.map Entry.pos
  | .performed op res => ∃ i, H.Open t i op ∧ ⟨i, op, res⟩ ∈ lin

/-- A sequence for what has happened so far, which leaves the object in the state it is in. -/
structure Implements.Linearized [DecidableEq θ] (I : Implements R O) (H : History θ Op Res)
    (c : Config σ Pc) (lin : List (Entry Op Res)) : Prop where
  linearization : Linearization O H lin
  legal : O.Legal O.initial (answers lin) (I.state c.shared)
  agrees : ∀ t, (I.stage t (c.pc t)).Agrees H lin t

variable {H : History θ Op Res} {lin : List (Entry Op Res)} {t u : θ} {st : Stage Op Res}

theorem Stage.Agrees.snoc {a : Interaction Op Res} (h : st.Agrees H lin t) (hu : u ≠ t) :
    st.Agrees (H ++ [(u, a)]) lin t := by
  cases st with
  | idle => trivial
  | pending op =>
    obtain ⟨i, ho, hi⟩ := h
    exact ⟨i, ho.snoc hu, hi⟩
  | performed op res =>
    obtain ⟨i, ho, hi⟩ := h
    exact ⟨i, ho.snoc hu, hi⟩

theorem Stage.Agrees.perform {i : ℕ} {op : Op} {res : Res} (h : st.Agrees H lin t)
    (ho : H.Open u i op) (hu : u ≠ t) : st.Agrees H (lin ++ [⟨i, op, res⟩]) t := by
  cases st with
  | idle => trivial
  | pending op' =>
    obtain ⟨j, ho', hj⟩ := h
    refine ⟨j, ho', ?_⟩
    intro hm
    rw [List.map_append, List.mem_append] at hm
    rcases hm with hm | hm
    · exact hj hm
    · obtain rfl : j = i := List.mem_singleton.mp hm
      have := ho.1.symm.trans ho'.1
      exact hu (congrArg Prod.fst (Option.some.inj this))
  | performed op' res' =>
    obtain ⟨j, ho', hj⟩ := h
    exact ⟨j, ho', List.mem_append_left _ hj⟩

variable [DecidableEq θ]

theorem Implements.linearized_step (I : Implements R O) {c : Config σ Pc} {ev : Ev} {m : σ} {p : Pc t}
    (h : I.Linearized H c lin) (hr : R t c.shared (c.pc t) ev m p) :
    ∃ lin', I.Linearized (H ++ I.history [(t, ev)]) ⟨m, Function.update c.pc t p⟩ lin' := by
  obtain ⟨hlin, hlegal, hagrees⟩ := h
  have hdoes := I.does _ _ _ _ _ _ hr
  have hat := hagrees t
  -- the stages of all threads, from that of `t` and those of the others
  have hall : ∀ H' lin', (I.stage t p).Agrees H' lin' t →
      (∀ u, u ≠ t → (I.stage u (c.pc u)).Agrees H' lin' u) →
      ∀ u, (I.stage u (Function.update c.pc t p u)).Agrees H' lin' u := fun H' lin' ht hu =>
    (Function.forall_update_iff c.pc fun u q => (I.stage u q).Agrees H' lin' u).mpr ⟨ht, hu⟩
  generalize hst : I.stage t (c.pc t) = st at hdoes hat
  generalize hst' : I.stage t p = st' at hdoes
  generalize hact : I.action ev = act at hdoes
  generalize hs' : I.state m = s' at hdoes
  have hH : I.history [(t, ev)] = act.toList.map (Prod.mk t) := by
    rw [history, List.filterMap_cons, hact]
    cases act <;> rfl
  rw [hH]
  cases hdoes with
  | call op =>
    refine ⟨lin, hlin.call t op, by rwa [hs'], hall _ _ ?_ fun u hu => (hagrees u).snoc (Ne.symm hu)⟩
    rw [hst']
    refine ⟨H.length, History.open_snoc, ?_⟩
    intro hm
    obtain ⟨e, he, hpos⟩ := List.mem_map.mp hm
    obtain ⟨u, hu⟩ := hlin.called e he
    have := (List.getElem?_eq_some_iff.mp hu).1
    omega
  -- here the call takes effect, so it goes to the end of the sequence
  | @perform op res s' hp =>
    obtain ⟨i, ho, hi⟩ := hat
    rw [Option.toList_none, List.map_nil, List.append_nil]
    refine ⟨lin ++ [⟨i, op, res⟩], hlin.perform ho hi hlegal hp, ?_,
      hall _ _ ?_ fun u hu => (hagrees u).perform ho (Ne.symm hu)⟩
    · rw [hs']
      simpa [answers] using hlegal.snoc hp
    · rw [hst']
      exact ⟨i, ho, List.mem_append_right _ (List.mem_singleton_self _)⟩
  | @ret op res =>
    obtain ⟨i, ho, hi⟩ := hat
    refine ⟨lin, hlin.ret ho hi, by rwa [hs'], hall _ _ ?_ fun u hu => (hagrees u).snoc (Ne.symm hu)⟩
    rw [hst']
    trivial
  | silent =>
    rw [Option.toList_none, List.map_nil, List.append_nil]
    refine ⟨lin, hlin, by rwa [hs'], hall _ _ ?_ fun u _ => hagrees u⟩
    rw [hst']
    exact hat

/-- **Linearizability**: from a configuration with the object in its initial state and no call in
progress, every run of an implementation has a linearizable history. -/
theorem Implements.linearizes (I : Implements R O) {c c' : Config σ Pc} {log : List (θ × Ev)}
    (h : Run R c log c') (hs : I.state c.shared = O.initial) (hidle : ∀ t, I.stage t (c.pc t) = .idle) :
    Linearizable O (I.history log) := by
  suffices hlin : ∃ lin, I.Linearized (I.history log) c' lin from
    hlin.imp fun lin hlin => hlin.linearization
  refine h.induct (I := fun log d => ∃ lin, I.Linearized (I.history log) d lin) ?_ ?_
  · refine ⟨[], linearization_nil, by rw [hs]; exact .nil, ?_⟩
    intro t
    rw [hidle]
    trivial
  · rintro log d t ev m p - ⟨lin, hlin⟩ hr
    have := I.linearized_step hlin hr
    simpa [history] using this

end Implements

end Interleaving
