import TaskEngine.Pool.Books
import TaskEngine.Pool.Join

/-!
# TaskEngine.Pool.Promises — every promise is set exactly once

A submitted envelope is in one place until its promise is set, and then it is fulfilled
(`placement`).  So no promise is set twice, and as an envelope is only destroyed once it has been
fulfilled, none is broken: the heap is what the fulfilments of the log say (`promises_eq`).

`fulfilled_exactly_once` is the contract of the pool: wherever its threads have got to, and when
they have all come to an end.
-/

namespace TaskEngine

open Interleaving

namespace ThreadPool

variable {W : ℕ} {ι : Type}

/-! ## Fulfilments -/

section Fulfilments

/-- The `set_value` of a step, with its promise's envelope. -/
def Event.fulfilment : Event W → List (TaskEnvelope × TaskResult)
  | .fulfil e r | .reject e r | .discard e r => [(e, r)]
  | _ => []

attribute [simp] Event.fulfilment.eq_1 Event.fulfilment.eq_2 Event.fulfilment.eq_3
  Event.fulfilment.eq_4

/-- The calls of `set_value`, in their order. -/
abbrev fulfilments (log : List (Thread W ι × Event W)) : List (TaskEnvelope × TaskResult) :=
  collect Event.fulfilment log

/-- The envelopes whose `set_value` has been called. -/
def fulfilled (log : List (Thread W ι × Event W)) : List TaskEnvelope := (fulfilments log).map Prod.fst

@[simp] theorem fulfilled_nil : fulfilled ([] : List (Thread W ι × Event W)) = [] := rfl

@[simp] theorem fulfilled_append (l₁ l₂ : List (Thread W ι × Event W)) :
    fulfilled (l₁ ++ l₂) = fulfilled l₁ ++ fulfilled l₂ := by
  simp [fulfilled]

theorem fulfilled_singleton (l : Thread W ι × Event W) :
    fulfilled [l] = l.2.fulfilment.map Prod.fst := by
  simp [fulfilled]

theorem fulfilled_eq (log : List (Thread W ι × Event W)) :
    (fulfilled log : Multiset TaskEnvelope) =
      reached .fulfil log + refusals .fulfil log + discards .fulfil log := by
  induction log with
  | nil => simp
  | cons l log ih =>
    have hev : (fulfilled [l] : Multiset TaskEnvelope) =
        ↑(l.2.reached .fulfil) + ↑(l.2.refusal .fulfil) + ↑(l.2.discarded .fulfil) := by
      rw [fulfilled_singleton]
      cases l.2 <;> simp
    rw [← List.singleton_append, fulfilled_append, ← Multiset.coe_add, ih, hev]
    simp only [reached, refusals, discards, List.singleton_append, collect_cons, ← Multiset.coe_add]
    abel

theorem mem_fulfilled {log : List (Thread W ι × Event W)} {e : TaskEnvelope} :
    e ∈ fulfilled log ↔
      e ∈ reached .fulfil log ∨ e ∈ refusals .fulfil log ∨ e ∈ discards .fulfil log := by
  rw [← Multiset.mem_coe, fulfilled_eq]
  simp only [Multiset.mem_add, Multiset.mem_coe, or_assoc]

end Fulfilments

/-! ## One place for each envelope -/

section Placement

variable [Fintype ι] [DecidableEq ι] {capacity : ℕ}
  {c : System W ι} {log : List (Thread W ι × Event W)}

/-- **Placement**: what was submitted is held by a `submit`, queued, held by a worker, in a discard
list, or fulfilled. -/
theorem placement (h : Run (rules capacity) init log c) :
    (pendingAll c + refusingAll .fulfil c) + c.shared.queue.items + workingAll .fulfil c +
      discardingAll .fulfil c + fulfilled log = (submitted log : Multiset TaskEnvelope) := by
  rw [← submitting_from_init h, ← refusing_from_init .fulfil h, ← queue_from_init h, ← Multiset.coe_add,
    ← Multiset.coe_add, ← working_from_init .fulfil h, ← discarding_from_init .fulfil h, fulfilled_eq]
  abel

end Placement

/-! ## What a step does to the heap -/

section Heap

/-- What `shutdown_now` still owns while it joins. -/
def Caller.discarded : Caller → List TaskEnvelope
  | .close _ => []
  | .shutdown_now discarded => discarded

/-- What the end of a call that joined destroys. -/
def Caller.released (m : ThreadPool W ι) : Caller → List TaskEnvelope
  | .close .shutdown => []
  | .close .destructor => m.queue.items
  | .shutdown_now discarded => discarded

/-- What a thread destroys on leaving its place. -/
def released : (t : Thread W ι) → ThreadPool W ι → Pc t → List TaskEnvelope
  | .inl _, _, .recording e _ => [e]
  | .inr _, _, .counting e => [e]
  | .inr _, m, .joining k .done => k.released m
  | _, _, _ => []

/-- What a thread holds past its fulfilment. -/
def settled : (t : Thread W ι) → Pc t → List TaskEnvelope
  | .inl _, .recording e _ => [e]
  | .inr _, .counting e => [e]
  | .inr _, .discarding _ rejected _ => rejected
  | .inr _, .joining k _ => k.discarded
  | _, _ => []

/-- The three things that a step may do to the heap: allocate a promise, set one, or destroy
envelopes. -/
inductive HeapStep (t : Thread W ι) (m : ThreadPool W ι) (p : Pc t) (ev : Event W)
    (m' : ThreadPool W ι) : Prop
  | allocate (e : TaskEnvelope) (hev : ev.submitted = [e] ∧ ev.fulfilment = [])
      (he : e.promise = m.promises.length) (hp : m'.promises = m.promises ++ [.unset])
      (ht : m'.terminated = m.terminated)
  | set (e : TaskEnvelope) (r : TaskResult) (hev : ev.submitted = [] ∧ ev.fulfilment = [(e, r)])
      (hp : m'.promises = (m.fulfil e r).promises) (ht : m'.terminated = (m.fulfil e r).terminated)
  | release (hev : ev.submitted = [] ∧ ev.fulfilment = [])
      (hp : m'.promises = (released t m p).foldl destroy m.promises)
      (ht : m'.terminated = m.terminated)

variable [DecidableEq ι] {capacity : ℕ} {t : Thread W ι} {m m' : ThreadPool W ι} {p p' : Pc t}
  {ev : Event W}

theorem rule_heap (h : rules capacity t m p ev m' p') : HeapStep t m p ev m' := by
  rcases t with w | i
  · cases (h : WorkerRule w _ _ _ _ _) with
    | fulfil => exact .set _ _ ⟨rfl, rfl⟩ rfl rfl
    | _ => exact .release ⟨rfl, rfl⟩ rfl rfl
  · cases (h : ClientRule capacity i _ _ _ _ _) with
    | submit e _ he => exact .allocate e ⟨rfl, rfl⟩ he rfl rfl
    | reject _ => exact .set _ _ ⟨rfl, rfl⟩ rfl rfl
    | discard => exact .set _ _ ⟨rfl, rfl⟩ rfl rfl
    | join h => cases h <;> exact .release ⟨rfl, rfl⟩ rfl rfl
    | @leave k => rcases k with (_ | _) | _ <;> exact .release ⟨rfl, rfl⟩ rfl rfl
    | _ => exact .release ⟨rfl, rfl⟩ rfl rfl

/-- What is settled stays so: a step that takes up an envelope to settle has fulfilled it. -/
theorem rule_settled (h : rules capacity t m p ev m' p') :
    ∀ e ∈ settled t p', e ∈ settled t p ∨ e ∈ ev.fulfilment.map Prod.fst := by
  rcases t with w | i
  · cases (h : WorkerRule w _ _ _ _ _) <;> simp [settled]
  · cases (h : ClientRule capacity i _ _ _ _ _) with
    | join _ => exact fun e he => .inl he
    | count => simp [settled, Caller.discarded]
    | closed => simp [settled, Caller.discarded]
    | discard => simp [settled, or_comm]
    | _ => simp [settled]

end Heap

/-! ## What holds of the heap in every reachable configuration -/

section Reachable

variable [Fintype ι] [DecidableEq ι] {capacity : ℕ}
  {c : System W ι} {log : List (Thread W ι × Event W)}

omit [Fintype ι] in
/-- The promises are those of the submitted envelopes, in the order of their submission. -/
theorem promises_of_submitted (h : Run (rules capacity) init log c) :
    (submitted log).map (·.promise) = List.range c.shared.promises.length := by
  refine h.induct (I := fun log d =>
    (submitted log).map (·.promise) = List.range d.shared.promises.length) (by simp [init, fresh]) ?_
  intro log d t ev m p _ ih hr
  cases rule_heap hr with
  | allocate e hev he hp _ => simp [hev.1, hp, ih, he, List.range_succ]
  | set e r hev hp _ =>
    rw [hp]
    unfold fulfil
    split
    · next h => simp [hev.1, ih, set_value_length h]
    · simp [hev.1, ih]
  | release hev hp _ => simp [hev.1, hp, ih]

omit [Fintype ι] in
/-- The `k`-th promise is that of the `k`-th submission. -/
theorem promises_map (h : Run (rules capacity) init log c) {β : Type} {g : Promise → β}
    {f : TaskEnvelope → β}
    (hf : ∀ e ∈ submitted log, ∃ p, c.shared.promises[e.promise]? = some p ∧ g p = f e) :
    c.shared.promises.map g = (submitted log).map f := by
  refine List.ext_getElem? ?_
  intro k
  have hk := congrArg (fun l => l[k]?) (promises_of_submitted h)
  simp only [List.getElem?_map] at hk ⊢
  cases he : (submitted log)[k]? with
  | none =>
    rw [he] at hk
    have hlen := List.getElem?_eq_none_iff.mp hk.symm
    rw [List.length_range] at hlen
    simp [List.getElem?_eq_none_iff.mpr hlen]
  | some e =>
    rw [he] at hk
    obtain ⟨hlt, hprom⟩ := List.getElem?_eq_some_iff.mp hk.symm
    rw [List.getElem_range] at hprom
    obtain ⟨p, hp, hg⟩ := hf e (List.mem_of_getElem? he)
    rw [hprom, hp, Option.map_some, Option.map_some, hg]

omit [Fintype ι] in
theorem submitted_nodup (h : Run (rules capacity) init log c) :
    ((submitted log).map (·.promise)).Nodup := by
  rw [promises_of_submitted h]
  exact List.nodup_range

/-- What is held before its fulfilment was submitted and is not fulfilled. -/
theorem unfulfilled_of_held (h : Run (rules capacity) init log c) {e : TaskEnvelope}
    (he : e ∈ (pendingAll c + refusingAll .fulfil c) + c.shared.queue.items + workingAll .fulfil c +
      discardingAll .fulfil c) : e ∈ submitted log ∧ e ∉ fulfilled log := by
  have hn : (submitted log : Multiset TaskEnvelope).Nodup :=
    Multiset.coe_nodup.mpr (submitted_nodup h).of_map
  have hmem : e ∈ (submitted log : Multiset TaskEnvelope) := by
    rw [← placement h]
    exact Multiset.mem_add.mpr (.inl he)
  rw [← placement h, Multiset.nodup_add] at hn
  exact ⟨hmem, fun hf => Multiset.disjoint_left.mp hn.2.2 he hf⟩

theorem fulfilled_le (h : Run (rules capacity) init log c) :
    (fulfilled log : Multiset TaskEnvelope) ≤ submitted log := by
  rw [← placement h]
  exact le_add_self

/-- `set_value` is called at most once on every promise. -/
theorem fulfilled_nodup (h : Run (rules capacity) init log c) :
    ((fulfilled log).map (·.promise)).Nodup := by
  have hle := Multiset.map_le_map (f := (·.promise)) (fulfilled_le h)
  exact Multiset.coe_nodup.mp (Multiset.nodup_of_le hle (submitted_nodup h))

omit [Fintype ι] in
theorem settled_fulfilled (h : Run (rules capacity) init log c) :
    ∀ t, ∀ e ∈ settled t (c.pc t), e ∈ fulfilled log := by
  refine h.induct (I := fun log d => ∀ t, ∀ e ∈ settled t (d.pc t), e ∈ fulfilled log) ?_ ?_
  · rintro (w | i) e he <;> simp [settled, init] at he
  · intro log d t ev m p _ ih hr u e he
    rw [fulfilled_append, fulfilled_singleton]
    by_cases hu : u = t
    · subst hu
      rcases rule_settled hr e (by simpa using he) with h | h
      · exact List.mem_append_left _ (ih u e h)
      · exact List.mem_append_right _ h
    · exact List.mem_append_left _ (ih u e (by simpa [Function.update_of_ne hu] using he))

omit [Fintype ι] in
/-- What a thread is about to destroy has been fulfilled: past the join no envelope is queued. -/
theorem released_fulfilled (hW : 0 < W) (h : Run (rules capacity) init log c) (t : Thread W ι) :
    ∀ e ∈ released t c.shared (c.pc t), e ∈ fulfilled log := by
  intro e he
  refine settled_fulfilled h t e ?_
  rcases t with w | i
  · generalize c.pc (.inl w) = p at he
    cases p <;> simp [released] at he
    simpa [settled] using he
  · generalize hp : c.pc (.inr i) = p at he
    rcases p with _ | _ | _ | _ | _ | _ | ⟨(_ | _) | ds, _ | _ | _⟩ <;>
      simp [released, Caller.released] at he
    · simpa [settled] using he
    · rw [(exited_of_joined hW h (joined_of_done h hp)).1.2] at he
      simp at he
    · simpa [settled, Caller.discarded] using he

/-- The heap, as far as the log tells: every promise is unset or holds what its `set_value` put. -/
structure Honest (log : List (Thread W ι × Event W)) (m : ThreadPool W ι) : Prop where
  value : ∀ f ∈ fulfilments log, m.promises[f.1.promise]? = some (.value f.2)
  unset : ∀ e ∈ submitted log, e ∉ fulfilled log → m.promises[e.promise]? = some .unset
  terminated : m.terminated = false

theorem honest (hW : 0 < W) (h : Run (rules capacity) init log c) : Honest log c.shared := by
  refine h.induct (I := fun log d => Honest log d.shared) ⟨by simp, by simp, rfl⟩ ?_
  intro log d t ev m p hrun ih hr
  have hrun' := hrun.tail (.mk hr)
  cases rule_heap hr with
  | allocate e hev he hp ht =>
    refine ⟨?_, ?_, by rw [ht]; exact ih.terminated⟩
    · intro f hf
      have hv := ih.value f (by simpa [hev.2] using hf)
      rw [hp, List.getElem?_append_left (List.getElem?_eq_some_iff.mp hv).1, hv]
    · intro e' he' hne
      rcases List.mem_append.mp (by simpa [hev.1] using he' : e' ∈ submitted log ++ [e]) with he' | he'
      · have hu := ih.unset e' he' (by simpa [fulfilled_singleton, hev.2] using hne)
        rw [hp, List.getElem?_append_left (List.getElem?_eq_some_iff.mp hu).1, hu]
      · rw [List.mem_singleton.mp he', hp, he]
        simp
  | set e r hev hp ht =>
    -- before this step `e` was submitted and not yet fulfilled, so its promise is unset
    have hnodup := fulfilled_nodup hrun'
    have hsub : e ∈ submitted log := by
      have := Multiset.mem_of_le (fulfilled_le hrun') (a := e)
        (by simp [fulfilled_singleton, hev.2])
      simpa [hev.1] using this
    simp only [fulfilled_append, fulfilled_singleton, hev.2, List.map_append, List.map_cons,
      List.map_nil, List.nodup_append, List.mem_singleton, forall_eq] at hnodup
    have hother : ∀ e' ∈ fulfilled log, e'.promise ≠ e.promise :=
      fun e' he' => hnodup.2.2 _ (List.mem_map_of_mem he')
    have hu := ih.unset e hsub fun he => hother e he rfl
    rw [fulfil, set_value_of_unset r hu] at hp ht
    refine ⟨?_, ?_, by rw [ht]; exact ih.terminated⟩
    · intro f hf
      rcases List.mem_append.mp (by simpa [hev.2] using hf : f ∈ fulfilments log ++ [(e, r)]) with hf | hf
      · rw [hp, List.getElem?_set_ne (Ne.symm (hother f.1 (List.mem_map_of_mem hf))), ih.value f hf]
      · rw [List.mem_singleton.mp hf, hp, List.getElem?_set_self (List.getElem?_eq_some_iff.mp hu).1]
    · intro e' he' hne
      have he' : e' ∈ submitted log := by simpa [hev.1] using he'
      simp only [fulfilled_append, fulfilled_singleton, hev.2, List.map_cons, List.map_nil,
        List.mem_append, List.mem_singleton, not_or] at hne
      have hpr : e.promise ≠ e'.promise := fun heq =>
        hne.2 (List.inj_on_of_nodup_map (submitted_nodup hrun) he' hsub heq.symm)
      rw [hp, List.getElem?_set_ne hpr, ih.unset e' he' hne.1]
  -- only fulfilled envelopes are destroyed, which breaks no promise
  | release hev hp ht =>
    have hkeep : m.promises = d.shared.promises := by
      rw [hp]
      apply foldl_destroy_of_value
      intro e he
      obtain ⟨f, hf, rfl⟩ := List.mem_map.mp (released_fulfilled hW hrun t e he)
      exact ⟨f.2, ih.value f hf⟩
    refine ⟨?_, ?_, by rw [ht]; exact ih.terminated⟩
    · intro f hf
      rw [hkeep]; exact ih.value f (by simpa [hev.2] using hf)
    · intro e he hne
      rw [hkeep]
      exact ih.unset e (by simpa [hev.1] using he) (by simpa [fulfilled_singleton, hev.2] using hne)

/-- Every promise is that of a submission, and holds what has been put there, or nothing yet. -/
theorem promise_cases (hW : 0 < W) (h : Run (rules capacity) init log c) {k : ℕ}
    (hk : k < c.shared.promises.length) :
    ∃ e ∈ submitted log, e.promise = k ∧
      (c.shared.promises[k]? = some .unset ∨
        ∃ r, (e, r) ∈ fulfilments log ∧ c.shared.promises[k]? = some (.value r)) := by
  obtain ⟨e, he, rfl⟩ : ∃ e ∈ submitted log, e.promise = k :=
    List.mem_map.mp (by rw [promises_of_submitted h]; exact List.mem_range.mpr hk)
  refine ⟨e, he, rfl, ?_⟩
  by_cases hf : e ∈ fulfilled log
  · obtain ⟨f, hmem, rfl⟩ := List.mem_map.mp hf
    exact .inr ⟨f.2, hmem, (honest hW h).value f hmem⟩
  · exact .inl ((honest hW h).unset e he hf)

/-- What the heap holds is what has been put there. -/
theorem value_iff (hW : 0 < W) (h : Run (rules capacity) init log c) {k : ℕ} {r : TaskResult} :
    c.shared.promises[k]? = some (.value r) ↔ ∃ e, (e, r) ∈ fulfilments log ∧ e.promise = k := by
  constructor
  · intro hk
    obtain ⟨e, -, rfl, hunset | ⟨r', hf, hr'⟩⟩ := promise_cases hW h (List.getElem?_eq_some_iff.mp hk).1
    · rw [hunset] at hk
      cases hk
    · rw [hr'] at hk
      cases hk
      exact ⟨e, hf, rfl⟩
  · rintro ⟨e, hf, rfl⟩
    exact (honest hW h).value (e, r) hf

omit [Fintype ι] in
/-- A client inside `push` has there the envelope that it was called with. -/
theorem push_value (h : Run (rules capacity) init log c) {i : ι}
    {p : BlockingQueue.PushPc TaskEnvelope} (hp : c.pc (.inr i) = .pushing p) :
    ∃ l₁ l₂, log = l₁ ++ (.inr i, .submit p.value) :: l₂ ∧
      ∀ l ∈ l₂, l.1 = .inr i → l.2.submitted = [] := by
  revert p
  refine h.induct (I := fun log d => ∀ {p}, d.pc (.inr i) = .pushing p →
    ∃ l₁ l₂, log = l₁ ++ (.inr i, .submit p.value) :: l₂ ∧
      ∀ l ∈ l₂, l.1 = .inr i → l.2.submitted = []) (by simp [init]) ?_
  intro log d t ev m p' _ ih hr p hp
  by_cases ht : t = .inr i
  · subst ht
    simp only [Function.update_self] at hp
    subst hp
    generalize hd : d.pc (.inr i) = old at hr
    cases (hr : ClientRule capacity i _ _ _ _ _) with
    | submit e _ _ => exact ⟨log, [], rfl, by simp⟩
    | push h =>
      obtain ⟨l₁, l₂, hlog, hl₂⟩ := ih hd
      refine ⟨l₁, l₂ ++ [_], by rw [hlog, h.effect.1, List.append_assoc]; rfl, ?_⟩
      intro l hl hli
      rcases List.mem_append.mp hl with hl | hl
      · exact hl₂ l hl hli
      · rw [List.mem_singleton.mp hl]; rfl
  · obtain ⟨l₁, l₂, hlog, hl₂⟩ := ih (by simpa [Function.update_of_ne (Ne.symm ht)] using hp)
    refine ⟨l₁, l₂ ++ [(t, ev)], by rw [hlog, List.append_assoc]; rfl, ?_⟩
    intro l hl hli
    rcases List.mem_append.mp hl with hl | hl
    · exact hl₂ l hl hli
    · rw [List.mem_singleton.mp hl] at hli
      exact absurd hli ht

omit [Fintype ι] in
/-- A `set_value` of a worker passes a result of its task's run. -/
theorem rule_ran {t : Thread W ι} {m m' : ThreadPool W ι} {p p' : Pc t} {ev : Event W}
    (h : rules capacity t m p ev m' p') {e : TaskEnvelope} (he : e ∈ ev.reached .fulfil) :
    ∃ dequeued finished, (e, e.result dequeued finished) ∈ ev.fulfilment := by
  rcases t with w | i
  · cases (h : WorkerRule w _ _ _ _ _) <;> simp at he
    subst he
    exact ⟨_, _, List.mem_singleton.mpr rfl⟩
  · cases (h : ClientRule capacity i _ _ _ _ _) with
    | join h => cases h <;> simp at he
    | _ => simp at he

omit [Fintype ι] in
/-- A `set_value` of a client passes a rejection. -/
theorem rule_rejected {t : Thread W ι} {m m' : ThreadPool W ι} {p p' : Pc t} {ev : Event W}
    (h : rules capacity t m p ev m' p') {e : TaskEnvelope}
    (he : e ∈ ev.refusal .fulfil ∨ e ∈ ev.discarded .fulfil) :
    ∃ finished, (e, e.rejection finished) ∈ ev.fulfilment := by
  rcases t with w | i
  · cases (h : WorkerRule w _ _ _ _ _) <;> simp at he
  · cases (h : ClientRule capacity i _ _ _ _ _) with
    | join h => cases h <;> simp at he
    | reject _ =>
      obtain rfl := by simpa using he
      exact ⟨_, List.mem_singleton.mpr rfl⟩
    | discard =>
      obtain rfl := by simpa using he
      exact ⟨_, List.mem_singleton.mpr rfl⟩
    | _ => simp at he

theorem value_of_ran (hW : 0 < W) (h : Run (rules capacity) init log c) {e : TaskEnvelope}
    (he : e ∈ reached .fulfil log) : ∃ dequeued finished,
      c.shared.promises[e.promise]? = some (.value (e.result dequeued finished)) := by
  obtain ⟨l, hl, he⟩ := (mem_collect _).mp he
  obtain ⟨m, p, m', p', hr⟩ := h.event l hl
  obtain ⟨d, f, hf⟩ := rule_ran hr he
  exact ⟨d, f, (honest hW h).value _ ((mem_collect _).mpr ⟨l, hl, hf⟩)⟩

theorem value_of_rejected (hW : 0 < W) (h : Run (rules capacity) init log c) {e : TaskEnvelope}
    (he : e ∈ refusals .fulfil log ∨ e ∈ discards .fulfil log) : ∃ finished,
      c.shared.promises[e.promise]? = some (.value (e.rejection finished)) := by
  obtain ⟨l, hl, he⟩ : ∃ l ∈ log, e ∈ l.2.refusal .fulfil ∨ e ∈ l.2.discarded .fulfil := by
    rcases he with he | he <;> obtain ⟨l, hl, he⟩ := (mem_collect _).mp he
    · exact ⟨l, hl, .inl he⟩
    · exact ⟨l, hl, .inr he⟩
  obtain ⟨m, p, m', p', hr⟩ := h.event l hl
  obtain ⟨f, hf⟩ := rule_rejected hr he
  exact ⟨f, (honest hW h).value _ ((mem_collect _).mpr ⟨l, hl, hf⟩)⟩

omit [Fintype ι] in
/-- With every client idle and every worker exited, nothing is left in the queue. -/
theorem exhausted_of_exited (hW : 0 < W) (h : Run (rules capacity) init log c)
    (hw : ∀ w, c.pc (.inl w) = .exited) : c.shared.Exhausted :=
  (joins h).1.finished_exhausted ⟨0, hW⟩
    ((WorkerPc.Joins.finished ((joins h).2 (.inl ⟨0, hW⟩))).mpr (hw _))

end Reachable

/-! ## The contract -/

section Contract

variable [Fintype ι] [DecidableEq ι] {capacity : ℕ}
  {c : System W ι} {log : List (Thread W ι × Event W)}

/-- **Exactly-once fulfilment.**  In every reachable configuration each submitted envelope is in one
place: with the `submit` that holds it, queued, with one worker, in one discard list, or fulfilled;
no `set_value` is repeated, and none has thrown; no promise is broken, and a refused envelope is the
one that `submit` was called with, its promise unset.  With all calls returned and all workers
exited, each promise has been set once, to a terminal result with the envelope's own id. -/
theorem fulfilled_exactly_once (hW : 0 < W) (h : Run (rules capacity) init log c) :
    (∀ e ∈ submitted log,
      ∑ i, (ClientPc.pending (c.pc (.inr i)) + ClientPc.refusal .fulfil (c.pc (.inr i))).count e +
        c.shared.queue.items.count e +
        ∑ w, (WorkerPc.before .fulfil (c.pc (.inl w))).count e +
        ∑ i, (ClientPc.discards .fulfil (c.pc (.inr i))).count e + (fulfilled log).count e = 1) ∧
    ((fulfilled log).map (·.promise)).Nodup ∧ c.shared.terminated = false ∧
    (∀ k : ℕ, c.shared.promises[k]? ≠ some .broken_promise) ∧
    (∀ i e, c.pc (.inr i) = .pushing (.refused e) →
      (∃ l₁ l₂, log = l₁ ++ (.inr i, .submit e) :: l₂ ∧
        ∀ l ∈ l₂, l.1 = .inr i → l.2.submitted = []) ∧
      c.shared.promises[e.promise]? = some .unset) ∧
    ((∀ i, c.pc (.inr i) = .idle) → (∀ w, c.pc (.inl w) = .exited) →
      (submitted log).map (·.promise) = List.range c.shared.promises.length ∧
      ∀ e ∈ submitted log, (fulfilled log).count e = 1 ∧
        ∃ r, c.shared.promises[e.promise]? = some (.value r) ∧ r.id = e.id ∧
          is_terminal r.state = true) := by
  have hh := honest hW h
  have hplace := placement h
  have hcount : ∀ e ∈ submitted log, (submitted log : Multiset TaskEnvelope).count e = 1 :=
    fun e he => Multiset.count_eq_one_of_mem (Multiset.coe_nodup.mpr (submitted_nodup h).of_map) he
  refine ⟨?_, fulfilled_nodup h, hh.terminated, ?_,
    fun i e hp => ⟨push_value h hp, ?_⟩, fun hi hw => ⟨promises_of_submitted h, ?_⟩⟩
  · intro e he
    rw [← hcount e he, ← hplace]
    simp only [Multiset.count_add, pendingAll, refusingAll, workingAll, discardingAll,
      Multiset.count_sum', Finset.sum_add_distrib, Multiset.coe_count]
  · intro k hk
    -- every promise belongs to a submitted envelope
    have hlt : k < c.shared.promises.length := (List.getElem?_eq_some_iff.mp hk).1
    obtain ⟨e, he, rfl⟩ : ∃ e ∈ submitted log, e.promise = k :=
      List.mem_map.mp (by rw [promises_of_submitted h]; exact List.mem_range.mpr hlt)
    by_cases hf : e ∈ fulfilled log
    · obtain ⟨f, hmem, rfl⟩ := List.mem_map.mp hf
      rw [hh.value f hmem] at hk
      simp at hk
    · rw [hh.unset e he hf] at hk
      simp at hk
  · have he : e ∈ refusingAll .fulfil c :=
      Multiset.mem_sum.mpr ⟨i, Finset.mem_univ i, by simp [hp]⟩
    obtain ⟨hsub, hne⟩ := unfulfilled_of_held (e := e) h (by simp [he])
    exact hh.unset e hsub hne
  · intro e he
    -- nobody holds the envelope and the queue is empty, so it is fulfilled
    obtain ⟨h1, h2, h3⟩ := idle_holds_nothing hi
    rw [h1, h2, h3, exited_holds_nothing fun w => .inl (hw w), (exhausted_of_exited hW h hw).2] at hplace
    simp only [Multiset.coe_nil, add_zero, zero_add] at hplace
    have hone : (fulfilled log).count e = 1 := by rw [← Multiset.coe_count, hplace, hcount e he]
    refine ⟨hone, ?_⟩
    rcases mem_fulfilled.mp (List.count_pos_iff.mp (by omega : 0 < (fulfilled log).count e)) with he | he
    · obtain ⟨d, f, hr⟩ := value_of_ran hW h he
      exact ⟨_, hr, by simp, TaskResult.terminal _⟩
    · obtain ⟨f, hr⟩ := value_of_rejected hW h he
      exact ⟨_, hr, by simp, TaskResult.terminal _⟩

/-- At the end of that run both promises are set. -/
theorem fulfilled_exactly_once_drainRun :
    (submitted drainRun.1).length = 2 ∧ ∀ e ∈ submitted drainRun.1,
      ∃ r, drainRun.2.shared.promises[e.promise]? = some (.value r) ∧ r.id = e.id ∧
        is_terminal r.state = true := by
  refine ⟨rfl, ?_⟩
  intro e he
  have hall := (fulfilled_exactly_once (by decide) (drainRun_run.tail drainRun_leave)).2.2.2.2.2
    (by decide) (by decide)
  exact (hall.2 e (by simpa using he)).2

end Contract

end ThreadPool

end TaskEngine
