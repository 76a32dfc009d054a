import TaskEngine.Interleaving.Fairness
import TaskEngine.Pool.Futures

/-!
# TaskEngine.Pool.Fairness — no accepted task starves

The pool may be kept busy for ever, with new calls at every moment.  As long as no thread that can go on is
passed over for good, whatever the queue has accepted is taken out again: the envelopes before it are finitely
many, no later one overtakes it, and with items queued a worker that is not blocked takes one, while one that
is blocked is owed a notification (`queued`).  Whoever holds an envelope fulfils it by its own steps
(`held_leadsTo`).  So every promise is set, but for that of a `submit` that waits for room for ever, on an
open queue (`fair_delivery`).
-/

namespace TaskEngine

open Interleaving

namespace ThreadPool

variable {W : ℕ} {ι : Type}

/-- Neither a new call nor a spurious wake-up. -/
def Event.goesOn (ev : Event W) : Prop := ev ≠ .queue .spurious ∧ ev.starts = false

/-! ## Held envelopes -/

section Held

/-- The thread has the envelope, taken out of the queue or refused, and has yet to fulfil it. -/
def Held (e : TaskEnvelope) : (t : Thread W ι) → Pc t → Prop
  | .inl _, p => e ∈ WorkerPc.before .fulfil p
  | .inr _, p => e ∈ ClientPc.refusal .fulfil p + ClientPc.discards .fulfil p

/-- The promise of the envelope has been set. -/
def Fulfilled (e : TaskEnvelope) (c : System W ι) : Prop :=
  ∃ r, c.shared.promises[e.promise]? = some (.value r)

/-- What is left of the calls of a thread by itself. -/
def weight : (t : Thread W ι) → Pc t → ℕ
  | .inl _, p => WorkerPc.weight p
  | .inr _, p => ClientPc.weight W p

variable [DecidableEq ι] {capacity : ℕ} {e : TaskEnvelope}

theorem Held.step {t : Thread W ι} {m m' : ThreadPool W ι} {p p' : Pc t} {ev : Event W} (he : Held e t p)
    (h : rules capacity t m p ev m' p') :
    e ∈ ev.fulfilment.map Prod.fst ∨ Held e t p' ∧ weight t p' < weight t p := by
  rcases t with w | i
  · change e ∈ WorkerPc.before .fulfil p at he
    change _ ∨ e ∈ WorkerPc.before .fulfil p' ∧ WorkerPc.weight p' < WorkerPc.weight p
    cases (h : WorkerRule w _ _ _ _ _) with
    | pop h =>
      cases h with
      | notify_one _ => exact .inr ⟨he, by simp [WorkerPc.weight, BlockingQueue.PopPc.weight]⟩
      | _ => cases Multiset.notMem_zero _ he
    | start _ => exact .inr ⟨he, by simp [WorkerPc.weight, BlockingQueue.PopPc.weight]⟩
    | finish _ => exact .inr ⟨he, by simp [WorkerPc.weight]⟩
    | fulfil => exact .inl (by simpa using he)
    | _ => cases Multiset.notMem_zero _ he
  · change e ∈ ClientPc.refusal .fulfil p + ClientPc.discards .fulfil p at he
    change _ ∨ e ∈ ClientPc.refusal .fulfil p' + ClientPc.discards .fulfil p' ∧
      ClientPc.weight W p' < ClientPc.weight W p
    cases (h : ClientRule capacity i _ _ _ _ _) with
    | push h => cases h <;> simp at he
    | drain h =>
      cases h with
      | enter _ => simp at he
      | notify_empty => exact .inr ⟨he, by simp [ClientPc.weight, BlockingQueue.DrainPc.weight]⟩
      | notify_full => exact .inr ⟨he, by simp [ClientPc.weight, BlockingQueue.DrainPc.weight]⟩
    | drained _ => exact .inr ⟨by simpa using he, by simp [ClientPc.weight, BlockingQueue.DrainPc.weight]⟩
    | reject _ => exact .inl (by simpa using he)
    | @discard _ _ e' rest =>
      rcases List.mem_cons.mp (show e ∈ e' :: rest by simpa using he) with rfl | he
      · exact .inl (by simp)
      · exact .inr ⟨by simpa using he, by simp [ClientPc.weight]⟩
    | _ => simp at he

variable [Fintype ι] {c : System W ι} {log : List (Thread W ι × Event W)}

theorem fulfilled_of_mem (hW : 0 < W) (h : Run (rules capacity) init log c) (he : e ∈ fulfilled log) :
    Fulfilled e c := by
  obtain ⟨f, hf, rfl⟩ := List.mem_map.mp he
  exact ⟨f.2, (honest hW h).value f hf⟩

theorem Held.able (h : Run (rules capacity) init log c) {t : Thread W ι} (he : Held e t (c.pc t)) :
    CanMove capacity c t := by
  rcases t with w | i
  -- a worker that holds an envelope is not blocked and has not exited
  · refine worker_canMove (fun hw => ?_) fun hp => ?_
    · have hplace := (queue_awake h).consumers.waiting _ hw
      change (WorkerPc.place (c.pc (.inl w))).consuming = true at hplace
      change e ∈ WorkerPc.before .fulfil (c.pc (.inl w)) at he
      generalize c.pc (.inl w) = p at hplace he
      cases p with
      | popping p => cases p <;> first | exact absurd he (Multiset.notMem_zero _) | cases hplace
      | _ => cases hplace
    · simp [Held, hp] at he
  · change e ∈ ClientPc.refusal .fulfil (c.pc (.inr i)) + ClientPc.discards .fulfil (c.pc (.inr i)) at he
    generalize hp : c.pc (.inr i) = p at he
    cases p with
    | pushing p =>
      cases p with
      | refused e => exact .client hp (.reject 0) (by simp) rfl
      | _ => simp at he
    | draining p =>
      rcases BlockingQueue.DrainRule.enabled (q := c.shared.queue) p with ⟨ev, q, p', hr, hs⟩ | ⟨ds, rfl⟩
      · exact .client hp (.drain hr) (by simpa using hs) rfl
      · exact .client hp (.drained 0) (by simp) rfl
    | discarding f rejected rest =>
      cases rest with
      | nil => simp at he
      | cons e rest => exact .client hp (.discard) (by simp) rfl
    | _ => simp at he

/-- **What is held is fulfilled**, by whoever holds it. -/
theorem held_leadsTo (hW : 0 < W) {E : Execution (rules (W := W) (ι := ι) capacity) init}
    (hfair : E.Fair Event.goesOn) {n : ℕ} {t : Thread W ι} (he : Held e t ((E.config n).pc t)) :
    ∃ k, n ≤ k ∧ Fulfilled e (E.config k) := by
  refine (Ranking.own t (Held e t) (weight t) (fun log c h he => he.able h) ?_).leadsTo hfair he
  intro log c ev m p hrun he hr
  refine (he.step hr).imp_left fun hf => fulfilled_of_mem hW (hrun.tail (.mk hr)) ?_
  rw [fulfilled_append, fulfilled_singleton]
  exact List.mem_append_right _ hf

end Held

/-! ## Queued envelopes -/

section Queued

/-- How far a worker is from the critical section of its next `pop`, unless it is blocked there. -/
def WorkerPc.distance : WorkerPc → ℕ
  | .popping (.notifying _) => 5
  | .popping (.done _) => 4
  | .running _ _ => 3
  | .executed _ _ _ => 2
  | .recording _ _ | .starting => 1
  | _ => 0

def distance : (t : Thread W ι) → Pc t → ℕ
  | .inl _, p => WorkerPc.distance p
  | .inr _, _ => 0

/-- What is before the envelope in the queue, and the consumers blocked there: more than `distance` each. -/
def ahead (e : TaskEnvelope) (m : ThreadPool W ι) : ℕ :=
  8 * m.queue.items.idxOf e + 7 * m.queue.not_empty.waiting.card

/-- The client is about to notify a blocked consumer, or all of them. -/
def ClientPc.Owes (p : ClientPc) : Prop := p.place.owesNotEmpty = 1 ∨ p.place.owesAllEmpty = true

/-- The envelope keeps its place in the queue, and nobody is blocked there anew. -/
structure Kept (e : TaskEnvelope) (m m' : ThreadPool W ι) : Prop where
  mem : e ∈ m'.queue.items
  idx : m'.queue.items.idxOf e = m.queue.items.idxOf e
  waiting : m'.queue.not_empty.waiting ⊆ m.queue.not_empty.waiting

variable {capacity : ℕ} {e : TaskEnvelope} {m m' : ThreadPool W ι} {ev : Event W}

theorem Kept.of_queue (he : e ∈ m.queue.items) (hq : m'.queue = m.queue) : Kept e m m' := by
  rw [← hq] at he
  exact ⟨he, by rw [hq], by rw [hq]⟩

variable [DecidableEq ι]

/-- With the envelope queued, a worker gets nearer to a `pop`, and a `pop` brings the envelope forward. -/
theorem WorkerRule.approach {w : Fin W} {p p' : WorkerPc} (h : WorkerRule w m p ev m' p')
    (he : e ∈ m.queue.items) (hx : p ≠ .popping (.done none)) :
    e ∈ p'.before .fulfil ∨
      e ∈ m'.queue.items ∧ p'.distance + ahead e m' < p.distance + ahead e m := by
  -- a `pop` takes `e` itself, or an item in front of it
  have htake : ∀ {item rest}, m.queue.items = item :: rest →
      e = item ∨ e ∈ rest ∧ rest.idxOf e + 1 = m.queue.items.idxOf e := by
    intro item rest hi
    by_cases hitem : e = item
    · exact .inl hitem
    · rw [hi] at he ⊢
      refine .inr ⟨(List.mem_cons.mp he).resolve_left hitem, ?_⟩
      rw [List.idxOf_cons_ne _ (Ne.symm hitem)]
  cases h with
  | enter => exact .inr ⟨he, by simp [WorkerPc.distance]⟩
  | pop h =>
    cases h with
    | enter h =>
      cases BlockingQueue.popSection_cases h with
      | exhaust _ hi => simp [hi] at he
      | block _ hi => simp [hi] at he
      | take hi =>
        refine (htake hi).imp (fun h => by simp [h]) fun h => ⟨h.1, ?_⟩
        simp only [WorkerPc.distance, ahead]
        omega
    | resume _ h =>
      cases BlockingQueue.popSection_cases h with
      | exhaust _ hi => simp [show m.queue.items = [] from hi] at he
      | block _ hi => simp [show m.queue.items = [] from hi] at he
      | take hi =>
        refine (htake hi).imp (fun h => by simp [h]) fun h => ⟨h.1, ?_⟩
        simp only [WorkerPc.distance, ahead, CondVar.resume_waiting]
        omega
    | spurious hw =>
      have := Finset.card_erase_lt_of_mem hw
      refine .inr ⟨he, ?_⟩
      simp only [WorkerPc.distance, ahead, CondVar.wake_waiting]
      omega
    | notify_one _ => exact .inr ⟨he, by simp [WorkerPc.distance, ahead]⟩
  | start _ => exact .inr ⟨he, by simp [WorkerPc.distance]⟩
  | finish _ => exact .inr ⟨he, by simp [WorkerPc.distance]⟩
  | fulfil => exact .inr ⟨by simpa using he, by simp [WorkerPc.distance, ahead]⟩
  | record => exact .inr ⟨he, by simp [WorkerPc.distance, ahead]⟩
  | exit => exact absurd rfl hx

/-- A client leaves the envelope where it is, or takes it out to reject it; if it owes a notification, it
wakes somebody. -/
theorem ClientRule.keeps {i : ι} {p p' : ClientPc} (h : ClientRule capacity i m p ev m' p')
    (he : e ∈ m.queue.items) :
    e ∈ p'.discards .fulfil ∨ Kept e m m' ∧ (p.Owes → m.queue.not_empty.waiting.Nonempty →
      m'.queue.not_empty.waiting ≠ m.queue.not_empty.waiting) := by
  cases h with
  | push h =>
    refine .inr ?_
    cases h with
    | enter h =>
      refine ⟨?_, by simp [ClientPc.Owes, ClientPc.place]⟩
      cases BlockingQueue.pushSection_cases h with
      | refuse _ => exact .of_queue he rfl
      | insert _ _ => exact ⟨List.mem_append_left _ he, by simp [List.idxOf_append, he], subset_rfl⟩
      | block _ _ => exact ⟨he, rfl, subset_rfl⟩
    | resume _ h =>
      refine ⟨?_, by simp [ClientPc.Owes, ClientPc.place]⟩
      cases BlockingQueue.pushSection_cases h with
      | refuse _ => exact ⟨he, rfl, subset_rfl⟩
      | insert _ _ =>
        exact ⟨List.mem_append_left _ he, by simp [List.idxOf_append, he], subset_rfl⟩
      | block _ _ => exact ⟨he, rfl, subset_rfl⟩
    | spurious _ => exact ⟨⟨he, rfl, subset_rfl⟩, by simp [ClientPc.Owes, ClientPc.place]⟩
    -- somebody is blocked, so the notification wakes one of them
    | notify_one hcv =>
      refine ⟨⟨he, rfl, hcv.waiting_subset⟩, fun _ hne heq => ?_⟩
      have hcard := hcv.card_waiting
      rw [show _ = m.queue.not_empty.waiting from heq] at hcard
      have := hne.card_pos
      omega
  | close h =>
    refine .inr ?_
    cases h with
    | enter h =>
      refine ⟨?_, by simp [ClientPc.Owes, ClientPc.place]⟩
      cases BlockingQueue.closeSection_cases h with
      | again _ => exact .of_queue he rfl
      | close _ => exact ⟨he, rfl, subset_rfl⟩
    | notify_empty => exact ⟨⟨he, rfl, by simp⟩, fun _ hne heq => by simp [← heq] at hne⟩
    | notify_full => exact ⟨⟨he, rfl, subset_rfl⟩, by simp [ClientPc.Owes, ClientPc.place]⟩
  | drain h =>
    cases h with
    | enter h =>
      cases h
      exact .inl (by simpa using he)
    | notify_empty => exact .inr ⟨⟨he, rfl, by simp⟩, fun _ hne heq => by simp [← heq] at hne⟩
    | notify_full => exact .inr ⟨⟨he, rfl, subset_rfl⟩, by simp [ClientPc.Owes, ClientPc.place]⟩
  | join h => exact .inr ⟨.of_queue he h.toQueue.2, by simp [ClientPc.Owes, ClientPc.place]⟩
  | _ => exact .inr ⟨.of_queue he (by simp), by simp [ClientPc.Owes, ClientPc.place]⟩

omit [DecidableEq ι] in
/-- Only workers wait for items. -/
theorem worker_of_consuming {c : System W ι} {t : Thread W ι} (ht : (place t (c.pc t)).consuming = true) :
    ∃ w, t = .inl w := by
  rcases t with w | i
  · exact ⟨w, rfl⟩
  · change (ClientPc.place (c.pc (.inr i))).consuming = true at ht
    cases h : c.pc (.inr i) <;> rw [h] at ht <;> cases ht

variable [Fintype ι] {c : System W ι} {log : List (Thread W ι × Event W)}

/-- With items queued and all workers blocked, some client owes them a notification. -/
theorem exists_owing (hW : 0 < W) (h : Run (rules capacity) init log c) (he : e ∈ c.shared.queue.items)
    (hall : ∀ w, .inl w ∈ c.shared.queue.not_empty.waiting) : ∃ i, (c.pc (.inr i)).Owes := by
  have ha := queue_awake h
  have hne : c.shared.queue.not_empty.waiting.Nonempty := ⟨_, hall ⟨0, hW⟩⟩
  cases hc : c.shared.queue.closed with
  | true =>
    obtain ⟨w | i, ht⟩ := ha.closed_empty hc hne
    · change (WorkerPc.place (c.pc (.inl w))).owesAllEmpty = true at ht
      cases hp : c.pc (.inl w) <;> rw [hp] at ht <;> cases ht
    · exact ⟨i, .inr ht⟩
  | false =>
    -- nobody has been notified, so the items are owed for
    have hnotified : c.shared.queue.not_empty.notified = ∅ := by
      refine Finset.eq_empty_of_forall_notMem fun t ht => ?_
      obtain ⟨w, rfl⟩ := worker_of_consuming (ha.consumers.notified t ht)
      exact Finset.disjoint_left.mp ha.consumers.disjoint (hall w) ht
    have hsupply := ha.supply hc hne
    change c.shared.queue.items.length ≤ _ + c.shared.queue.not_empty.notified.card at hsupply
    rw [hnotified, Finset.card_empty, add_zero] at hsupply
    have howed := lt_of_lt_of_le (List.length_pos_of_mem he) hsupply
    obtain ⟨t, -, ht⟩ := Finset.exists_ne_zero_of_sum_ne_zero howed.ne'
    rcases t with w | i
    · change (WorkerPc.place (c.pc (.inl w))).owesNotEmpty ≠ 0 at ht
      cases hp : c.pc (.inl w) <;> rw [hp] at ht <;> exact absurd rfl ht
    · refine ⟨i, .inl ?_⟩
      change (ClientPc.place (c.pc (.inr i))).owesNotEmpty ≠ 0 at ht
      generalize ClientPc.place (c.pc (.inr i)) = q at ht ⊢
      rcases q with _ | (_ | _ | _ | _ | _) | _ | _ | _ <;> first | rfl | exact absurd rfl ht

omit [Fintype ι] in
theorem ClientPc.Owes.able {i : ι} (h : (c.pc (.inr i)).Owes) : CanMove capacity c (.inr i) := by
  rcases h with h | h
  · generalize hp : c.pc (.inr i) = p at h
    rcases p with _ | (_ | _ | _ | _ | _) | _ | _ | _ | _ | _ <;> try cases h
    obtain ⟨cv, hcv⟩ := c.shared.queue.not_empty.exists_notifyOne
    exact .client hp (.push (.notify_one hcv)) (by simp) rfl
  · exact owes_canMove (.inl h)

/-- **What is queued is taken out**: some worker is on its way to it, or is about to be woken up. -/
def queued (hW : 0 < W) (capacity : ℕ) (e : TaskEnvelope) : Ranking (rules (W := W) (ι := ι) capacity) init
    Event.goesOn (fun c => e ∈ c.shared.queue.items) (fun c => ∃ t, Held e t (c.pc t)) ℕ where
  rank c := ∑ t, distance t (c.pc t) + ahead e c.shared
  Helps c
    | .inl w => .inl w ∉ c.shared.queue.not_empty.waiting
    | .inr i => (∀ w, .inl w ∈ c.shared.queue.not_empty.waiting) ∧ (c.pc (.inr i)).Owes
  helper log c h he := by
    by_cases hall : ∀ w, .inl w ∈ c.shared.queue.not_empty.waiting
    · obtain ⟨i, hi⟩ := exists_owing hW h he hall
      exact ⟨.inr i, hall, hi⟩
    · obtain ⟨w, hw⟩ := not_forall.mp hall
      exact ⟨.inl w, hw⟩
  able log c t h he ht := by
    rcases t with w | i
    · refine worker_canMove ht fun hp => ?_
      have hx := ((joins h).1.finished_exhausted w ((WorkerPc.Joins.finished ((joins h).2 (.inl w))).mpr hp)).2
      rw [hx] at he
      cases he
    · exact ht.2.able
  step log c t ev m p h he hr := by
    obtain ⟨rest, h1, h2⟩ := sum_split (distance (W := W) (ι := ι)) c.pc t
    simp only [h1, h2]
    rcases t with w | i
    · have hx : c.pc (.inl w) ≠ .popping (.done none) := fun hp => by
        have hx := (WorkerPc.Joins.nullopt ((joins h).2 (.inl w)) hp).2
        rw [hx] at he
        cases he
      refine (WorkerRule.approach (w := w) hr he hx).imp (fun hp => ⟨.inl w, by simpa [Held] using hp⟩)
        fun hp => ⟨hp.1, .inl ?_⟩
      have hlt := hp.2
      simp only [distance]
      omega
    · refine (ClientRule.keeps (i := i) hr he).imp
        (fun hp => ⟨.inr i, by simpa [Held] using .inr hp⟩) fun ⟨hk, hwakes⟩ => ⟨hk.mem, ?_⟩
      by_cases hsame : m.queue.not_empty.waiting = c.shared.queue.not_empty.waiting
      · refine .inr ⟨by simp [distance, ahead, hk.idx, hsame], ?_⟩
        rintro (w | j) hu
        · exact ⟨by simp, by rwa [hsame]⟩
        · obtain rfl | hne := eq_or_ne j i
          · exact absurd hsame (hwakes hu.2 ⟨_, hu.1 ⟨0, hW⟩⟩)
          · refine ⟨fun heq => hne (Sum.inr_injective heq), ?_⟩
            rw [hsame]
            exact ⟨hu.1, by simpa [update_client_of_ne _ hne] using hu.2⟩
      · refine .inl ?_
        have := Finset.card_lt_card (hk.waiting.ssubset_of_ne hsame)
        simp only [distance, ahead, hk.idx]
        omega

end Queued

/-! ## Envelopes that wait for room -/

section Pending

variable [DecidableEq ι] {capacity : ℕ} {e : TaskEnvelope} {i : ι} {m m' : ThreadPool W ι} {ev : Event W}

/-- On a closed queue nobody blocks, and whoever owes a `notify_all` comes to send it. -/
theorem rule_closed {t : Thread W ι} {p p' : Pc t} (h : rules capacity t m p ev m' p')
    (hc : m.queue.closed = true) :
    m'.queue.closed = true ∧ m'.queue.not_full.waiting ⊆ m.queue.not_full.waiting := by
  refine ⟨(rule_queue h).1 hc, ?_⟩
  have hq := rule_toQueue h
  cases hl : ev.label with
  | none => rw [hl] at hq; rw [hq.1]
  | some l => rw [hl] at hq; exact (hq.waiting_subset hc).2

/-- How many notifications the client is away from having released all producers. -/
def ClientPc.owing : ClientPc → ℕ
  | .closing _ .notifyingEmpty | .draining (.notifyingEmpty _) => 2
  | .closing _ .notifyingFull | .draining (.notifyingFull _) => 1
  | _ => 0

theorem ClientRule.owing {p p' : ClientPc} (h : ClientRule capacity i m p ev m' p') (hp : 0 < p.owing) :
    m'.queue.not_full.waiting = ∅ ∨ 0 < p'.owing ∧ p'.owing < p.owing := by
  cases h with
  | close h =>
    cases h with
    | enter _ => cases hp
    | notify_empty => exact .inr ⟨by simp [ClientPc.owing], by simp [ClientPc.owing]⟩
    | notify_full => exact .inl rfl
  | drain h =>
    cases h with
    | enter _ => cases hp
    | notify_empty => exact .inr ⟨by simp [ClientPc.owing], by simp [ClientPc.owing]⟩
    | notify_full => exact .inl rfl
  | _ => cases hp

/-- A `push` under way stays so, inserts its argument or refuses it. -/
theorem ClientRule.pending {p p' : ClientPc} (h : ClientRule capacity i m p ev m' p') (he : e ∈ p.pending) :
    e ∈ p'.pending ∨ (p' = .pushing (.notifying e) ∧ e ∈ m'.queue.items) ∨ e ∈ p'.refusal .fulfil := by
  cases h with
  | push h =>
    cases h with
    | enter h => cases BlockingQueue.pushSection_cases h <;> simp_all
    | resume _ h => cases BlockingQueue.pushSection_cases h <;> simp_all
    | spurious _ => exact .inl he
    | notify_one _ => simp at he
  | _ => simp at he

/-- On a closed queue it is refused, once it is no longer blocked. -/
theorem ClientRule.released {p p' : ClientPc} (h : ClientRule capacity i m p ev m' p') (he : e ∈ p.pending)
    (hc : m.queue.closed = true) :
    e ∈ p'.refusal .fulfil ∨ .inr i ∈ m.queue.not_full.waiting ∧ e ∈ p'.pending ∧
      .inr i ∉ m'.queue.not_full.waiting := by
  cases h with
  | push h =>
    cases h with
    | enter h =>
      cases BlockingQueue.pushSection_cases h with
      | refuse _ => exact .inl he
      | insert ho _ => simp [hc] at ho
      | block ho _ => simp [hc] at ho
    | resume _ h =>
      cases BlockingQueue.pushSection_cases h with
      | refuse _ => exact .inl he
      | insert ho _ => simp [hc] at ho
      | block ho _ => simp [hc] at ho
    | spurious hw => exact .inr ⟨hw, he, by simp⟩
    | notify_one _ => simp at he
  | _ => simp at he

/-- Whoever waits for room on a closed queue, and is not blocked, is refused. -/
def unblocked [Fintype ι] (capacity : ℕ) (e : TaskEnvelope) (i : ι) :
    Ranking (rules (W := W) capacity) init Event.goesOn
      (fun c => c.shared.queue.closed = true ∧ e ∈ (c.pc (.inr i)).pending ∧
        .inr i ∉ c.shared.queue.not_full.waiting)
      (fun c => e ∈ (c.pc (.inr i)).refusal .fulfil) ℕ where
  rank _ := 0
  Helps _ t := t = .inr i
  helper _ _ _ _ := ⟨_, rfl⟩
  able log c t h hP ht := by
    subst ht
    obtain ⟨-, he, hw⟩ := hP
    change CanMove capacity c (.inr i)
    generalize hp : c.pc (.inr i) = p at he
    cases p with
    | pushing p =>
      rcases BlockingQueue.PushRule.enabled capacity (p := p) hw with ⟨ev, q, p', hr, hs⟩ | ⟨e, rfl⟩ | ⟨e, rfl⟩
      · exact .client hp (.push hr) (by simpa using hs) rfl
      · simp at he
      · simp at he
    | _ => simp at he
  step log c t ev m p h hP hr := by
    obtain ⟨hc, he, hw⟩ := hP
    obtain ⟨hc', hsub⟩ := rule_closed hr hc
    by_cases ht : t = .inr i
    · subst ht
      rcases ClientRule.released hr he hc with h | ⟨h, -⟩
      · exact .inl (by simpa using h)
      · exact absurd h hw
    · have hpend : e ∈ ClientPc.pending (Function.update c.pc t p (.inr i)) := by
        rwa [Function.update_of_ne (Ne.symm ht)]
      refine .inr ⟨⟨hc', hpend, fun h => hw (hsub h)⟩, .inr ⟨rfl, ?_⟩⟩
      rintro u rfl
      exact ⟨Ne.symm ht, rfl⟩

/-- Whoever is blocked there is woken up by the client that owes a `notify_all`. -/
def owed [Fintype ι] (capacity : ℕ) (e : TaskEnvelope) (i j : ι) :
    Ranking (rules (W := W) capacity) init Event.goesOn
      (fun c => c.shared.queue.closed = true ∧ e ∈ (c.pc (.inr i)).pending ∧ 0 < (c.pc (.inr j)).owing)
      (fun c => c.shared.queue.closed = true ∧ e ∈ (c.pc (.inr i)).pending ∧
        .inr i ∉ c.shared.queue.not_full.waiting ∨ e ∈ (c.pc (.inr i)).refusal .fulfil) ℕ where
  rank c := (c.pc (.inr j)).owing
  Helps _ t := t = .inr j
  helper _ _ _ _ := ⟨_, rfl⟩
  able log c t h hP ht := by
    subst ht
    refine owes_canMove (.inr ?_)
    obtain ⟨-, -, hj⟩ := hP
    change (ClientPc.place (c.pc (.inr j))).owesAllFull = true
    generalize c.pc (.inr j) = p at hj
    rcases p with _ | _ | _ | ⟨_, _ | _ | _ | _⟩ | (_ | _ | _ | _) | _ | _ <;> first | rfl | cases hj
  step log c t ev m p h hP hr := by
    obtain ⟨hc, he, hj⟩ := hP
    obtain ⟨hc', -⟩ := rule_closed hr hc
    by_cases hi : t = .inr i
    · subst hi
      refine .inl ?_
      rcases ClientRule.released hr he hc with h | ⟨-, h⟩
      · exact .inr (by simpa using h)
      · exact .inl ⟨hc', by simpa using h⟩
    · have hpend : e ∈ ClientPc.pending (Function.update c.pc t p (.inr i)) := by
        rwa [Function.update_of_ne (Ne.symm hi)]
      by_cases ht : t = .inr j
      · subst ht
        rcases ClientRule.owing hr hj with hw | hlow
        · exact .inl (.inl ⟨hc', hpend, by simp [hw]⟩)
        · exact .inr ⟨⟨hc', hpend, by simpa using hlow.1⟩, .inl (by simpa using hlow.2)⟩
      · have hpj : Function.update c.pc t p (.inr j) = c.pc (.inr j) := Function.update_of_ne (Ne.symm ht) _ _
        refine .inr ⟨⟨hc', hpend, hj.trans_eq (congrArg ClientPc.owing hpj.symm)⟩,
          .inr ⟨congrArg ClientPc.owing hpj, ?_⟩⟩
        rintro u rfl
        exact ⟨Ne.symm ht, rfl⟩

end Pending

/-! ## Delivery -/

section Delivery

variable [DecidableEq ι] [Fintype ι] {capacity : ℕ} {e : TaskEnvelope}
  {E : Execution (rules (W := W) (ι := ι) capacity) init} {n : ℕ}

theorem queued_leadsTo (hW : 0 < W) (hfair : E.Fair Event.goesOn)
    (he : e ∈ (E.config n).shared.queue.items) : ∃ k, n ≤ k ∧ Fulfilled e (E.config k) := by
  obtain ⟨k, hk, t, ht⟩ := (queued hW capacity e).leadsTo hfair he
  obtain ⟨j, hj, hful⟩ := held_leadsTo hW hfair ht
  exact ⟨j, hk.trans hj, hful⟩

/-- On a closed queue, a `submit` that waits for room is refused. -/
theorem closed_leadsTo (hfair : E.Fair Event.goesOn) {i : ι}
    (hc : (E.config n).shared.queue.closed = true) (he : e ∈ ((E.config n).pc (.inr i)).pending) :
    ∃ k, n ≤ k ∧ e ∈ ((E.config k).pc (.inr i)).refusal .fulfil := by
  by_cases hw : .inr i ∈ (E.config n).shared.queue.not_full.waiting
  · obtain ⟨w | j, hj⟩ := (queue_awake (E.run n)).closed_full hc ⟨_, hw⟩
    · change (WorkerPc.place ((E.config n).pc (.inl w))).owesAllFull = true at hj
      cases hp : (E.config n).pc (.inl w) <;> rw [hp] at hj <;> cases hj
    · have howing : 0 < ((E.config n).pc (.inr j)).owing := by
        change (ClientPc.place ((E.config n).pc (.inr j))).owesAllFull = true at hj
        generalize (E.config n).pc (.inr j) = p at hj
        rcases p with _ | _ | _ | ⟨_, _ | _ | _ | _⟩ | (_ | _ | _ | _) | _ | _ <;>
          first | exact Nat.one_pos | exact Nat.two_pos | cases hj
      obtain ⟨k, hk, hP | href⟩ := (owed capacity e i j).leadsTo hfair ⟨hc, he, howing⟩
      · obtain ⟨l, hl, href⟩ := (unblocked capacity e i).leadsTo hfair hP
        exact ⟨l, hk.trans hl, href⟩
      · exact ⟨k, hk, href⟩
  · exact (unblocked capacity e i).leadsTo hfair ⟨hc, he, hw⟩

/-- A `submit` that waits for room is served, unless it waits for ever on an open queue. -/
theorem pending_leadsTo (hfair : E.Fair Event.goesOn) {i : ι} (he : e ∈ ((E.config n).pc (.inr i)).pending) :
    (∃ k, n ≤ k ∧ ((E.config k).pc (.inr i) = .pushing (.notifying e) ∧ e ∈ (E.config k).shared.queue.items ∨
      e ∈ ((E.config k).pc (.inr i)).refusal .fulfil)) ∨
      ∀ k, n ≤ k → (E.config k).shared.queue.closed = false ∧ e ∈ ((E.config k).pc (.inr i)).pending := by
  by_contra hno
  rw [not_or] at hno
  obtain ⟨hserved, hwait⟩ := hno
  -- on a closed queue it would be refused
  have hopen : ∀ k, n ≤ k → e ∈ ((E.config k).pc (.inr i)).pending →
      (E.config k).shared.queue.closed = false := by
    intro k hk hpend
    by_contra hc
    obtain ⟨j, hj, href⟩ := closed_leadsTo hfair (by simpa using hc) hpend
    exact hserved ⟨j, hk.trans hj, .inr href⟩
  refine hwait fun k hk => ?_
  suffices hpend : e ∈ ((E.config k).pc (.inr i)).pending from ⟨hopen k hk hpend, hpend⟩
  induction k, hk using Nat.le_induction with
  | base => exact he
  | succ k hk ih =>
    have hnot := fun h => hserved ⟨k + 1, by omega, h⟩
    rcases E.next k with hs | ⟨t, ev, m, p, hr, hs⟩
    · rwa [hs]
    · rw [hs] at hnot ⊢
      by_cases ht : t = .inr i
      · subst ht
        rcases ClientRule.pending hr ih with h | h | h
        · simpa using h
        · exact absurd (.inl (by simpa using h)) hnot
        · exact absurd (.inr (by simpa using h)) hnot
      · simpa [Function.update_of_ne (Ne.symm ht)] using ih

/-- From some later moment on the promise holds a result, which stays. -/
def Arrives (E : Execution (rules (W := W) (ι := ι) capacity) init) (n : ℕ) (e : TaskEnvelope) : Prop :=
  ∃ k, n ≤ k ∧ ∃ r, ∀ j, k ≤ j → (E.config j).shared.promises[e.promise]? = some (.value r)

theorem arrives_of_fulfilled (hW : 0 < W) (h : ∃ k, n ≤ k ∧ Fulfilled e (E.config k)) : Arrives E n e := by
  obtain ⟨k, hk, r, hr⟩ := h
  refine ⟨k, hk, r, fun j hj => ?_⟩
  obtain ⟨log, -, hrun⟩ := E.run_later hj
  exact value_later hW (E.run k) hrun hr

/-- What the queue has accepted is queued, held or fulfilled. -/
theorem pushed_cases (hW : 0 < W) {c : System W ι} {log : List (Thread W ι × Event W)}
    (h : Run (rules capacity) init log c) (he : e ∈ pushed log) :
    e ∈ c.shared.queue.items ∨ (∃ t, Held e t (c.pc t)) ∨ Fulfilled e c := by
  rw [← queue_from_init h, List.mem_append, List.mem_append] at he
  obtain (he | he) | he := he
  · rw [← Multiset.mem_coe, ← working_from_init .fulfil h, Multiset.mem_add, workingAll, Multiset.mem_sum,
      Multiset.mem_coe] at he
    obtain ⟨w, -, hw⟩ | he := he
    · exact .inr (.inl ⟨.inl w, hw⟩)
    · exact .inr (.inr (fulfilled_of_mem hW h (mem_fulfilled.mpr (.inl he))))
  · rw [← Multiset.mem_coe, ← discarding_from_init .fulfil h, Multiset.mem_add, discardingAll,
      Multiset.mem_sum, Multiset.mem_coe] at he
    obtain ⟨i, -, hi⟩ | he := he
    · exact .inr (.inl ⟨.inr i, by simpa [Held] using .inr hi⟩)
    · exact .inr (.inr (fulfilled_of_mem hW h (mem_fulfilled.mpr (.inr (.inr he)))))
  · exact .inl he

/-- **No accepted task starves.**  However many calls are made, fairly to the threads that can go on: the
promise of whatever the queue has accepted is set in the end, and for good; so is that of every other
submission, unless its `submit` waits for room for ever, on a queue that is never closed. -/
theorem fair_delivery (hW : 0 < W) (hfair : E.Fair Event.goesOn) (n : ℕ) :
    (∀ e ∈ pushed (E.log n), Arrives E n e) ∧
    ∀ e ∈ submitted (E.log n), Arrives E n e ∨ ∃ i, ∀ k, n ≤ k →
      (E.config k).shared.queue.closed = false ∧
        ((E.config k).pc (.inr i) = .pushing (.enter e) ∨ (E.config k).pc (.inr i) = .pushing (.waiting e)) := by
  have hrun := E.run n
  have hpushed : ∀ e ∈ pushed (E.log n), Arrives E n e := by
    intro e he
    refine arrives_of_fulfilled hW ?_
    obtain he | ⟨t, ht⟩ | he := pushed_cases hW hrun he
    · exact queued_leadsTo hW hfair he
    · exact held_leadsTo hW hfair ht
    · exact ⟨n, le_rfl, he⟩
  refine ⟨hpushed, fun e he => ?_⟩
  rw [← Multiset.mem_coe, ← submitting_from_init hrun, Multiset.mem_add, Multiset.mem_add, pendingAll,
    Multiset.mem_sum, Multiset.mem_coe] at he
  obtain ⟨i, -, hi⟩ | he | he := he
  · rcases pending_leadsTo hfair hi with ⟨k, hk, hserved⟩ | hwait
    · refine .inl (arrives_of_fulfilled hW ?_)
      obtain ⟨j, hj, hful⟩ : ∃ j, k ≤ j ∧ Fulfilled e (E.config j) :=
        hserved.elim (fun h => queued_leadsTo hW hfair h.2) fun h =>
          held_leadsTo hW hfair (t := .inr i) (by simpa [Held] using .inl h)
      exact ⟨j, hk.trans hj, hful⟩
    · refine .inr ⟨i, fun k hk => ⟨(hwait k hk).1, ?_⟩⟩
      have hpend := (hwait k hk).2
      generalize (E.config k).pc (.inr i) = p at hpend ⊢
      rcases p with _ | (_ | _ | _ | _ | _) | _ | _ | _ | _ | _ <;> simp at hpend <;> simp [hpend]
  · exact .inl (hpushed e he)
  · refine .inl (arrives_of_fulfilled hW ?_)
    rw [← refusing_from_init .fulfil hrun, Multiset.mem_add, refusingAll, Multiset.mem_sum,
      Multiset.mem_coe] at he
    obtain ⟨i, -, hi⟩ | he := he
    · exact held_leadsTo hW hfair (t := .inr i) (by simpa [Held] using .inl hi)
    · exact ⟨n, le_rfl, fulfilled_of_mem hW hrun (mem_fulfilled.mpr (.inr (.inl he)))⟩

/-- The drain, with the return of its `shutdown`. -/
def restRun : List (Thread 1 (Fin 2) × Event 1) × System 1 (Fin 2) :=
  (play (act 1) (drainSchedule ++ [(.inr 1, .go)]) init).get rfl

theorem restRun_fair : ∃ E : Execution (rules (W := 1) (ι := Fin 2) 1) init, E.Fair Event.goesOn ∧
    E.log restRun.1.length = restRun.1 ∧ ∀ n, restRun.1.length ≤ n → E.config n = restRun.2 := by
  have hrun : Run (rules 1) init restRun.1 restRun.2 := play_run act_sound rfl
  refine hrun.exists_fair ?_
  rintro (w | i) ⟨ev, m, p, hr, -, hstarts⟩
  · obtain rfl : w = 0 := Subsingleton.elim _ _
    cases (show WorkerRule 0 _ .exited ev m p from hr)
  · have hr : ClientRule 1 i restRun.2.shared .idle ev m p := by
      fin_cases i <;> exact hr
    cases hr <;> cases hstarts

/-- Its accepted task is delivered. -/
theorem fair_delivery_restRun : ∃ E : Execution (rules (W := 1) (ι := Fin 2) 1) init,
    E.Fair Event.goesOn ∧ Arrives E restRun.1.length ⟨1, ⟨.returns⟩, 0, 0⟩ := by
  obtain ⟨E, hfair, hlog, -⟩ := restRun_fair
  exact ⟨E, hfair, (fair_delivery (by decide) hfair _).1 _ (by rw [hlog]; decide)⟩

end Delivery

end ThreadPool

end TaskEngine
