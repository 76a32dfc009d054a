import TaskEngine.Pool.Fairness

/-!
# TaskEngine.Pool.FairCalls — every call returns, or waits for room for ever

Again with new calls at every moment, fairly to the threads that can go on.  A `submit` that has got past the
queue returns by its own steps, and so does a shutdown as far as `join_workers`.  By then the queue is closed
and takes nothing in, so the workers exit (`exits`), whatever is called meanwhile; the mutex is held by one
caller at a time and only until `joined_` is set (`joinsUp`).  So every call returns but for a `submit` that
waits for room for ever, on a queue that is never closed (`fair_calls`).
-/

namespace TaskEngine

open Interleaving

/-! ## The queue, closed -/

namespace BlockingQueue

variable {T θ : Type} [DecidableEq θ] {capacity : ℕ} {t : θ} {q q' : BlockingQueue T θ} {p p' : Place T}
  {l : Label T}

theorem Rule.items_le (h : Rule capacity t q p l q' p') (hc : q.closed = true) :
    q'.items.length ≤ q.items.length := by
  cases h with
  | call _ => exact le_rfl
  | ret _ => exact le_rfl
  | push h =>
    cases h with
    | enter h =>
      cases pushSection_cases h with
      | insert ho _ => simp [hc] at ho
      | _ => exact le_rfl
    | resume _ h =>
      cases pushSection_cases h with
      | insert ho _ => simp [hc] at ho
      | _ => exact le_rfl
    | _ => exact le_rfl
  | pop h =>
    cases h with
    | enter h =>
      cases popSection_cases h with
      | take hi => simp [hi]
      | _ => exact le_rfl
    | resume _ h =>
      cases popSection_cases h with
      | take hi => simp [show q.items = _ from hi]
      | _ => exact le_rfl
    | _ => exact le_rfl
  | close h =>
    cases h with
    | enter h => cases closeSection_cases h <;> exact le_rfl
    | _ => exact le_rfl
  | drain h =>
    cases h with
    | enter h => cases h; simp
    | _ => exact le_rfl

/-- What is left to do with a closed queue does not grow, and it shrinks with the consumers that are blocked. -/
theorem Rule.weight_le (h : Rule capacity t q p l q' p') (hc : q.closed = true) :
    q'.weight ≤ q.weight ∧ (q'.not_empty.waiting = q.not_empty.waiting ∨ q'.weight < q.weight) := by
  obtain ⟨hempty, hfull⟩ := h.waiting_subset hc
  have hitems := h.items_le hc
  have hcard := Finset.card_le_card hfull
  by_cases hsame : q'.not_empty.waiting = q.not_empty.waiting
  · refine ⟨?_, .inl hsame⟩
    simp only [weight, hsame]
    omega
  · have hlt := Finset.card_lt_card (hempty.ssubset_of_ne hsame)
    have : q'.weight < q.weight := by
      simp only [weight]
      omega
    exact ⟨this.le, .inr this⟩

end BlockingQueue

namespace ThreadPool

variable {W : ℕ} {ι : Type} [DecidableEq ι] {capacity : ℕ}

/-! ## The workers, once the queue is closed -/

section Exits

theorem rule_weight {t : Thread W ι} {m m' : ThreadPool W ι} {p p' : Pc t} {ev : Event W}
    (h : rules capacity t m p ev m' p') (hc : m.queue.closed = true) :
    m'.queue.weight ≤ m.queue.weight ∧
      (m'.queue.not_empty.waiting = m.queue.not_empty.waiting ∨ m'.queue.weight < m.queue.weight) := by
  have hq := rule_toQueue h
  cases hl : ev.label with
  | none =>
    rw [hl] at hq
    rw [hq.1]
    exact ⟨le_rfl, .inl rfl⟩
  | some l =>
    rw [hl] at hq
    exact hq.weight_le hc

/-- What is left for the workers to do. -/
def workLeft : (t : Thread W ι) → Pc t → ℕ
  | .inl _, p => WorkerPc.weight p
  | .inr _, _ => 0

/-- A worker that is not blocked, or a client that owes the blocked ones a notification. -/
def Frees (c : System W ι) : Thread W ι → Prop
  | .inl w => .inl w ∉ c.shared.queue.not_empty.waiting ∧ c.pc (.inl w) ≠ .exited
  | .inr i => c.shared.queue.not_empty.waiting.Nonempty ∧ (c.pc (.inr i)).place.owesAllEmpty = true

/-- With the blocked workers the same, whoever else frees them still does. -/
theorem Frees.step {c : System W ι} {i : ι} {ev : Event W} {m : ThreadPool W ι} {p : ClientPc}
    {u : Thread W ι} (hr : ClientRule capacity i c.shared (c.pc (.inr i)) ev m p)
    (hwaiting : m.queue.not_empty.waiting = c.shared.queue.not_empty.waiting) (hu : Frees c u) :
    u ≠ .inr i ∧ Frees ⟨m, Function.update c.pc (.inr i) p⟩ u := by
  rcases u with v | j
  · exact ⟨Sum.inl_ne_inr, by simpa only [hwaiting] using hu.1, hu.2⟩
  · obtain ⟨hnonempty, howes⟩ := hu
    have hne : j ≠ i := by
      rintro rfl
      have hq := rule_toQueue (t := .inr j) hr
      rw [← hwaiting] at hnonempty
      cases hl : ev.label with
      | none =>
        generalize c.pc (.inr j) = p₀ at hr howes
        cases hr <;> first | cases howes | cases hl
      | some l =>
        rw [hl] at hq
        rw [hq.pays.1 howes] at hnonempty
        exact absurd hnonempty Finset.not_nonempty_empty
    have hpc : Function.update c.pc (.inr i) p (.inr j) = c.pc (.inr j) := update_client_of_ne _ hne _
    exact ⟨fun heq => hne (Sum.inr_injective heq), by simpa only [hwaiting] using hnonempty,
      (congrArg (fun p => (ClientPc.place p).owesAllEmpty) hpc).trans howes⟩

variable [Fintype ι]

/-- What is left for the workers, and to the queue. -/
def windingDown (c : System W ι) : ℕ := ∑ t, workLeft t (c.pc t) + c.shared.queue.weight

/-- On a closed queue a worker winds down by every step, a client by none or by waking somebody up. -/
theorem windingDown_step {c : System W ι} {t : Thread W ι} {ev : Event W} {m : ThreadPool W ι} {p : Pc t}
    (hr : rules capacity t c.shared (c.pc t) ev m p)
    (hc : c.shared.queue.closed = true) :
    windingDown ⟨m, Function.update c.pc t p⟩ < windingDown c ∨
      windingDown ⟨m, Function.update c.pc t p⟩ = windingDown c ∧
        ∀ u, Frees c u → u ≠ t ∧ Frees ⟨m, Function.update c.pc t p⟩ u := by
  obtain ⟨rest, h1, h2⟩ := sum_split (workLeft (W := W) (ι := ι)) c.pc t
  simp only [windingDown, h1, h2]
  rcases t with w | i
  · have hlower := WorkerRule.lower (w := w) hr hc
    refine .inl ?_
    simp only [workLeft]
    omega
  · obtain ⟨hle, hsame⟩ := rule_weight hr hc
    simp only [workLeft]
    rcases Nat.lt_or_eq_of_le hle with hlt | heq
    · exact .inl (by omega)
    · exact .inr ⟨by omega, fun u hu => hu.step hr (hsame.resolve_right (by omega))⟩

/-- **A closed pool winds down**: the workers exit, whatever is called meanwhile. -/
def exits (capacity : ℕ) : Ranking (rules (W := W) (ι := ι) capacity) init Event.goesOn
    (fun c => c.shared.queue.closed = true ∧ ∃ w, c.pc (.inl w) ≠ .exited)
    (fun c => c.shared.queue.closed = true ∧ ∀ w, c.pc (.inl w) = .exited) ℕ where
  rank := windingDown
  Helps := Frees
  helper log c h hP := by
    obtain ⟨hc, w, hw⟩ := hP
    by_cases hwait : .inl w ∈ c.shared.queue.not_empty.waiting
    · obtain ⟨v | i, ht⟩ := (queue_awake h).closed_empty hc ⟨_, hwait⟩
      · change (WorkerPc.place (c.pc (.inl v))).owesAllEmpty = true at ht
        cases hp : c.pc (.inl v) <;> rw [hp] at ht <;> cases ht
      · exact ⟨.inr i, ⟨_, hwait⟩, ht⟩
    · exact ⟨.inl w, hwait, hw⟩
  able log c t h hP ht := by
    rcases t with w | i
    · exact worker_canMove ht.1 ht.2
    · exact owes_canMove (.inl ht.2)
  step log c t ev m p h hP hr := by
    have hc' := (rule_queue hr).1 hP.1
    by_cases hall : ∀ w, Function.update c.pc t p (.inl w) = .exited
    · exact .inl ⟨hc', hall⟩
    · exact .inr ⟨⟨hc', not_forall.mp hall⟩, windingDown_step hr hP.1⟩

end Exits

/-! ## `join_workers`, once the workers have exited -/

section Joins

/-- How far the holder of `shutdown_mutex_` is from setting `joined_`. -/
def ClientPc.loopLeft (W : ℕ) : ClientPc → ℕ
  | .joining _ (.loop n) => W - n + 1
  | _ => 0

/-- In `join_workers`, and not past it. -/
def ClientPc.Joining (p : ClientPc) : Prop := ∃ k q, p = .joining k q ∧ q ≠ .done

theorem ClientRule.join_cases {i : ι} {m m' : ThreadPool W ι} {p p' : ClientPc} {ev : Event W}
    (h : ClientRule capacity i m p ev m' p') :
    (∃ k q q', p = .joining k q ∧ p' = .joining k q' ∧ JoinRule i m q ev m' q') ∨
      ¬ p.Joining ∧ m'.joined = m.joined ∧ m'.shutdown_mutex = m.shutdown_mutex := by
  cases h with
  | join h => exact .inl ⟨_, _, _, rfl, rfl, h⟩
  | leave =>
    refine .inr ⟨?_, by simp, by simp⟩
    rintro ⟨k, q, hp, hq⟩
    cases hp
    exact hq rfl
  | _ =>
    refine .inr ⟨?_, by simp, by simp⟩
    rintro ⟨k, q, hp, -⟩
    cases hp

variable [Fintype ι]

/-- **`joined_` is set**, and whoever is in `join_workers` gets past it. -/
def joinsUp (capacity : ℕ) (i : ι) : Ranking (rules (W := W) (ι := ι) capacity) init Event.goesOn
    (fun c => (∀ w, c.pc (.inl w) = .exited) ∧ (c.pc (.inr i)).Joining)
    (fun c => ∃ k, c.pc (.inr i) = .joining k .done) ℕ where
  rank c :=
    if c.shared.joined then 0
    else c.shared.shutdown_mutex.elim (W + 2) fun j => (c.pc (.inr j)).loopLeft W
  Helps c t := t = .inr (c.shared.shutdown_mutex.getD i)
  helper _ _ _ _ := ⟨_, rfl⟩
  able log c t h hP ht := by
    subst ht
    obtain ⟨hw, k, q, hp, hq⟩ := hP
    have hj := (joins h).2
    cases hm : c.shared.shutdown_mutex with
    | some j =>
      obtain ⟨k', n, hloop⟩ := (ClientPc.Joins.mutex (hj (.inr j))).mp hm
      exact loop_canMove hj hw hloop
    | none =>
      cases q with
      | done => exact absurd rfl hq
      | loop n =>
        rw [(ClientPc.Joins.mutex (hj (.inr i))).mpr ⟨k, n, hp⟩] at hm
        cases hm
      | lock =>
        change CanMove capacity c (.inr i)
        cases hjoined : c.shared.joined with
        | true => exact .client hp (.join (.again hm hjoined)) (by simp) rfl
        | false => exact .client hp (.join (.lock hm hjoined)) (by simp) rfl
  step log c t ev m p h hP hr := by
    obtain ⟨hw, hi⟩ := hP
    have hjoins := (joins h).2
    rcases t with w | j
    · rw [hw w] at hr
      cases (hr : WorkerRule w _ .exited _ _ _)
    · have hw' : ∀ w, Function.update c.pc (.inr j) p (.inl w) = .exited := fun w => by simpa using hw w
      have hother : j ≠ i → (Function.update c.pc (.inr j) p (.inr i) : ClientPc).Joining := fun hne => by
        rw [update_client_of_ne _ (Ne.symm hne)]
        exact hi
      rcases ClientRule.join_cases (i := j) hr with ⟨k, q, q', hq, rfl, hjr⟩ | ⟨hnot, hjoined, hmutex⟩
      · have hown : q' ≠ .done → (Function.update c.pc (.inr j) (.joining k q') (.inr i) : ClientPc).Joining :=
          fun hne => by
            by_cases hji : j = i
            · subst hji
              exact ⟨k, q', by simp, hne⟩
            · exact hother hji
        have hheld : ∀ {n}, q = .loop n → c.shared.joined = false ∧ c.shared.shutdown_mutex = some j ∧
            (c.pc (.inr j)).loopLeft W = W - n + 1 := fun hn => by
          subst hn
          exact ⟨(ClientPc.Joins.loop (hjoins (.inr j)) k _ hq).1,
            (ClientPc.Joins.mutex (hjoins (.inr j))).mpr ⟨k, _, hq⟩, by rw [hq]; rfl⟩
        cases hjr with
        | lock hm hnj => exact .inr ⟨⟨hw', hown (by simp)⟩, .inl (by simp [hnj, hm, ClientPc.loopLeft])⟩
        | again hm hj =>
          by_cases hji : j = i
          · subst hji
            exact .inl ⟨k, by simp⟩
          · refine .inr ⟨⟨hw', hother hji⟩, .inr ⟨by simp [hj], ?_⟩⟩
            rintro u rfl
            rw [hm]
            exact ⟨fun heq => hji (Sum.inr_injective heq).symm, rfl⟩
        | @join n hn hjn hf =>
          obtain ⟨hnj, hm, hleft⟩ := hheld rfl
          refine .inr ⟨⟨hw', hown (by simp)⟩, .inl ?_⟩
          simp only [joinThread_joined, joinThread_shutdown_mutex, hnj, hm, Option.elim_some, hleft,
            Function.update_self, Bool.false_eq_true, if_false]
          show W - (n + 1) + 1 < W - n + 1
          omega
        | @skip n hn hjn =>
          obtain ⟨hnj, hm, hleft⟩ := hheld rfl
          refine .inr ⟨⟨hw', hown (by simp)⟩, .inl ?_⟩
          simp only [hnj, hm, Option.elim_some, hleft, Function.update_self, Bool.false_eq_true, if_false]
          show W - (n + 1) + 1 < W - n + 1
          omega
        | joined hn =>
          obtain ⟨hnj, hm, hleft⟩ := hheld rfl
          by_cases hji : j = i
          · subst hji
            exact .inl ⟨k, by simp⟩
          · exact .inr ⟨⟨hw', hother hji⟩, .inl (by simp [hnj, hm, hleft])⟩
      · have hji : j ≠ i := by
          rintro rfl
          exact hnot hi
        refine .inr ⟨⟨hw', hother hji⟩, .inr ⟨?_, ?_⟩⟩
        · cases hm : c.shared.shutdown_mutex with
          | none => simp [hjoined, hmutex, hm]
          | some l =>
            obtain ⟨k, n, hl⟩ := (ClientPc.Joins.mutex (hjoins (.inr l))).mp hm
            have hlj : l ≠ j := by
              rintro rfl
              exact hnot ⟨k, .loop n, hl, by simp⟩
            simp only [hjoined, hmutex, hm, Option.elim_some, update_client_of_ne _ hlj]
        · rintro u rfl
          rw [hmutex]
          refine ⟨fun heq => ?_, rfl⟩
          cases hm : c.shared.shutdown_mutex with
          | none =>
            rw [hm] at heq
            exact hji (Sum.inr_injective heq).symm
          | some l =>
            obtain ⟨k, n, hl⟩ := (ClientPc.Joins.mutex (hjoins (.inr l))).mp hm
            rw [hm] at heq
            rw [show l = j from Sum.inr_injective heq] at hl
            exact hnot ⟨k, .loop n, hl, by simp⟩

end Joins

/-! ## The calls -/

section Calls

/-- In `submit`, past the decision of the queue. -/
def ClientPc.Decided : ClientPc → Prop
  | .pushing (.notifying _) | .pushing (.done _) | .pushing (.refused _) | .counting _ => True
  | _ => False

/-- In a shutdown, before `join_workers`. -/
def ClientPc.Shutting : ClientPc → Prop
  | .closing _ _ | .draining _ | .discarding _ _ _ => True
  | _ => False

/-- What is left to do before `join_workers`; how much `close_and_drain` will remove is open before it has. -/
def ClientPc.shutLeft (W : ℕ) (p : ClientPc) : WithTop ℕ := if p = .draining .enter then ⊤ else p.weight W

variable {i : ι} {m m' : ThreadPool W ι} {p p' : ClientPc} {ev : Event W}

theorem ClientRule.decided (h : ClientRule capacity i m p ev m' p') (hp : p.Decided) :
    p' = .idle ∨ p'.Decided ∧ p'.weight W < p.weight W := by
  cases h with
  | push h =>
    cases h with
    | notify_one _ => exact .inr ⟨trivial, by simp [ClientPc.weight, BlockingQueue.PushPc.weight]⟩
    | _ => cases hp
  | accept => exact .inl rfl
  | reject _ => exact .inr ⟨trivial, by simp [ClientPc.weight, BlockingQueue.PushPc.weight]⟩
  | refuse => exact .inl rfl
  | _ => cases hp

theorem ClientRule.shutting (h : ClientRule capacity i m p ev m' p') (hp : p.Shutting) :
    (∃ k, p' = .joining k .lock) ∨ p'.Shutting ∧ p'.shutLeft W < p.shutLeft W := by
  have hlow : ∀ {p p' : ClientPc}, p ≠ .draining .enter → p' ≠ .draining .enter → p'.weight W < p.weight W →
      p'.shutLeft W < p.shutLeft W := fun h h' hlt => by
    simpa [ClientPc.shutLeft, h, h'] using hlt
  cases h with
  | close h =>
    refine .inr ⟨trivial, hlow (by simp) (by simp) ?_⟩
    cases h with
    | enter h =>
      cases BlockingQueue.closeSection_cases h <;> simp [ClientPc.weight, BlockingQueue.ClosePc.weight]
    | _ => simp [ClientPc.weight, BlockingQueue.ClosePc.weight]
  | closed => exact .inl ⟨_, rfl⟩
  | drain h =>
    refine .inr ⟨trivial, ?_⟩
    cases h with
    -- what this leaves to discard is not known before: `shutLeft` was infinite
    | enter h =>
      cases h
      simp [ClientPc.shutLeft]
    | _ => exact hlow (by simp) (by simp) (by simp [ClientPc.weight, BlockingQueue.DrainPc.weight])
  | drained _ =>
    exact .inr ⟨trivial, hlow (by simp) (by simp) (by simp [ClientPc.weight, BlockingQueue.DrainPc.weight])⟩
  | discard => exact .inr ⟨trivial, hlow (by simp) (by simp) (by simp [ClientPc.weight])⟩
  | count => exact .inl ⟨_, rfl⟩
  | _ => cases hp

variable [Fintype ι] {E : Execution (rules (W := W) (ι := ι) capacity) init} {n : ℕ}

omit [Fintype ι] in
/-- A client that can go on, and gets nearer to `Q` by every step of its own. -/
theorem client_leadsTo {At Q : ClientPc → Prop} {α : Type} [PartialOrder α] [WellFoundedLT α]
    (left : ClientPc → α) (hfair : E.Fair Event.goesOn)
    (hable : ∀ c : System W ι, At (c.pc (.inr i)) → CanMove capacity c (.inr i))
    (hown : ∀ m p ev m' p', At p → ClientRule capacity (W := W) i m p ev m' p' → Q p' ∨ At p' ∧ left p' < left p)
    (hp : At ((E.config n).pc (.inr i))) : ∃ k, n ≤ k ∧ Q ((E.config k).pc (.inr i)) := by
  have hable' : ∀ log (c : System W ι), Run (rules capacity) init log c → At (c.pc (.inr i)) →
      Able (rules capacity) Event.goesOn c (.inr i) := fun _ c _ => hable c
  have hown' : ∀ log (c : System W ι) ev m p, Run (rules capacity) init log c → At (c.pc (.inr i)) →
      rules capacity (.inr i) c.shared (c.pc (.inr i)) ev m p →
        Q (Function.update c.pc (.inr i) p (.inr i)) ∨ At p ∧ left p < left (c.pc (.inr i)) :=
    fun _ c ev m p _ hp hr => (hown _ _ _ _ _ hp hr).imp_left fun h => by simpa using h
  exact (Ranking.own (Q := fun c => Q (c.pc (.inr i))) (.inr i) At left hable' hown').leadsTo hfair hp

omit [Fintype ι] in
/-- Past the decision of the queue `submit` returns. -/
theorem decided_leadsTo (hfair : E.Fair Event.goesOn) (hp : ((E.config n).pc (.inr i)).Decided) :
    ∃ k, n ≤ k ∧ (E.config k).pc (.inr i) = .idle := by
  refine client_leadsTo (ClientPc.weight W) hfair (fun c hp => ?_) (fun m p ev m' p' hp h => h.decided hp) hp
  generalize hpc : c.pc (.inr i) = p at hp
  cases p with
  | pushing p =>
    cases p with
    | notifying e =>
      obtain ⟨cv, hcv⟩ := c.shared.queue.not_empty.exists_notifyOne
      exact .client hpc (.push (.notify_one hcv)) (by simp) rfl
    | done e => exact .client hpc (.accept) (by simp) rfl
    | refused e => exact .client hpc (.reject 0) (by simp) rfl
    | _ => cases hp
  | counting e => exact .client hpc (.refuse) (by simp) rfl
  | _ => cases hp

omit [Fintype ι] in
theorem shutting_leadsTo (hfair : E.Fair Event.goesOn) (hp : ((E.config n).pc (.inr i)).Shutting) :
    ∃ k, n ≤ k ∧ ∃ j, (E.config k).pc (.inr i) = .joining j .lock := by
  refine client_leadsTo (ClientPc.shutLeft W) hfair (fun c hp => ?_) (fun m p ev m' p' hp h => h.shutting hp) hp
  generalize hpc : c.pc (.inr i) = p at hp
  cases p with
  | closing k p =>
    rcases BlockingQueue.CloseRule.enabled (q := c.shared.queue) p with ⟨ev, q, p', hr, hs⟩ | rfl
    · exact .client hpc (.close hr) (by simpa using hs) rfl
    · exact .client hpc (.closed) (by simp) rfl
  | draining p =>
    rcases BlockingQueue.DrainRule.enabled (q := c.shared.queue) p with ⟨ev, q, p', hr, hs⟩ | ⟨ds, rfl⟩
    · exact .client hpc (.drain hr) (by simpa using hs) rfl
    · exact .client hpc (.drained 0) (by simp) rfl
  | discarding f rejected rest =>
    cases rest with
    | nil => exact .client hpc (.count) (by simp) rfl
    | cons e rest => exact .client hpc (.discard) (by simp) rfl
  | _ => cases hp

omit [Fintype ι] in
theorem joined_leadsTo (hfair : E.Fair Event.goesOn) {j : Caller}
    (hp : (E.config n).pc (.inr i) = .joining j .done) : ∃ k, n ≤ k ∧ (E.config k).pc (.inr i) = .idle := by
  let At (p : ClientPc) : Prop := p = .joining j .done
  refine client_leadsTo (Q := fun p => p = .idle) (fun _ => 0) hfair
    (fun c (hp : At _) => .client hp .leave (by simp) rfl) (fun m p ev m' p' hp h => ?_) hp
  subst hp
  cases h with
  | join h => cases h
  | leave => exact .inl rfl

theorem closed_exits (hfair : E.Fair Event.goesOn) (hc : (E.config n).shared.queue.closed = true) :
    ∃ k, n ≤ k ∧ ∀ w, (E.config k).pc (.inl w) = .exited := by
  by_cases hall : ∀ w, (E.config n).pc (.inl w) = .exited
  · exact ⟨n, le_rfl, hall⟩
  · obtain ⟨k, hk, -, hexit⟩ := (exits capacity).leadsTo hfair ⟨hc, not_forall.mp hall⟩
    exact ⟨k, hk, hexit⟩

theorem joining_leadsTo (hfair : E.Fair Event.goesOn) {j : Caller} {q : JoinPc}
    (hp : (E.config n).pc (.inr i) = .joining j q) : ∃ k, n ≤ k ∧ (E.config k).pc (.inr i) = .idle := by
  by_contra hno
  -- it is in there for good, also once the workers have exited
  have hin : ∀ k, n ≤ k → ∃ j q, (E.config k).pc (.inr i) = .joining j q := by
    intro k hk
    induction k, hk using Nat.le_induction with
    | base => exact ⟨j, q, hp⟩
    | succ k hk ih =>
      obtain ⟨j, q, hjq⟩ := ih
      have hnot := fun h => hno ⟨k + 1, by omega, h⟩
      rcases E.next k with hs | ⟨t, ev, m, p, hr, hs⟩
      · exact ⟨j, q, by rw [hs, hjq]⟩
      · rw [hs] at hnot ⊢
        by_cases ht : t = .inr i
        · subst ht
          rw [hjq] at hr
          cases (show ClientRule capacity i _ _ _ _ _ from hr) with
          | join _ => exact ⟨_, _, by simp; exact ⟨rfl, rfl⟩⟩
          | leave => exact absurd (by simp) hnot
        · exact ⟨j, q, by simpa [Function.update_of_ne (Ne.symm ht)] using hjq⟩
  have hclosed : (E.config n).shared.queue.closed = true :=
    ClientPc.Joins.closed ((joins (E.run n)).2 (.inr i)) (by rw [hp]; rfl)
  obtain ⟨k, hk, hw⟩ := closed_exits hfair hclosed
  obtain ⟨l, hl, j', hdone⟩ : ∃ l, n ≤ l ∧ ∃ j, (E.config l).pc (.inr i) = .joining j .done := by
    obtain ⟨j', q', hq⟩ := hin k hk
    by_cases hd : q' = .done
    · exact ⟨k, hk, j', hd ▸ hq⟩
    · obtain ⟨l, hl, hdone⟩ := (joinsUp capacity i).leadsTo hfair ⟨hw, j', q', hq, hd⟩
      exact ⟨l, hk.trans hl, hdone⟩
  obtain ⟨r, hr, hidle⟩ := joined_leadsTo hfair hdone
  exact hno ⟨r, hl.trans hr, hidle⟩

/-- **Every call returns**, however many calls are made, fairly to the threads that can go on; all but a
`submit` that waits for room for ever, on a queue that is never closed. -/
theorem fair_calls (hfair : E.Fair Event.goesOn) (n : ℕ) (i : ι) :
    (∃ k, n ≤ k ∧ (E.config k).pc (.inr i) = .idle) ∨ ∃ e, ∀ k, n ≤ k →
      (E.config k).shared.queue.closed = false ∧
        ((E.config k).pc (.inr i) = .pushing (.enter e) ∨ (E.config k).pc (.inr i) = .pushing (.waiting e)) := by
  have hdecided : ∀ {k}, n ≤ k → ((E.config k).pc (.inr i)).Decided →
      ∃ k, n ≤ k ∧ (E.config k).pc (.inr i) = .idle := fun hk hd => by
    obtain ⟨l, hl, hidle⟩ := decided_leadsTo hfair hd
    exact ⟨l, hk.trans hl, hidle⟩
  have hjoining : ∀ {k j q}, n ≤ k → (E.config k).pc (.inr i) = .joining j q →
      ∃ k, n ≤ k ∧ (E.config k).pc (.inr i) = .idle := fun hk hq => by
    obtain ⟨l, hl, hidle⟩ := joining_leadsTo hfair hq
    exact ⟨l, hk.trans hl, hidle⟩
  have hshutting : ((E.config n).pc (.inr i)).Shutting → ∃ k, n ≤ k ∧ (E.config k).pc (.inr i) = .idle :=
    fun hs => by
      obtain ⟨k, hk, j, hlock⟩ := shutting_leadsTo hfair hs
      exact hjoining hk hlock
  -- a `submit` that waits for room is served, or refused, or waits for ever
  have hpending : ∀ e, e ∈ ((E.config n).pc (.inr i)).pending →
      (∃ k, n ≤ k ∧ (E.config k).pc (.inr i) = .idle) ∨ ∃ e, ∀ k, n ≤ k →
        (E.config k).shared.queue.closed = false ∧ e ∈ ((E.config k).pc (.inr i)).pending := fun e he => by
    refine (pending_leadsTo hfair he).imp (fun ⟨k, hk, hserved⟩ => hdecided hk ?_) fun hwait => ⟨e, hwait⟩
    rcases hserved with ⟨hn, -⟩ | href
    · rw [hn]
      trivial
    · generalize (E.config k).pc (.inr i) = p at href
      rcases p with _ | (_ | _ | _ | _ | _) | _ | _ | _ | _ | _ <;> first | (simp at href; done) | trivial
  have hplace : ∀ e, e ∈ ((E.config n).pc (.inr i)).pending →
      (∃ k, n ≤ k ∧ (E.config k).pc (.inr i) = .idle) ∨ ∃ e, ∀ k, n ≤ k →
        (E.config k).shared.queue.closed = false ∧
          ((E.config k).pc (.inr i) = .pushing (.enter e) ∨ (E.config k).pc (.inr i) = .pushing (.waiting e)) :=
    fun e he => (hpending e he).imp_right fun ⟨e, hwait⟩ => ⟨e, fun k hk => ⟨(hwait k hk).1, by
      have hpend := (hwait k hk).2
      generalize (E.config k).pc (.inr i) = p at hpend ⊢
      rcases p with _ | (_ | _ | _ | _ | _) | _ | _ | _ | _ | _ <;> simp at hpend <;> simp [hpend]⟩⟩
  cases hp : (E.config n).pc (.inr i) with
  | idle => exact .inl ⟨n, le_rfl, hp⟩
  | pushing p =>
    cases p with
    | enter e => exact hplace e (by rw [hp]; simp)
    | waiting e => exact hplace e (by rw [hp]; simp)
    | _ => exact .inl (hdecided le_rfl (by rw [hp]; trivial))
  | counting e => exact .inl (hdecided le_rfl (by rw [hp]; trivial))
  | joining j q => exact .inl (hjoining le_rfl hp)
  | _ => exact .inl (hshutting (by rw [hp]; trivial))

/-- The `shutdown` of the drain returns. -/
theorem fair_calls_restRun : ∃ E : Execution (rules (W := 1) (ι := Fin 2) 1) init, E.Fair Event.goesOn ∧
    E.log restRun.1.length = restRun.1 ∧ ∃ k, 5 ≤ k ∧ (E.config k).pc (.inr 1) = .idle := by
  obtain ⟨E, hfair, hlog, hend⟩ := restRun_fair
  refine ⟨E, hfair, hlog, (fair_calls hfair 5 1).resolve_right ?_⟩
  rintro ⟨e, hwait⟩
  have hopen := (hwait restRun.1.length (by decide)).1
  rw [hend _ le_rfl] at hopen
  cases hopen

end Calls

end ThreadPool

end TaskEngine
