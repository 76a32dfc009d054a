import TaskEngine.Pool.Records

/-!
# TaskEngine.Pool.Modes — drain and abort

What the two shutdown modes promise about the tasks.  Without a `shutdown_now`, once a shutdown call
has returned, everything accepted has been run and only what found the queue closed is rejected, so
that what is delivered does not depend on the schedule (`drain_semantics`).  With one, the first
`close_and_drain` separates the tasks that are run, those popped before it, from those that are
rejected (`abort_semantics`).
-/

namespace TaskEngine

open Interleaving

namespace ThreadPool

variable {W : ℕ} {ι : Type}

/-! ## Calls of `shutdown_now` and their critical sections -/

section Aborts

/-- A call of `shutdown_now`. -/
def Event.abortCall : Event W → ℕ
  | .shutdown_now => 1
  | _ => 0

/-- The critical section of a `close_and_drain`. -/
def Event.abort : Event W → ℕ
  | .queue (.drain _) => 1
  | _ => 0

/-- A `shutdown_now` before its critical section. -/
def ClientPc.aborting : ClientPc → ℕ
  | .draining .enter => 1
  | _ => 0

attribute [simp] Event.abortCall.eq_1 Event.abortCall.eq_2 Event.abort.eq_1 Event.abort.eq_2
  ClientPc.aborting.eq_1 ClientPc.aborting.eq_2

theorem Event.abortCall_of_ne {ev : Event W} (h : ev ≠ .shutdown_now) : ev.abortCall = 0 := by
  cases ev <;> first | rfl | exact absurd rfl h

theorem Event.drained_of_abort {ev : Event W} (h : ev.abort = 0) : ev.drained = [] := by
  cases ev with
  | queue ev => cases ev <;> simp at h ⊢
  | _ => rfl

theorem Event.eq_of_abort {ev : Event W} (h : ev.abort ≠ 0) : ev = .queue (.drain ev.drained) := by
  cases ev with
  | queue ev => cases ev <;> simp at h ⊢
  | _ => simp at h

variable [DecidableEq ι]

/-- From the call to the critical section. -/
def aborting (capacity : ℕ) : Ledger (rules (W := W) (ι := ι) capacity) ℕ where
  hand
    | .inl _, _ => 0
    | .inr _, p => ClientPc.aborting p
  store _ := 0
  inflow := Event.abortCall
  outflow := Event.abort
  balance t _ _ _ _ _ h := by
    rcases t with w | i
    · cases (h : WorkerRule w _ _ _ _ _) with
      | pop h =>
        cases h with
        | enter h => cases BlockingQueue.popSection_cases h <;> simp
        | resume _ h => cases BlockingQueue.popSection_cases h <;> simp
        | _ => simp
      | _ => simp
    · cases (h : ClientRule capacity i _ _ _ _ _) with
      | join h => cases h <;> simp
      | push h =>
        cases h with
        | enter h => cases BlockingQueue.pushSection_cases h <;> simp
        | resume _ h => cases BlockingQueue.pushSection_cases h <;> simp
        | _ => simp
      | close h =>
        cases h with
        | enter h => cases BlockingQueue.closeSection_cases h <;> simp
        | _ => simp
      | drain h =>
        cases h with
        | enter h => cases h; simp
        | _ => simp
      | _ => simp

variable [Fintype ι] {capacity : ℕ} {c : System W ι}
  {log : List (Thread W ι × Event W)}

theorem aborting_balance (h : Run (rules capacity) init log c) :
    ∑ i, ClientPc.aborting (c.pc (.inr i)) + (log.map fun l => l.2.abort).sum =
      (log.map fun l => l.2.abortCall).sum := by
  simpa [Ledger.hands, Ledger.income, Ledger.expense, aborting, init] using (aborting capacity).run h

/-- Without a `shutdown_now` nothing is drained. -/
theorem drained_of_no_abort (h : Run (rules capacity) init log c)
    (hno : ∀ l ∈ log, l.2 ≠ .shutdown_now) : drained log = [] := by
  have hcalls : (log.map fun l => l.2.abortCall).sum = 0 := by
    apply List.sum_eq_zero
    intro n hn
    obtain ⟨l, hl, rfl⟩ := List.mem_map.mp hn
    exact Event.abortCall_of_ne (hno l hl)
  have hbal := aborting_balance h
  rw [hcalls] at hbal
  have hz : (log.map fun l => l.2.abort).sum = 0 := by omega
  exact List.flatMap_eq_nil_iff.mpr fun l hl =>
    Event.drained_of_abort (List.sum_eq_zero_iff.mp hz _ (List.mem_map_of_mem hl))

/-- Once every `shutdown_now` has returned, there is a first critical section among theirs. -/
theorem first_abort (h : Run (rules capacity) init log c) (hi : ∀ i, c.pc (.inr i) = .idle)
    (hnow : ∃ l ∈ log, l.2 = .shutdown_now) :
    ∃ before t discarded after, log = before ++ (t, .queue (.drain discarded)) :: after ∧
      ∀ l ∈ before, ∀ ds, l.2 ≠ .queue (.drain ds) := by
  have hbal := aborting_balance h
  have hcalls : 1 ≤ (log.map fun l => l.2.abortCall).sum := by
    obtain ⟨l, hl, hev⟩ := hnow
    have := List.single_le_sum (l := log.map fun l => l.2.abortCall) (by simp) _ (List.mem_map_of_mem hl)
    simpa [hev] using this
  simp only [hi, ClientPc.aborting, Finset.sum_const_zero, zero_add] at hbal
  obtain ⟨l, hl, hne⟩ : ∃ l ∈ log, l.2.abort ≠ 0 := by
    by_contra hall
    push Not at hall
    have : (log.map fun l => l.2.abort).sum = 0 := List.sum_eq_zero fun n hn => by
      obtain ⟨l, hl, rfl⟩ := List.mem_map.mp hn
      exact hall l hl
    omega
  obtain ⟨l, hl⟩ := Option.isSome_iff_exists.mp
    (List.find?_isSome.mpr ⟨l, hl, by simpa using hne⟩ : (log.find? fun l => l.2.abort != 0).isSome)
  obtain ⟨hl, before, after, hlog, hbefore⟩ := List.find?_eq_some_iff_append.mp hl
  refine ⟨before, l.1, l.2.drained, after, ?_, ?_⟩
  · rw [← Event.eq_of_abort (by simpa using hl)]
    exact hlog
  · intro l hl ds hev
    simpa [hev] using hbefore l hl

end Aborts

/-! ## What becomes of an envelope -/

section Fates

variable [DecidableEq ι] [Fintype ι] {capacity : ℕ}
  {c : System W ι} {log : List (Thread W ι × Event W)}
  {e : TaskEnvelope}

theorem decided_nodup (h : Run (rules capacity) init log c) :
    (popped log ++ drained log ++ c.shared.queue.items ++ refused log).Nodup := by
  have hs := submitting_from_init h
  rw [← queue_from_init h, Multiset.coe_add] at hs
  have hn : (submitted log : Multiset TaskEnvelope).Nodup :=
    Multiset.coe_nodup.mpr (submitted_nodup h).of_map
  rw [← hs] at hn
  exact Multiset.coe_nodup.mp (Multiset.nodup_of_le le_add_self hn)

theorem popped_nodup (h : Run (rules capacity) init log c) : (popped log).Nodup :=
  (decided_nodup h).of_append_left.of_append_left.of_append_left

/-- An envelope that was popped has been run once, and its future reports how that ended. -/
theorem ran_of_popped (hW : 0 < W) (h : Run (rules capacity) init log c)
    (hw : ∀ w, c.pc (.inl w) = .exited) (he : e ∈ popped log) :
    (reached .start log).count e = 1 ∧ (reached .finish log).count e = 1 ∧
      ∃ dequeued finished, c.shared.promises[e.promise]? = some (.value (e.result dequeued finished)) := by
  have hone : (popped log).count e = 1 := List.count_eq_one_of_mem (popped_nodup h) he
  have hcount : ∀ s, (reached s log).count e = 1 := fun s => by
    rw [← Multiset.coe_count, reached_of_exited h hw s, Multiset.coe_count, hone]
  refine ⟨hcount .start, hcount .finish, value_of_ran hW h ?_⟩
  exact List.count_pos_iff.mp (by rw [hcount]; exact Nat.one_pos)

theorem not_started (h : Run (rules capacity) init log c) (hw : ∀ w, c.pc (.inl w) = .exited)
    (he : e ∉ popped log) : e ∉ reached .start log := by
  rwa [← Multiset.mem_coe, reached_of_exited h hw, Multiset.mem_coe]

/-- At the end, an envelope that no worker popped has been rejected. -/
theorem rejected_of_not_popped (hW : 0 < W) (h : Run (rules capacity) init log c)
    (hi : ∀ i, c.pc (.inr i) = .idle) (hw : ∀ w, c.pc (.inl w) = .exited) (he : e ∈ submitted log)
    (hp : e ∉ popped log) :
    ∃ finished, c.shared.promises[e.promise]? = some (.value (e.rejection finished)) := by
  obtain ⟨c1, c2, c3⟩ := idle_holds_nothing hi
  have hs := submitting_from_init h
  have hr := refusing_from_init .fulfil h
  have hd := discarding_from_init .fulfil h
  have hq := queue_from_init h
  rw [c1, zero_add, Multiset.coe_add] at hs
  rw [c2, zero_add] at hr
  rw [c3, zero_add] at hd
  rw [(exhausted_of_exited hW h hw).2, List.append_nil] at hq
  refine value_of_rejected hW h ?_
  rw [← Multiset.mem_coe, ← hs, ← hq, Multiset.mem_coe, List.mem_append, List.mem_append] at he
  rw [← Multiset.mem_coe, hr, ← Multiset.mem_coe (l := discards .fulfil log), hd, Multiset.mem_coe,
    Multiset.mem_coe]
  tauto

theorem WorkerPc.before_le (s : Stage) (p : WorkerPc) :
    p.before s ≤ p.before .record ∧ (p.before .record).card ≤ 1 := by
  rcases p with _ | (_ | _ | _ | _ | _) | _ | _ | _ | _ <;> cases s <;> simp

omit [DecidableEq ι] [Fintype ι] in
/-- Every worker holds one envelope at most. -/
theorem workingAll_le (s : Stage) (c : System W ι) :
    workingAll s c ≤ workingAll .record c ∧ (workingAll .record c).card ≤ W := by
  refine ⟨Finset.sum_le_sum fun w _ => (WorkerPc.before_le s _).1, ?_⟩
  rw [workingAll, Multiset.card_sum]
  calc ∑ w, (WorkerPc.before .record (c.pc (.inl w))).card
      ≤ ∑ _w : Fin W, 1 := Finset.sum_le_sum fun w _ => (WorkerPc.before_le .record _).2
    _ = W := by simp

end Fates

/-! ## Drain -/

section Drain

/-- A call of one of the functions that close the queue. -/
def Event.closing : Event W → Bool
  | .shutdown _ | .shutdown_now => true
  | _ => false

attribute [simp] Event.closing.eq_1 Event.closing.eq_2

/-- Not in a call that closes the queue. -/
def submitting_only : (t : Thread W ι) → Pc t → Bool
  | .inl _, _ => true
  | .inr _, .idle | .inr _, .pushing _ | .inr _, .counting _ => true
  | _, _ => false

variable [DecidableEq ι] {capacity : ℕ}
  {c d : System W ι} {log : List (Thread W ι × Event W)}

/-- An open queue stays open, and refuses nothing, until a call that closes it. -/
theorem rule_open {t : Thread W ι} {m m' : ThreadPool W ι} {p p' : Pc t} {ev : Event W}
    (h : rules capacity t m p ev m' p') (hev : ev.closing = false) (hc : m.queue.closed = false)
    (hp : submitting_only t p = true) :
    m'.queue.closed = false ∧ ev.refused = [] ∧ submitting_only t p' = true := by
  rcases t with w | i
  · cases (h : WorkerRule w _ _ _ _ _) with
    | pop h =>
      refine ⟨?_, by simp [h.flow.2.2.1], rfl⟩
      cases h with
      | enter h => cases BlockingQueue.popSection_cases h <;> exact hc
      | resume _ h => cases BlockingQueue.popSection_cases h <;> exact hc
      | _ => exact hc
    | fulfil => exact ⟨by simpa using hc, rfl, rfl⟩
    | _ => exact ⟨hc, rfl, rfl⟩
  · cases (h : ClientRule capacity i _ _ _ _ _) with
    | push h =>
      refine ⟨?_, ?_, rfl⟩
      all_goals
        cases h with
        | enter h => cases BlockingQueue.pushSection_cases h <;> simp_all
        | resume _ h => cases BlockingQueue.pushSection_cases h <;> simp_all
        | _ => simp_all
    | submit _ _ _ => exact ⟨hc, rfl, rfl⟩
    | accept => exact ⟨hc, rfl, rfl⟩
    | reject _ => exact ⟨by simpa using hc, rfl, rfl⟩
    | refuse => exact ⟨hc, rfl, rfl⟩
    | _ => simp_all [submitting_only]

/-- Before the first shutdown call the queue is open and no push is refused. -/
theorem open_of_no_shutdown (h : Run (rules capacity) init log c)
    (hno : ∀ l ∈ log, l.2.closing = false) : c.shared.queue.closed = false ∧ refused log = [] := by
  suffices hinv : (∀ l ∈ log, l.2.closing = false) →
      (c.shared.queue.closed = false ∧ refused log = []) ∧ ∀ t, submitting_only t (c.pc t) = true from
    (hinv hno).1
  refine h.induct (I := fun log d => (∀ l ∈ log, l.2.closing = false) →
    (d.shared.queue.closed = false ∧ refused log = []) ∧ ∀ t, submitting_only t (d.pc t) = true) ?_ ?_
  · exact fun _ => ⟨⟨rfl, rfl⟩, by rintro (w | i) <;> rfl⟩
  · intro log d t ev m p _ ih hr hno
    obtain ⟨⟨hc, href⟩, hsub⟩ := ih fun l hl => hno l (List.mem_append_left _ hl)
    obtain ⟨hc', href', hsub'⟩ := rule_open hr (hno (t, ev) (by simp)) hc (hsub t)
    refine ⟨⟨hc', by simpa [href'] using href⟩, ?_⟩
    exact (Function.forall_update_iff d.pc fun u q => submitting_only u q = true).mpr
      ⟨hsub', fun u _ => hsub u⟩

/-- A run without `shutdown_now` in which a shutdown call has returned. -/
structure DrainRun (capacity : ℕ) (log : List (Thread W ι × Event W))
    (c : System W ι) : Prop where
  run : Run (rules capacity) init log c
  no_abort : ∀ l ∈ log, l.2 ≠ .shutdown_now
  returned : ∃ l ∈ log, ∃ k, l.2 = .leave k

/-- A run in two parts: in the first, client `i` submits these tasks, and all its calls return before
any shutdown is called; in the second nothing is submitted. -/
structure SubmittedFirst (capacity : ℕ) (tasks : List (TaskId × Task)) (i : ι)
    (before after : List (Thread W ι × Event W))
    (d c : System W ι) : Prop where
  first : Run (rules capacity) init before d
  second : Run (rules capacity) d after c
  not_closing : ∀ l ∈ before, l.2.closing = false
  submitter : ∀ l ∈ before, l.2.submitted ≠ [] → l.1 = .inr i
  returned : d.pc (.inr i) = .idle
  no_more : submitted after = []
  tasks_eq : (submitted before).map (fun e => (e.id, e.task)) = tasks

variable [Fintype ι] {tasks : List (TaskId × Task)} {i : ι}
  {before after : List (Thread W ι × Event W)}

/-- What was submitted by one client before any shutdown has been accepted. -/
theorem SubmittedFirst.accepted (hs : SubmittedFirst capacity tasks i before after d c) :
    refused (before ++ after) = [] ∧ pendingAll c = 0 := by
  have hpend : pendingAll d = 0 := by
    apply Finset.sum_eq_zero
    intro j _
    generalize hp : d.pc (.inr j) = p
    cases p with
    | pushing p =>
      obtain ⟨l₁, l₂, hlog, -⟩ := push_value hs.first hp
      have hj := hs.submitter (.inr j, .submit p.value) (by simp [hlog]) (by simp)
      obtain rfl : j = i := by simpa using hj
      rw [hs.returned] at hp
      cases hp
    | _ => rfl
  have hb := submitting_balance hs.second
  rw [hpend, hs.no_more, Multiset.coe_nil, add_zero] at hb
  simp only [add_eq_zero, Multiset.coe_eq_zero] at hb
  refine ⟨?_, hb.1⟩
  rw [refused, collect_append]
  exact List.append_eq_nil_iff.mpr ⟨(open_of_no_shutdown hs.first hs.not_closing).2, hb.2.2⟩

theorem DrainRun.popped_eq (hW : 0 < W) (h : DrainRun capacity log c) :
    popped log = pushed log ∧ drained log = [] ∧ ∀ w, c.pc (.inl w) = .exited := by
  have hj := joined_of_returned h.run h.returned
  have hd := drained_of_no_abort h.run h.no_abort
  have hp := pushed_of_joined hW h.run hj
  rw [hd, List.append_nil] at hp
  exact ⟨hp, hd, (exited_of_joined hW h.run hj).2⟩

omit [DecidableEq ι] [Fintype ι] in
theorem SubmittedFirst.submitted_eq [DecidableEq ι]
    (hs : SubmittedFirst capacity tasks i before after d c) :
    submitted (before ++ after) = submitted before := by
  rw [submitted, collect_append, show collect Event.submitted after = [] from hs.no_more,
    List.append_nil]

theorem SubmittedFirst.popped_perm (hW : 0 < W) (h : DrainRun capacity (before ++ after) c)
    (hs : SubmittedFirst capacity tasks i before after d c) :
    (popped (before ++ after) : Multiset TaskEnvelope) = submitted before := by
  obtain ⟨href, hpend⟩ := hs.accepted
  have hb := submitting_from_init h.run
  rw [hpend, href, zero_add, Multiset.coe_nil, add_zero, ← (h.popped_eq hW).1] at hb
  rw [hb, hs.submitted_eq]

/-- **What a drain run delivers** depends on the tasks alone: the futures, in the order of the
submissions, the samples and the rejection counter. -/
theorem SubmittedFirst.delivered (hW : 0 < W) (h : DrainRun capacity (before ++ after) c)
    (hs : SubmittedFirst capacity tasks i before after d c) :
    c.shared.promises.map Promise.delivery =
      tasks.map (fun t => some (TaskEnvelope.mk t.1 t.2 0 0).delivery) ∧
    (c.shared.merged : Multiset Sample).map (fun s => (s.id, s.state)) =
      (tasks : Multiset (TaskId × Task)).map (fun t => (t.1, (TaskEnvelope.mk t.1 t.2 0 0).outcome)) ∧
    rejected_count c.shared = 0 := by
  obtain ⟨hpop, hdr, hw⟩ := h.popped_eq hW
  have hperm := hs.popped_perm hW h
  refine ⟨?_, ?_, ?_⟩
  · rw [← hs.tasks_eq, List.map_map, ← hs.submitted_eq]
    apply promises_map h.run
    intro e he
    -- nothing submitted was refused, so everything was popped and run
    have hmem : e ∈ popped (before ++ after) := by
      rw [← Multiset.mem_coe, hperm, Multiset.mem_coe, ← hs.submitted_eq]
      exact he
    obtain ⟨-, -, dq, f, hr⟩ := ran_of_popped hW h.run hw hmem
    exact ⟨_, hr, Promise.delivery_result e dq f⟩
  · rw [samples_eq h.run, reached_of_exited h.run hw, hperm, ← hs.tasks_eq, Multiset.map_coe,
      Multiset.map_coe, List.map_map]
    rfl
  · have hr := refusals_le .count h.run
    have hd := discards_le .count h.run
    rw [hs.accepted.1, Multiset.coe_nil, Multiset.le_zero, Multiset.coe_eq_zero] at hr
    rw [hdr, Multiset.coe_nil, Multiset.le_zero, Multiset.coe_eq_zero] at hd
    rw [rejected_eq h.run, hr, hd]
    rfl

/-- Everything accepted has been run, once, and its future tells how. -/
theorem DrainRun.accepted_ran (hW : 0 < W) (h : DrainRun capacity log c) {e : TaskEnvelope}
    (he : e ∈ pushed log) :
    (reached .start log).count e = 1 ∧ (reached .finish log).count e = 1 ∧
      ∃ r, c.shared.promises[e.promise]? = some (.value r) ∧
        (r.state = .Succeeded ↔ e.task.execute = .returns) ∧
        (r.state = .Failed ↔ e.task.execute ≠ .returns) ∧ r.state ≠ .Rejected := by
  obtain ⟨hpop, -, hw⟩ := h.popped_eq hW
  rw [← hpop] at he
  obtain ⟨hstart, hfinish, dq, f, hr⟩ := ran_of_popped hW h.run hw he
  refine ⟨hstart, hfinish, _, hr, ?_, ?_, ?_⟩
  · rw [TaskEnvelope.result_state]; exact e.outcome_eq_succeeded
  · rw [TaskEnvelope.result_state]; exact e.outcome_eq_failed
  · rw [TaskEnvelope.result_state]; exact e.outcome_ne_rejected

/-- A future is `Rejected`, its task never started, exactly when the push was refused. -/
theorem DrainRun.rejected_iff (hW : 0 < W) (h : DrainRun capacity log c) {e : TaskEnvelope}
    (he : e ∈ submitted log) {r : TaskResult} (hr : c.shared.promises[e.promise]? = some (.value r)) :
    r.state = .Rejected ∧ e ∉ reached .start log ↔ e ∈ refused log := by
  obtain ⟨-, hdr, -⟩ := h.popped_eq hW
  have hval : e ∈ fulfilled log := by
    by_contra hne
    rw [(honest hW h.run).unset e he hne] at hr
    cases hr
  have hdisj : e ∈ refused log → e ∉ popped log := fun hr hp =>
    List.disjoint_of_nodup_append (decided_nodup h.run) (by simp [hp]) hr
  rcases mem_fulfilled.mp hval with hf | hf | hf
  · obtain ⟨dq, f, hr'⟩ := value_of_ran hW h.run hf
    obtain rfl : r = e.result dq f := by simpa using hr.symm.trans hr'
    have hp := Multiset.mem_of_le (reached_le .fulfil h.run) hf
    simp only [TaskEnvelope.result_state, e.outcome_ne_rejected, false_and, false_iff]
    exact fun href => hdisj href hp
  · obtain ⟨f, hr'⟩ := value_of_rejected hW h.run (.inl hf)
    obtain rfl : r = e.rejection f := by simpa using hr.symm.trans hr'
    have href := Multiset.mem_of_le (refusals_le .fulfil h.run) hf
    refine ⟨fun _ => href, fun _ => ⟨rfl, fun hs => hdisj href ?_⟩⟩
    exact Multiset.mem_of_le (reached_le .start h.run) hs
  · have := Multiset.mem_of_le (discards_le .fulfil h.run) hf
    simp [hdr] at this

/-- Only a submission still in its `submit` has no result. -/
theorem DrainRun.result_or_pending (hW : 0 < W) (h : DrainRun capacity log c) {e : TaskEnvelope}
    (he : e ∈ submitted log) : (∃ r, c.shared.promises[e.promise]? = some (.value r)) ∨
      ∃ i, e ∈ ClientPc.pending (c.pc (.inr i)) + ClientPc.refusal .fulfil (c.pc (.inr i)) := by
  obtain ⟨-, hdr, hw⟩ := h.popped_eq hW
  by_cases hf : e ∈ fulfilled log
  · obtain ⟨f, hmem, rfl⟩ := List.mem_map.mp hf
    exact .inl ⟨f.2, (honest hW h.run).value f hmem⟩
  · -- neither queued, nor with a worker, nor in a discard list
    have hd := discarding_from_init .fulfil h.run
    rw [hdr, Multiset.coe_nil, add_eq_zero] at hd
    have hpl : e ∈ (submitted log : Multiset TaskEnvelope) := he
    rw [← placement h.run, exited_holds_nothing fun w => .inl (hw w), hd.1,
      (exhausted_of_exited hW h.run hw).2] at hpl
    simp only [Multiset.coe_nil, add_zero, Multiset.mem_add, Multiset.mem_coe, hf, or_false,
      pendingAll, refusingAll, Multiset.mem_sum, Finset.mem_univ, true_and] at hpl
    rcases hpl with ⟨i, hi⟩ | ⟨i, hi⟩
    · exact .inr ⟨i, Multiset.mem_add.mpr (.inl hi)⟩
    · exact .inr ⟨i, Multiset.mem_add.mpr (.inr hi)⟩

/-- **Drain.**  Once a shutdown call has returned in a run without `shutdown_now`: everything accepted
has been run, once, and its future is `Succeeded` or `Failed` as `execute()` returned or threw; a
future is `Rejected`, its task never started, exactly when the push observed the queue closed; and
only a submission still in its `submit` has no result yet.  Moreover, when the tasks were submitted by
one client before any shutdown, every other such run of the same tasks, with any workers, capacity
and schedule, delivers the same futures and has the same counts. -/
theorem drain_semantics (hW : 0 < W) (h : DrainRun capacity log c) :
    (∀ e ∈ pushed log, (reached .start log).count e = 1 ∧ (reached .finish log).count e = 1 ∧
      ∃ r, c.shared.promises[e.promise]? = some (.value r) ∧
        (r.state = .Succeeded ↔ e.task.execute = .returns) ∧
        (r.state = .Failed ↔ e.task.execute ≠ .returns) ∧ r.state ≠ .Rejected) ∧
    (∀ e ∈ submitted log, ∀ r, c.shared.promises[e.promise]? = some (.value r) →
      (r.state = .Rejected ∧ e ∉ reached .start log ↔ e ∈ refused log)) ∧
    (∀ e ∈ submitted log, (∃ r, c.shared.promises[e.promise]? = some (.value r)) ∨
      ∃ i, e ∈ ClientPc.pending (c.pc (.inr i)) + ClientPc.refusal .fulfil (c.pc (.inr i))) ∧
    ∀ (tasks : List (TaskId × Task)) (i : ι) (before after : List (Thread W ι × Event W))
      (d : System W ι), log = before ++ after →
      SubmittedFirst capacity tasks i before after d c →
      ∀ (W' : ℕ) (ι' : Type) [Fintype ι'] [DecidableEq ι'] (capacity' : ℕ) (i' : ι')
        (before' after' : List (Thread W' ι' × Event W'))
        (d' c' : System W' ι'), 0 < W' →
        DrainRun capacity' (before' ++ after') c' →
        SubmittedFirst capacity' tasks i' before' after' d' c' →
        c.shared.promises.map Promise.delivery = c'.shared.promises.map Promise.delivery ∧
        rejected_count c.shared = rejected_count c'.shared ∧
        ∃ S S', collect_samples c.shared = .ok S ∧ collect_samples c'.shared = .ok S' ∧
          ∀ state, S.countP (fun s => s.state = state) = S'.countP (fun s => s.state = state) := by
  refine ⟨fun e he => h.accepted_ran hW he, fun e he r hr => h.rejected_iff hW he hr,
    fun e he => h.result_or_pending hW he, ?_⟩
  rintro tasks i before after d rfl hs W' ι' _ _ capacity' i' before' after' d' c' hW' h' hs'
  obtain ⟨h1, h2, h3⟩ := hs.delivered hW h
  obtain ⟨h1', h2', h3'⟩ := hs'.delivered hW' h'
  refine ⟨h1.trans h1'.symm, h3.trans h3'.symm, _, _,
    collect_samples_of_joined (joined_of_returned h.run h.returned),
    collect_samples_of_joined (joined_of_returned h'.run h'.returned), ?_⟩
  intro state
  have hperm : (c.shared.merged.map fun s => (s.id, s.state)).Perm
      (c'.shared.merged.map fun s => (s.id, s.state)) :=
    Multiset.coe_eq_coe.mp (by rw [← Multiset.map_coe, ← Multiset.map_coe, h2, h2'])
  simpa [List.countP_map, Function.comp_def] using hperm.countP_eq fun p => p.2 = state

/-- Client 0 submits a task that throws. -/
def soloBefore (W : ℕ) : List (Thread W (Fin 2) × Act W (Fin 2)) :=
  [(.inr 0, .submit 1 ⟨.throws "boom"⟩ 0), (.inr 0, .queue .lock), (.inr 0, .queue (.notify none)),
   (.inr 0, .go)]

/-- Client 1 shuts down, and then the only worker runs the task. -/
def soloAfter : List (Thread 1 (Fin 2) × Act 1 (Fin 2)) :=
  [(.inr 1, .shutdown .shutdown), (.inr 1, .queue .lock), (.inr 1, .queue .lock),
   (.inr 1, .queue .lock), (.inr 1, .go), (.inl 0, .go), (.inl 0, .queue .lock),
   (.inl 0, .queue (.notify none)), (.inl 0, .clock 5), (.inl 0, .clock 6), (.inl 0, .go),
   (.inl 0, .go), (.inl 0, .queue .lock), (.inl 0, .go), (.inr 1, .go), (.inr 1, .go), (.inr 1, .go),
   (.inr 1, .go)]

/-- The second of two workers runs the task and waits for more before client 1 shuts down. -/
def pairAfter : List (Thread 2 (Fin 2) × Act 2 (Fin 2)) :=
  [(.inl 1, .go), (.inl 1, .queue .lock), (.inl 1, .queue (.notify none)), (.inl 1, .clock 7),
   (.inl 1, .clock 9), (.inl 1, .go), (.inl 1, .go), (.inl 1, .queue .lock),
   (.inr 1, .shutdown .shutdown), (.inr 1, .queue .lock), (.inr 1, .queue .lock),
   (.inr 1, .queue .lock), (.inr 1, .go), (.inl 1, .queue .lock), (.inl 1, .go), (.inl 0, .go),
   (.inl 0, .queue .lock), (.inl 0, .go), (.inr 1, .go), (.inr 1, .go), (.inr 1, .go), (.inr 1, .go),
   (.inr 1, .go)]

theorem solo_drain : ∃ (before after : List (Thread 1 (Fin 2) × Event 1)) (d c : System 1 (Fin 2)),
    DrainRun 1 (before ++ after) c ∧ SubmittedFirst 1 [(1, ⟨.throws "boom"⟩)] 0 before after d c ∧
      c.shared.promises.map Promise.delivery = [some (1, .Failed, "boom")] := by
  let a := (play (act 1) (soloBefore 1) (init (W := 1) (ι := Fin 2))).get rfl
  let b := (play (act 1) soloAfter a.2).get rfl
  have ha : Run (rules 1) init a.1 a.2 := play_run act_sound rfl
  have hb : Run (rules 1) a.2 b.1 b.2 := play_run act_sound rfl
  refine ⟨a.1, b.1, a.2, b.2, ⟨ha.trans hb, by decide, ?_⟩, ⟨ha, hb, by decide, by decide, rfl, rfl, rfl⟩, rfl⟩
  exact ⟨(.inr 1, .leave (.close .shutdown)), List.mem_of_getLast? rfl, _, rfl⟩

theorem pair_drain : ∃ (before after : List (Thread 2 (Fin 2) × Event 2)) (d c : System 2 (Fin 2)),
    DrainRun 3 (before ++ after) c ∧ SubmittedFirst 3 [(1, ⟨.throws "boom"⟩)] 0 before after d c := by
  let a := (play (act 3) (soloBefore 2) (init (W := 2) (ι := Fin 2))).get rfl
  let b := (play (act 3) pairAfter a.2).get rfl
  have ha : Run (rules 3) init a.1 a.2 := play_run act_sound rfl
  have hb : Run (rules 3) a.2 b.1 b.2 := play_run act_sound rfl
  refine ⟨a.1, b.1, a.2, b.2, ⟨ha.trans hb, by decide, ?_⟩,
    ⟨ha, hb, by decide, by decide, rfl, by decide +kernel, rfl⟩⟩
  exact ⟨(.inr 1, .leave (.close .shutdown)), List.mem_of_getLast? rfl, _, rfl⟩

/-- The two runs, with different workers, capacities and schedules, deliver the same. -/
theorem drain_semantics_two_runs :
    ∃ (c : System 1 (Fin 2))
      (c' : System 2 (Fin 2)),
      c.shared.promises.map Promise.delivery = [some (1, .Failed, "boom")] ∧
      c.shared.promises.map Promise.delivery = c'.shared.promises.map Promise.delivery := by
  obtain ⟨before, after, d, c, hd, hs, hdelivery⟩ := solo_drain
  obtain ⟨before', after', d', c', hd', hs'⟩ := pair_drain
  have hall := drain_semantics (by decide) hd
  exact ⟨c, c', hdelivery, (hall.2.2.2 _ _ _ _ _ rfl hs 2 (Fin 2) _ _ _ _ _ _ (by decide) hd' hs').1⟩

end Drain

/-! ## Abort -/

section Abort

variable [DecidableEq ι] [Fintype ι] {capacity : ℕ}
  {c : System W ι} {log : List (Thread W ι × Event W)}

omit [Fintype ι] in
/-- After a `close_and_drain` nothing is popped or pushed any more, and its items were the queue. -/
theorem after_drain {d d' : System W ι} {t : Thread W ι}
    {discarded : List TaskEnvelope} {after : List (Thread W ι × Event W)}
    (hs : Step (rules capacity) d (t, .queue (.drain discarded)) d') (h : Run (rules capacity) d' after c) :
    discarded = d.shared.queue.items ∧ popped after = [] ∧ pushed after = [] := by
  cases hs with
  | @mk _ _ m p hr =>
    have hf := (rule_toQueue hr).toFifo
    simp only [BlockingQueue.Label.toFifo, Option.elim_some] at hf
    generalize hx : (⟨d.shared.queue.items, d.shared.queue.closed⟩ : Fifo TaskEnvelope) = x at hf
    generalize hx' : (⟨m.queue.items, m.queue.closed⟩ : Fifo TaskEnvelope) = x' at hf
    cases hf
    simp only [Fifo.mk.injEq] at hx hx'
    obtain ⟨-, -, hpop, -⟩ := queue_exhausted h hx'.2 hx'.1
    exact ⟨hx.1.symm, hpop, (queue_closed_stable h hx'.2).2⟩

/-- **Abort.**  With every call returned and every worker exited after a `shutdown_now`, let `D` be
the first `close_and_drain` critical section.  A task was run, once, and its future reports how that
ended, exactly when a worker had popped it before `D`; every other submission, among them all that
was queued at `D` and all whose push decided after `D`, is rejected and was never started; nothing is
popped after `D`, and at most `W` tasks start or finish after it. -/
theorem abort_semantics (hW : 0 < W) (h : Run (rules capacity) init log c)
    (hi : ∀ i, c.pc (.inr i) = .idle) (hw : ∀ w, c.pc (.inl w) = .exited)
    (hnow : ∃ l ∈ log, l.2 = .shutdown_now) :
    ∃ before t discarded after d, log = before ++ (t, .queue (.drain discarded)) :: after ∧
      (∀ l ∈ before, ∀ ds, l.2 ≠ .queue (.drain ds)) ∧
      Run (rules capacity) init before d ∧ discarded = d.shared.queue.items ∧
      (∀ e ∈ submitted log,
        (e ∈ popped before → (reached .start log).count e = 1 ∧ (reached .finish log).count e = 1 ∧
          ∃ r, c.shared.promises[e.promise]? = some (.value r) ∧ r.state = e.outcome ∧
            (r.state = .Succeeded ∨ r.state = .Failed)) ∧
        (e ∉ popped before → e ∉ reached .start log ∧
          ∃ r, c.shared.promises[e.promise]? = some (.value r) ∧ r.state = .Rejected)) ∧
      (∀ e, e ∈ discarded ∨ e ∈ pushed after ∨ e ∈ refused after → e ∉ popped before) ∧
      popped after = [] ∧ (reached .start after ++ reached .finish after).toFinset.card ≤ W := by
  obtain ⟨before, t, discarded, after, rfl, hbefore⟩ := first_abort h hi hnow
  -- `d` is before the critical section `D`, and `d'` after it
  obtain ⟨d, d', h₁, hs, h₂⟩ := h.split_at
  obtain ⟨hdisc, hpop, hpush⟩ := after_drain hs h₂
  have hpopped : popped (before ++ (t, .queue (.drain discarded)) :: after) = popped before := by
    simp only [popped, collect_append, collect_cons, Event.popped, BlockingQueue.Event.popped,
      List.nil_append] at hpop ⊢
    rw [hpop, List.append_nil]
  refine ⟨before, t, discarded, after, d, rfl, hbefore, h₁, hdisc,
    fun e he => ⟨fun hp => ?_, fun hp => ?_⟩, fun e he hp => ?_, hpop, ?_⟩
  · rw [← hpopped] at hp
    obtain ⟨hstart, hfinish, dq, f, hr⟩ := ran_of_popped hW h hw hp
    refine ⟨hstart, hfinish, _, hr, by simp, ?_⟩
    simpa using e.outcome_cases
  · rw [← hpopped] at hp
    obtain ⟨f, hr⟩ := rejected_of_not_popped hW h hi hw he hp
    exact ⟨not_started h hw hp, _, hr, by simp⟩
  · -- popped, drained and refused envelopes are different ones
    have hn := decided_nodup h
    rw [← hpopped] at hp
    rw [List.append_assoc, List.append_assoc] at hn
    refine List.disjoint_left.mp (List.disjoint_of_nodup_append hn) hp ?_
    rcases he with he | he | he
    · exact List.mem_append_left _ (by simp [he])
    · rw [hpush] at he
      cases he
    · exact List.mem_append_right _ (List.mem_append_right _ (by simp [he]))
  · -- what starts or finishes after `D` was in the hands of the workers at `D`
    have hhold : ∀ s, ∀ e ∈ reached s after, e ∈ workingAll .record d' := fun s e he => by
      have hb := working_balance s h₂
      rw [hpop, Multiset.coe_nil, add_zero] at hb
      exact Multiset.mem_of_le (workingAll_le s d').1 (hb ▸ Multiset.mem_add.mpr (.inr he))
    calc (reached .start after ++ reached .finish after).toFinset.card
        ≤ (workingAll .record d').toFinset.card := Finset.card_le_card fun e he => by
          rw [List.mem_toFinset, List.mem_append] at he
          exact Multiset.mem_toFinset.mpr (he.elim (hhold _ e) (hhold _ e))
      _ ≤ (workingAll .record d').card := Multiset.toFinset_card_le _
      _ ≤ W := (workingAll_le .record d').2

/-- A schedule: the worker runs task 1 while task 2 is queued, `shutdown_now` discards task 2, and
task 3 is refused. -/
def abortSchedule : List (Thread 1 (Fin 2) × Act 1 (Fin 2)) :=
  [(.inr 0, .submit 1 ⟨.returns⟩ 0), (.inr 0, .queue .lock), (.inr 0, .queue (.notify none)),
   (.inr 0, .go), (.inl 0, .go), (.inl 0, .queue .lock), (.inl 0, .queue (.notify none)),
   (.inl 0, .clock 5), (.inr 0, .submit 2 ⟨.returns⟩ 6), (.inr 0, .queue .lock),
   (.inr 0, .queue (.notify none)), (.inr 0, .go), (.inr 1, .shutdown_now), (.inr 1, .queue .lock),
   (.inr 1, .queue .lock), (.inr 1, .queue .lock), (.inr 1, .clock 7), (.inr 1, .go), (.inr 1, .go),
   (.inr 0, .submit 3 ⟨.throwsOther⟩ 8), (.inr 0, .queue .lock), (.inr 0, .clock 9), (.inr 0, .go),
   (.inl 0, .clock 10), (.inl 0, .go), (.inl 0, .go), (.inl 0, .queue .lock), (.inl 0, .go),
   (.inr 1, .go), (.inr 1, .go), (.inr 1, .go), (.inr 1, .go)]

/-- Its log, and the configuration that it ends in. -/
def abortRun :
    List (Thread 1 (Fin 2) × Event 1) × System 1 (Fin 2) :=
  (play (act 1) abortSchedule init).get rfl

theorem abort_semantics_abortRun :
    (submitted abortRun.1).length = 3 ∧ ∀ e ∈ submitted abortRun.1,
      ∃ r, abortRun.2.shared.promises[e.promise]? = some (.value r) := by
  have hrun : Run (rules 1) init abortRun.1 abortRun.2 := play_run act_sound rfl
  obtain ⟨before, t, ds, after, d, -, -, -, -, hall, -⟩ :=
    abort_semantics (by decide) hrun (by decide) (by decide)
      ⟨(.inr 1, .shutdown_now),
        List.mem_of_getElem? (rfl : abortRun.1[12]? = some (.inr 1, .shutdown_now)), rfl⟩
  refine ⟨rfl, ?_⟩
  intro e he
  by_cases hp : e ∈ popped before
  · obtain ⟨-, -, r, hr, -⟩ := (hall e he).1 hp
    exact ⟨r, hr⟩
  · obtain ⟨-, r, hr, -⟩ := (hall e he).2 hp
    exact ⟨r, hr⟩

end Abort

end ThreadPool

end TaskEngine
