import TaskEngine.Pool.Modes
import TaskEngine.Pool.Timestamps
import TaskEngine.Statistics.Intervals

/-!
# TaskEngine.Pool.Windows — the execution windows of the workers

A worker runs one task after the other, so in its buffer the samples are in the order in which the queue
accepted their envelopes (`recordedBy_sublist`), and with a clock that respects the order of the threads no
window starts before an earlier one has ended (`successive`).  Whoever has joined the workers comes after all
windows (`known_of_done`).
-/

namespace TaskEngine

open Interleaving Intervals

namespace ThreadPool

variable {W : ℕ} {ι : Type}

/-! ## The work of one worker -/

section Buffers

variable [DecidableEq ι]

/-- What worker `w` has appended to its buffer. -/
abbrev recordedBy (w : Fin W) (log : List (Thread W ι × Event W)) : List (TaskEnvelope × Sample) :=
  recordings (stepsOf (.inl w) log)

/-- The envelope that a worker holds. -/
def WorkerPc.hand : WorkerPc → List TaskEnvelope
  | .popping (.notifying e) | .popping (.done (some e)) => [e]
  | .running e _ | .executed e _ _ | .recording e _ => [e]
  | _ => []

variable {capacity : ℕ} {m m' : ThreadPool W ι} {c : System W ι} {log : List (Thread W ι × Event W)}

/-- A worker records what it has popped, in that order. -/
theorem WorkerRule.hand {w : Fin W} {p p' : WorkerPc} {ev : Event W} (h : WorkerRule w m p ev m' p') :
    ev.recording.map Prod.fst ++ p'.hand = p.hand ++ ev.popped := by
  cases h with
  | pop h =>
    cases h with
    | enter h => cases BlockingQueue.popSection_cases h <;> rfl
    | resume _ h => cases BlockingQueue.popSection_cases h <;> rfl
    | _ => rfl
  | _ => rfl

/-- What a worker has popped is what it has recorded, then what it holds. -/
theorem popped_by (h : Run (rules capacity) init log c) (w : Fin W) :
    popped (stepsOf (.inl w) log) = (recordedBy w log).map Prod.fst ++ WorkerPc.hand (c.pc (.inl w)) := by
  have hstep : ∀ (m : ThreadPool W ι) p ev m' p', rules capacity (.inl w) m p ev m' p' →
      ev.recording.map Prod.fst ++ WorkerPc.hand p' = WorkerPc.hand p ++ ev.popped :=
    fun m p ev m' p' (hr : WorkerRule w m p ev m' p') => hr.hand
  rw [recordedBy, recordings, map_collect]
  exact h.hands_on hstep

/-- **In the order of acceptance**: a worker records some of what the queue has accepted, in its order. -/
theorem recordedBy_sublist (h : Run (rules capacity) init log c) (w : Fin W) :
    ((recordedBy w log).map Prod.fst).Sublist (pushed log) := by
  have hby : ((recordedBy w log).map Prod.fst).Sublist (popped (stepsOf (.inl w) log)) := by
    rw [popped_by h w]
    exact List.sublist_append_left _ _
  have hall : (popped (stepsOf (.inl w) log)).Sublist (popped log) := List.filter_sublist.flatMap _
  have hq := queue_from_init h
  rw [List.append_assoc] at hq
  exact (hby.trans hall).trans (hq ▸ List.sublist_append_left _ _)

theorem WorkerRule.samples {w : Fin W} {p p' : WorkerPc} {ev : Event W} (h : WorkerRule w m p ev m' p') :
    m'.samples w = m.samples w ++ ev.recording.map Prod.snd ∧ ∀ v, v ≠ w → m'.samples v = m.samples v := by
  cases h with
  | fulfil => simp [fulfil_samples]
  | record =>
    refine ⟨by simp [ThreadPool.record], ?_⟩
    intro v hv
    simp [ThreadPool.record, Function.update_of_ne hv]
  | _ => simp [finishThread]

theorem rule_samples {w : Fin W} {t : Thread W ι} {p p' : Pc t} {ev : Event W} (ht : t ≠ .inl w)
    (h : rules capacity t m p ev m' p') : m'.samples w = m.samples w := by
  rcases t with v | i
  · exact (WorkerRule.samples (w := v) h).2 w fun hwv => ht (by rw [hwv])
  · exact congrFun (ClientRule.samples (i := i) h) w

theorem samples_by (h : Run (rules capacity) init log c) (w : Fin W) :
    c.shared.samples w = (recordedBy w log).map Prod.snd := by
  apply h.induct (I := fun log d => d.shared.samples w = (recordedBy w log).map Prod.snd) rfl
  intro log d t ev m p _ ih hr
  by_cases ht : t = .inl w
  · subst ht
    rw [(WorkerRule.samples (w := w) hr).1, recordedBy, recordings, collect_stepsOf_self, List.map_append]
    exact congrArg (· ++ ev.recording.map Prod.snd) ih
  · rw [rule_samples ht hr, recordedBy, recordings, collect_stepsOf_other _ ht]
    exact ih

/-- A sample measures a run of an envelope submitted. -/
theorem exists_submitted [Fintype ι] (h : Run (rules capacity) init log c) {w : Fin W} {s : Sample}
    (hs : s ∈ c.shared.samples w) :
    ∃ t e dequeued finished, (t, .submit e) ∈ log ∧ s = e.sample dequeued finished := by
  rw [samples_by h w] at hs
  obtain ⟨⟨e, s⟩, he, rfl⟩ := List.mem_map.mp hs
  have hrec : (e, s) ∈ recordings log := (List.filter_sublist.flatMap _).subset he
  obtain ⟨d, f, hs⟩ := recordings_sample h _ hrec
  have hpushed : e ∈ pushed log := (recordedBy_sublist h w).subset (List.mem_map_of_mem he)
  have hsub : e ∈ submitted log := by
    rw [← Multiset.mem_coe, ← submitting_from_init h]
    exact Multiset.mem_add.mpr (.inr (Multiset.mem_add.mpr (.inl hpushed)))
  obtain ⟨⟨t, ev⟩, hl, hev⟩ := (mem_collect _).mp hsub
  cases ev with
  | submit e' => exact ⟨t, e, d, f, by rwa [List.mem_singleton.mp hev], hs⟩
  | _ => cases hev

/-- No envelope is recorded by two workers. -/
theorem recordedBy_unique [Fintype ι] (h : Run (rules capacity) init log c) {w v : Fin W} {e : TaskEnvelope}
    (hw : e ∈ (recordedBy w log).map Prod.fst) (hv : e ∈ (recordedBy v log).map Prod.fst) : w = v := by
  have hnodup : (log.flatMap fun l => l.2.reached .record).Nodup :=
    Multiset.coe_nodup.mp (Multiset.nodup_of_le (reached_le .record h) (popped_nodup h))
  have hfrom : ∀ u, e ∈ (recordedBy u log).map Prod.fst →
      ∃ l ∈ log, l.1 = .inl u ∧ e ∈ l.2.reached .record := by
    intro u hu
    rw [recordings_fst] at hu
    obtain ⟨l, hl, he⟩ := (mem_collect _).mp hu
    obtain ⟨hl, ht⟩ := List.mem_filter.mp hl
    exact ⟨l, hl, of_decide_eq_true ht, he⟩
  obtain ⟨l, hl, ht, he⟩ := hfrom w hw
  obtain ⟨l', hl', ht', he'⟩ := hfrom v hv
  by_contra hne
  have hsymm : Std.Symm (Function.onFun List.Disjoint fun l : Thread W ι × Event W => l.2.reached .record) :=
    ⟨fun _ _ h => List.Disjoint.symm h⟩
  have hdis := (List.nodup_flatMap.mp hnodup).2.forall hl hl' fun heq =>
    hne (Sum.inl.inj (ht.symm.trans ((congrArg Prod.fst heq).trans ht')))
  exact hdis he he'

end Buffers

/-! ## One window after the other -/

section Windows

/-- The start of the window that a worker is in. -/
def WorkerPc.dequeued? : WorkerPc → Option TimePoint
  | .running _ dequeued | .executed _ dequeued _ => some dequeued
  | .recording _ s => some s.timings.dequeued
  | _ => none

/-- The end of the window that a worker has measured and not recorded yet. -/
def WorkerPc.finished? : WorkerPc → Option TimePoint
  | .executed _ _ finished => some finished
  | .recording _ s => some s.timings.finished
  | _ => none

/-- The windows of a buffer follow one another. -/
def SuccessiveSamples (samples : List Sample) : Prop :=
  Successive (fun s : Sample => s.timings.dequeued) (fun s => s.timings.finished) samples

/-- A worker knows of the ends of all its windows, and the one it is in started after them. -/
structure WorkerPc.Windowed (log : List (Thread W ι × Event W)) (w : Fin W) (m : ThreadPool W ι)
    (p : WorkerPc) : Prop where
  known : ∀ s ∈ m.samples w, clock.Knows log (.inl w) s.timings.finished
  after : ∀ dequeued ∈ p.dequeued?, ∀ s ∈ m.samples w, s.timings.finished ≤ dequeued
  finished : ∀ finished ∈ p.finished?, clock.Knows log (.inl w) finished

variable [DecidableEq ι] {capacity : ℕ} {m m' : ThreadPool W ι} {c : System W ι}
  {log : List (Thread W ι × Event W)}

omit [DecidableEq ι] in
theorem WorkerPc.Windowed.leave {w : Fin W} {p p' : WorkerPc} (h : p.Windowed log w m)
    (l : Thread W ι × Event W) (hs : m'.samples w = m.samples w) (hd : p'.dequeued? = none)
    (hf : p'.finished? = none) : p'.Windowed (log ++ [l]) w m' where
  known s hs' := (h.known s (hs ▸ hs')).later
  after d hd' := by simp [hd] at hd'
  finished f hf' := by simp [hf] at hf'

theorem WorkerRule.windowed {w : Fin W} {p p' : WorkerPc} {ev : Event W}
    (hm : clock.Monotone (log ++ [((.inl w : Thread W ι), ev)])) (hg : SuccessiveSamples (m.samples w))
    (hat : p.Windowed log w m) (h : WorkerRule w m p ev m' p') :
    SuccessiveSamples (m'.samples w) ∧ p'.Windowed (log ++ [((.inl w : Thread W ι), ev)]) w m' := by
  cases h with
  | enter => exact ⟨hg, hat.leave _ rfl rfl rfl⟩
  | pop _ => exact ⟨hg, hat.leave _ rfl rfl rfl⟩
  | exit => exact ⟨hg, hat.leave _ rfl rfl rfl⟩
  | start d =>
    refine ⟨hg, fun s hs => (hat.known s hs).later, ?_, by simp [WorkerPc.finished?]⟩
    rintro _ ⟨⟩ s hs
    exact hm.le (hat.known s hs) (List.mem_singleton.mpr rfl)
  | finish f =>
    refine ⟨hg, fun s hs => (hat.known s hs).later, hat.after, ?_⟩
    rintro _ ⟨⟩
    exact .read (List.mem_singleton.mpr rfl)
  | fulfil =>
    rw [fulfil_samples]
    refine ⟨hg, ?_, ?_, fun f hf => (hat.finished f hf).later⟩
    · intro s hs
      rw [fulfil_samples] at hs
      exact (hat.known s hs).later
    · intro d hd s hs
      rw [fulfil_samples] at hs
      exact hat.after d hd s hs
  | @record e s =>
    have hsamples : (m.record w e s).samples w = m.samples w ++ [s] := by simp [ThreadPool.record]
    rw [hsamples]
    refine ⟨List.pairwise_append.mpr ⟨hg, List.pairwise_singleton _ _, ?_⟩, ?_, by simp [WorkerPc.dequeued?],
      by simp [WorkerPc.finished?]⟩
    · intro s' hs' s'' hs''
      rw [List.mem_singleton.mp hs'']
      exact hat.after _ rfl s' hs'
    · intro s' hs'
      rcases List.mem_append.mp (hsamples ▸ hs') with hs' | hs'
      · exact (hat.known s' hs').later
      · rw [List.mem_singleton.mp hs']
        exact (hat.finished _ rfl).later

/-- The proof outline of the windows, for a clock that respects the order of the threads. -/
def windowOutline (capacity : ℕ) : Outline (rules (W := W) (ι := ι) capacity) where
  Global log m := clock.Monotone log → ∀ w, SuccessiveSamples (m.samples w)
  At
    | .inl w, p, log, m => clock.Monotone log → WorkerPc.Windowed log w m p
    | .inr _, _, _, _ => True
  own log t m p ev m' p' hg hat h := by
    rcases t with w | i
    · suffices hall : clock.Monotone (log ++ [(.inl w, ev)]) →
          SuccessiveSamples (m'.samples w) ∧ WorkerPc.Windowed (log ++ [(.inl w, ev)]) w m' p' by
        refine ⟨?_, fun hm => (hall hm).2⟩
        intro hm v
        by_cases hv : v = w
        · subst hv
          exact (hall hm).1
        · rw [rule_samples (fun heq => hv (Sum.inl.inj heq).symm) h]
          exact hg hm.prefix v
      exact fun hm => WorkerRule.windowed hm (hg hm.prefix w) (hat hm.prefix) h
    · refine ⟨?_, trivial⟩
      intro hm v
      rw [rule_samples (by simp) h]
      exact hg hm.prefix v
  others log t m p ev m' p' _ _ h u q hu hq := by
    rcases u with w | i
    · intro hm
      obtain ⟨hk, ha, hf⟩ : WorkerPc.Windowed log w m q := hq hm.prefix
      have hsamples := rule_samples (w := w) (Ne.symm hu) h
      exact ⟨fun s hs => (hk s (hsamples ▸ hs)).later, fun d hd s hs => ha d hd s (hsamples ▸ hs),
        fun f hf' => (hf f hf').later⟩
    · trivial

/-- **The windows of a worker follow one another**, and it knows of their ends. -/
theorem successive (h : Run (rules capacity) init log c) (hm : clock.Monotone log) (w : Fin W) :
    SuccessiveSamples (c.shared.samples w) ∧
      ∀ s ∈ c.shared.samples w, clock.Knows log (.inl w) s.timings.finished := by
  obtain ⟨hg, hat⟩ := (windowOutline capacity).run h
    ⟨fun _ _ => List.Pairwise.nil, fun t => by
      rcases t with w | i
      · exact fun _ =>
          ⟨by simp [init, fresh], by simp [init, WorkerPc.dequeued?], by simp [init, WorkerPc.finished?]⟩
      · exact trivial⟩
  have hw : WorkerPc.Windowed log w c.shared (c.pc (.inl w)) := hat (.inl w) hm
  exact ⟨hg hm w, hw.known⟩

end Windows

/-! ## What a join brings -/

section Joins

variable [DecidableEq ι] {capacity : ℕ} {m m' : ThreadPool W ι} {c : System W ι}
  {log : List (Thread W ι × Event W)}

/-- A client in the loop has not joined the threads ahead, and with nobody in it none has been joined. -/
structure Unjoined (p : ClientPc) (m : ThreadPool W ι) : Prop where
  loop : ∀ k n, p = .joining k (.loop n) → ∀ w : Fin W, n ≤ w → (m.threads w).joinable = true
  free : m.shutdown_mutex = none → m.joined = false → ∀ w, (m.threads w).joinable = true

theorem ClientRule.unjoined {i : ι} {p p' : ClientPc} {ev : Event W} (hat : p.Joins i m) (hp : Unjoined p m)
    (h : ClientRule capacity i m p ev m' p') : Unjoined p' m' ∧
      (m'.threads = m.threads ∨ m.shutdown_mutex = some i) := by
  cases h with
  | join h =>
    cases h with
    | lock hm hj => exact ⟨⟨fun _ _ _ w _ => hp.free hm hj w, by simp⟩, .inl rfl⟩
    | again _ _ => exact ⟨⟨by simp, hp.free⟩, .inl rfl⟩
    | @join n hn _ _ =>
      have hm : m.shutdown_mutex = some i := hat.mutex.mpr ⟨_, n, rfl⟩
      refine ⟨⟨?_, by simp [hm]⟩, .inr hm⟩
      intro k n' heq w hw
      obtain rfl : n + 1 = n' := by simpa using (ClientPc.joining.inj heq).2
      rw [joinThread_joinable, if_neg fun heq => by simp [heq] at hw]
      exact hp.loop _ n rfl w (Nat.le_of_succ_le hw)
    | @skip n hn hj =>
      rw [hp.loop _ n rfl ⟨n, hn⟩ le_rfl] at hj
      cases hj
    | joined _ => exact ⟨⟨by simp, by simp⟩, .inl rfl⟩
  | _ => exact ⟨⟨by simp, by simpa using hp.free⟩, .inl (by simp)⟩

theorem WorkerRule.joinable {w : Fin W} {p p' : WorkerPc} {ev : Event W} (h : WorkerRule w m p ev m' p') :
    m'.shutdown_mutex = m.shutdown_mutex ∧ m'.joined = m.joined ∧
      ∀ v, (m'.threads v).joinable = (m.threads v).joinable := by
  cases h <;> simp

/-- The loop over the threads finds every thread joinable. -/
theorem unjoined (h : Run (rules capacity) init log c) (i : ι) : Unjoined (c.pc (.inr i)) c.shared := by
  revert i
  refine h.induct (I := fun _ d => ∀ i, Unjoined (d.pc (.inr i)) d.shared)
    (fun i => ⟨by simp [init], by simp [init, fresh]⟩) ?_
  intro log d t ev m p hrun ih hr i
  dsimp only
  rcases t with w | j
  · obtain ⟨hm, hj, hjoinable⟩ := WorkerRule.joinable (w := w) hr
    rw [Function.update_of_ne (by simp)]
    exact ⟨fun k n hp v hv => (hjoinable v).trans ((ih i).loop k n hp v hv),
      fun hm' hj' v => (hjoinable v).trans ((ih i).free (hm ▸ hm') (hj ▸ hj') v)⟩
  · have hat := (joins hrun).2
    obtain ⟨hp, hthreads⟩ := ClientRule.unjoined (i := j) (hat (.inr j)) (ih j) hr
    by_cases hi : i = j
    · subst hi
      simpa using hp
    · rw [Function.update_of_ne fun h => hi (Sum.inr.inj h)]
      refine ⟨?_, hp.free⟩
      intro k n hpi v hv
      have hmi : d.shared.shutdown_mutex = some i :=
        (ClientPc.Joins.mutex (hat (.inr i))).mpr ⟨k, n, hpi⟩
      rcases hthreads with hthreads | hmj
      · rw [hthreads]
        exact (ih i).loop k n hpi v hv
      · exact absurd (Option.some.inj (hmi.symm.trans hmj)) hi

/-- The ends of the windows of the workers that a client has joined are known to it. -/
def ClientPc.EndsKnown (log : List (Thread W ι × Event W)) (i : ι) (samples : Fin W → List Sample) :
    ClientPc → Prop
  | .joining _ (.loop n) => ∀ w : Fin W, w < n → ∀ s ∈ samples w, clock.Knows log (.inr i) s.timings.finished
  | .joining _ .done => ∀ w, ∀ s ∈ samples w, clock.Knows log (.inr i) s.timings.finished
  | _ => True

/-- How the ends of the windows come from the workers to whoever has joined them. -/
structure Ends (log : List (Thread W ι × Event W)) (c : System W ι) : Prop where
  exited : ∀ w, (c.shared.threads w).finished = true →
    ∀ s ∈ c.shared.samples w, clock.Passed log (.thread w) s.timings.finished
  joined : c.shared.joined = true →
    ∀ w, ∀ s ∈ c.shared.samples w, clock.Passed log .shutdown_mutex s.timings.finished
  client : ∀ i, ClientPc.EndsKnown log i c.shared.samples (c.pc (.inr i))

omit [DecidableEq ι] in
theorem ClientPc.EndsKnown.later {i : ι} {p : ClientPc} {samples : Fin W → List Sample}
    (h : p.EndsKnown log i samples) (l : Thread W ι × Event W) : p.EndsKnown (log ++ [l]) i samples := by
  unfold ClientPc.EndsKnown at h ⊢
  split at h
  · exact fun w hw s hs => (h w hw s hs).later
  · exact fun w s hs => (h w s hs).later
  · trivial

theorem ClientRule.ends {i : ι} {p p' : ClientPc} {ev : Event W} {d : System W ι} (hd : Ends log d)
    (hp : d.pc (.inr i) = p) (hu : Unjoined p d.shared) (h : ClientRule capacity i d.shared p ev m' p') :
    (m'.joined = true → ∀ w, ∀ s ∈ d.shared.samples w,
      clock.Passed (log ++ [(.inr i, ev)]) .shutdown_mutex s.timings.finished) ∧
    p'.EndsKnown (log ++ [(.inr i, ev)]) i d.shared.samples := by
  have hat := hd.client i
  rw [hp] at hat
  cases h with
  | join h =>
    cases h with
    | lock _ hj => exact ⟨fun hj' => by simp [hj] at hj', by simp [ClientPc.EndsKnown]⟩
    | again _ hj =>
      exact ⟨fun _ w s hs => (hd.joined hj w s hs).later,
        fun w s hs => (hd.joined hj w s hs).acquire (List.mem_singleton.mpr rfl)⟩
    -- from the thread that it joins the client learns the ends of its windows
    | @join n hn _ hf =>
      refine ⟨fun hj w s hs => (hd.joined hj w s hs).later, ?_⟩
      intro w hw s hs
      rcases Nat.lt_succ_iff_lt_or_eq.mp hw with hw | hw
      · exact (hat w hw s hs).later
      · obtain rfl : w = ⟨n, hn⟩ := Fin.ext hw
        exact (hd.exited _ hf s hs).acquire (List.mem_singleton.mpr rfl)
    | @skip n hn hj =>
      rw [hu.loop _ n rfl ⟨n, hn⟩ le_rfl] at hj
      cases hj
    | joined hn =>
      exact ⟨fun _ w s hs => (hat w (w.isLt.trans_le hn) s hs).release (List.mem_singleton.mpr rfl),
        fun w s hs => (hat w (w.isLt.trans_le hn) s hs).later⟩
  | _ => exact ⟨fun hj w s hs => (hd.joined (by simpa using hj) w s hs).later, trivial⟩

theorem WorkerRule.ends {w : Fin W} {p p' : WorkerPc} {ev : Event W}
    (hknown : ∀ s ∈ m.samples w, clock.Knows log (.inl w) s.timings.finished)
    (hp : (m.threads w).finished = false) (h : WorkerRule w m p ev m' p') (hf : (m'.threads w).finished = true) :
    ∀ s ∈ m'.samples w, clock.Passed (log ++ [((.inl w : Thread W ι), ev)]) (.thread w) s.timings.finished := by
  cases h with
  | exit => exact fun s hs => (hknown s hs).release (List.mem_singleton.mpr rfl)
  | _ => simp [hp] at hf

/-- A worker that takes a step has not exited, so nobody has joined it: what is known of the others
stays. -/
theorem Ends.worker_step {w : Fin W} {p : WorkerPc} {ev : Event W} (hd : Ends log c)
    (h : Run (rules capacity) init log c) (hm : clock.Monotone log)
    (hr : WorkerRule w c.shared (c.pc (.inl w)) ev m' p) :
    Ends (log ++ [(.inl w, ev)]) ⟨m', Function.update c.pc (.inl w) p⟩ := by
  obtain ⟨hg, hat⟩ := joins h
  have hrule : rules capacity (.inl w) c.shared (c.pc (.inl w)) ev m' p := hr
  have hguar : Guarantee (.inl w) c.shared m' := rule_guarantee (hat (.inl w)) hrule
  have hrunning : (c.shared.threads w).finished = false := by
    rw [← Bool.not_eq_true]
    intro hf
    rw [(WorkerPc.Joins.finished (hat (.inl w))).mp hf] at hr
    cases hr
  -- the buffer of a thread that has finished is not that of `w`
  have hkept : ∀ v, (c.shared.threads v).finished = true → m'.samples v = c.shared.samples v := by
    intro v hv
    apply (WorkerRule.samples hr).2 v
    intro hvw
    rw [hvw, hrunning] at hv
    cases hv
  have hunjoined : c.shared.joined = false := by
    rw [← Bool.not_eq_true]
    intro hj
    rw [(finished_of_joined h hj w).1] at hrunning
    cases hrunning
  refine ⟨?_, ?_, ?_⟩
  · intro v hv
    by_cases hvw : v = w
    · subst hvw
      exact WorkerRule.ends (successive h hm v).2 hrunning hr hv
    · have hfin : (c.shared.threads v).finished = true :=
        (hguar.finished v fun h => hvw (Sum.inl.inj h).symm).symm.trans hv
      dsimp only
      rw [hkept v hfin]
      exact fun s hs => (hd.exited v hfin s hs).later
  · intro hj
    rw [show m'.joined = c.shared.joined from (WorkerRule.joinable hr).2.1, hunjoined] at hj
    cases hj
  · intro i
    dsimp only
    rw [Function.update_of_ne (by simp)]
    have hi := hd.client i
    have hji : ClientPc.Joins i (c.pc (.inr i)) c.shared := hat (.inr i)
    generalize c.pc (.inr i) = q at hi hji
    unfold ClientPc.EndsKnown at hi ⊢
    split at hi
    · next k n =>
      intro v hv
      rw [hkept v (hg.joined_finished v ((hji.loop k n rfl).2 v hv))]
      exact fun s hs => (hi v hv s hs).later
    · next k =>
      rw [hji.done k rfl] at hunjoined
      cases hunjoined
    · trivial

/-- A client records nothing, and what it joins it learns. -/
theorem Ends.client_step {j : ι} {p : ClientPc} {ev : Event W} (hd : Ends log c)
    (h : Run (rules capacity) init log c) (hr : ClientRule capacity j c.shared (c.pc (.inr j)) ev m' p) :
    Ends (log ++ [(.inr j, ev)]) ⟨m', Function.update c.pc (.inr j) p⟩ := by
  have hrule : rules capacity (.inr j) c.shared (c.pc (.inr j)) ev m' p := hr
  have hguar : Guarantee (.inr j) c.shared m' := rule_guarantee ((joins h).2 (.inr j)) hrule
  have hsamples : m'.samples = c.shared.samples := ClientRule.samples hr
  obtain ⟨hjoined, hclient⟩ := ClientRule.ends hd rfl (unjoined h j) hr
  refine ⟨?_, ?_, ?_⟩
  · intro v hv
    dsimp only
    rw [hsamples]
    exact fun s hs => (hd.exited v ((hguar.finished v (by simp)).symm.trans hv) s hs).later
  · intro hj
    dsimp only
    rw [hsamples]
    exact hjoined hj
  · intro i
    dsimp only
    rw [hsamples]
    by_cases hi : i = j
    · subst hi
      rw [Function.update_self]
      exact hclient
    · rw [Function.update_of_ne fun h => hi (Sum.inr.inj h)]
      exact ClientPc.EndsKnown.later (hd.client i) _

omit [DecidableEq ι] in
theorem ends_init : Ends [] (init (W := W) (ι := ι)) := by
  refine ⟨by simp [init, fresh], by simp [init, fresh], ?_⟩
  intro i
  exact (trivial : ClientPc.EndsKnown [] i fresh.samples .idle)

theorem ends (h : Run (rules capacity) init log c) (hm : clock.Monotone log) : Ends log c := by
  revert hm
  apply h.induct (I := fun log d => clock.Monotone log → Ends log d) (fun _ => ends_init)
  intro log d t ev m p hrun ih hr hm
  have hd := ih hm.prefix
  rcases t with w | j
  · exact hd.worker_step hrun hm.prefix hr
  · exact hd.client_step hrun hr

/-- **Past the join** a caller knows of the ends of all windows. -/
theorem known_of_done (h : Run (rules capacity) init log c) (hm : clock.Monotone log) {i : ι} {k : Caller}
    (hp : c.pc (.inr i) = .joining k .done) (w : Fin W) :
    ∀ s ∈ c.shared.samples w, clock.Knows log (.inr i) s.timings.finished := by
  have hi := (ends h hm).client i
  rw [hp] at hi
  exact hi w

end Joins

end ThreadPool

end TaskEngine
