import TaskEngine.Interleaving.Outline
import TaskEngine.Pool.Shutdown

/-!
# TaskEngine.Pool.Records — the samples and the rejection counter

The second account of a run, kept beside the promises: a worker appends a sample to its own buffer
once it has fulfilled, and `rejected_` counts the refusals and the discards once they have been
rejected.  `samples_eq` and `rejected_eq` say what the two hold in any reachable configuration, in
terms of the envelopes recorded and counted.
-/

namespace TaskEngine

open Interleaving

namespace ThreadPool

variable {W : ℕ} {ι : Type}

/-! ## The samples -/

section Samples

/-- The samples appended by a step, with their envelopes. -/
def Event.recording : Event W → List (TaskEnvelope × Sample)
  | .record e s => [(e, s)]
  | _ => []

attribute [simp] Event.recording.eq_1 Event.recording.eq_2

/-- The samples appended, with their envelopes. -/
abbrev recordings (log : List (Thread W ι × Event W)) : List (TaskEnvelope × Sample) :=
  collect Event.recording log

theorem collect_samples_of_joined {m : ThreadPool W ι} (h : m.joined = true) :
    collect_samples m = .ok m.merged := by
  simp [collect_samples, h]

/-- As a multiset, the merged samples do not depend on the order of the buffers. -/
theorem merged_coe (m : ThreadPool W ι) :
    (m.merged : Multiset Sample) = ∑ w, (m.samples w : Multiset Sample) := by
  have hcoe : ∀ l : List (Fin W), (l.flatMap m.samples : Multiset Sample) =
      (l.map fun w => (m.samples w : Multiset Sample)).sum := by
    intro l
    induction l with
    | nil => rfl
    | cons w l ih => rw [List.flatMap_cons, ← Multiset.coe_add, ih, List.map_cons, List.sum_cons]
  rw [merged, hcoe, Fin.sum_univ_def]

theorem merged_length (m : ThreadPool W ι) : m.merged.length = ∑ w, (m.samples w).length := by
  rw [merged, List.length_flatMap, Fin.sum_univ_def]

theorem recording_fst (ev : Event W) : ev.recording.map Prod.fst = ev.reached .record := by
  cases ev <;> simp

theorem recordings_fst (log : List (Thread W ι × Event W)) :
    (recordings log).map Prod.fst = reached .record log := by
  rw [recordings, map_collect]
  congr 1
  funext ev
  exact recording_fst ev

variable [DecidableEq ι] {capacity : ℕ}
  {c : System W ι} {log : List (Thread W ι × Event W)}

omit [DecidableEq ι] in
theorem fulfil_samples (m : ThreadPool W ι) (e : TaskEnvelope) (r : TaskResult) :
    (m.fulfil e r).samples = m.samples := by
  unfold fulfil; split <;> rfl

omit [DecidableEq ι] in
theorem leave_samples (m : ThreadPool W ι) (k : Caller) : (m.leave k).samples = m.samples := by
  rcases k with (_ | _) | _ <;> rfl

omit [DecidableEq ι] in
theorem record_samples (m : ThreadPool W ι) (w : Fin W) (e : TaskEnvelope) (s : Sample) :
    ∑ v, ((m.record w e s).samples v : Multiset Sample) =
      ∑ v, (m.samples v : Multiset Sample) + {s} := by
  obtain ⟨rest, h1, h2⟩ :=
    sum_split (fun (_ : Fin W) (l : List Sample) => (l : Multiset Sample)) m.samples w
  rw [record, h1, h2, ← Multiset.coe_add, Multiset.coe_singleton]
  abel

/-- What the buffers hold is what was appended to them. -/
def sampling (capacity : ℕ) : Ledger (rules (W := W) (ι := ι) capacity) (Multiset Sample) where
  hand _ _ := 0
  store m := ∑ w, (m.samples w : Multiset Sample)
  inflow ev := ↑(ev.recording.map Prod.snd)
  outflow _ := 0
  balance t _ _ _ _ _ h := by
    rcases t with w | i
    · cases (h : WorkerRule w _ _ _ _ _) with
      | record => simp [record_samples]
      | fulfil => simp [fulfil_samples]
      | _ => simp [finishThread]
    · cases (h : ClientRule capacity i _ _ _ _ _) with
      | join h => cases h <;> simp [joinThread]
      | reject _ => simp [fulfil_samples]
      | discard => simp [fulfil_samples]
      | leave => simp [leave_samples]
      | _ => simp [count]

/-- A worker about to record has put into the promise the result of the run that its sample measures,
and so has the worker of every record made. -/
def recordOutline (capacity : ℕ) : Outline (rules (W := W) (ι := ι) capacity) where
  Global log _ := ∀ f ∈ recordings log, ∃ dequeued finished, f.2 = f.1.sample dequeued finished ∧
    (f.1, f.1.result dequeued finished) ∈ fulfilments log
  At
    | .inl _, p, log, _ => ∀ e s, p = .recording e s → ∃ dequeued finished,
      s = e.sample dequeued finished ∧ (e, e.result dequeued finished) ∈ fulfilments log
    | .inr _, _, _, _ => True
  own log t m p ev m' p' hg hat h := by
    have hmono : ∀ f ∈ recordings log, ∃ dequeued finished, f.2 = f.1.sample dequeued finished ∧
        (f.1, f.1.result dequeued finished) ∈ fulfilments (log ++ [(t, ev)]) := fun f hf => by
      obtain ⟨d, fin, hs, hr⟩ := hg f hf
      exact ⟨d, fin, hs, by simp [hr]⟩
    rcases t with w | i
    · cases (h : WorkerRule w _ _ _ _ _) with
      | fulfil =>
        refine ⟨by simpa using hmono, ?_⟩
        intro e s h
        obtain ⟨rfl, rfl⟩ := WorkerPc.recording.inj h
        exact ⟨_, _, rfl, by simp⟩
      | record =>
        refine ⟨?_, by simp⟩
        intro f hf
        rcases List.mem_append.mp (by simpa using hf : f ∈ recordings log ++ [(_, _)]) with hf | hf
        · exact hmono f hf
        · rw [List.mem_singleton.mp hf]
          obtain ⟨d, fin, hs, hr⟩ := hat _ _ rfl
          exact ⟨d, fin, hs, by simp [hr]⟩
      | _ => exact ⟨by simpa using hmono, by simp⟩
    · refine ⟨?_, trivial⟩
      cases (h : ClientRule capacity i _ _ _ _ _) with
      | join h => cases h <;> simpa using hmono
      | _ => simpa using hmono
  others log _ _ _ _ _ _ _ _ _ u q _ hq := by
    rcases u with w | i
    · intro e s hp
      obtain ⟨d, fin, hs, hr⟩ := hq e s hp
      exact ⟨d, fin, hs, by simp [hr]⟩
    · trivial

theorem recordings_fulfilled (h : Run (rules capacity) init log c) :
    ∀ f ∈ recordings log, ∃ dequeued finished, f.2 = f.1.sample dequeued finished ∧
      (f.1, f.1.result dequeued finished) ∈ fulfilments log := by
  refine ((recordOutline capacity).run h ⟨by simp [recordOutline], ?_⟩).1
  rintro (w | i)
  · simp [recordOutline, init]
  · trivial

theorem recordings_sample (h : Run (rules capacity) init log c) :
    ∀ f ∈ recordings log, ∃ dequeued finished, f.2 = f.1.sample dequeued finished :=
  fun f hf => (recordings_fulfilled h f hf).imp fun _ hd => hd.imp fun _ hf => hf.1

theorem merged_recordings [Fintype ι] (h : Run (rules capacity) init log c) :
    (c.shared.merged : Multiset Sample) = ↑((recordings log).map Prod.snd) := by
  rw [merged_coe, recordings, map_collect, ← sum_map_coe]
  simpa [Ledger.hands, Ledger.income, Ledger.expense, sampling, init, fresh] using
    (sampling capacity).run h

/-- **The samples**: one for each recorded envelope, with its id and its outcome. -/
theorem samples_eq [Fintype ι] (h : Run (rules capacity) init log c) :
    (c.shared.merged : Multiset Sample).map (fun s => (s.id, s.state)) =
      (reached .record log : Multiset TaskEnvelope).map fun e => (e.id, e.outcome) := by
  rw [merged_recordings h, ← recordings_fst, Multiset.map_coe, Multiset.map_coe, List.map_map,
    List.map_map]
  congr 1
  apply List.map_congr_left
  intro f hf
  obtain ⟨d, fin, hf⟩ := recordings_sample h f hf
  simp [hf]

end Samples

/-! ## The rejection counter -/

section Counter

theorem fulfil_rejected (m : ThreadPool W ι) (e : TaskEnvelope) (r : TaskResult) :
    (m.fulfil e r).rejected = m.rejected := by
  unfold fulfil; split <;> rfl

theorem leave_rejected (m : ThreadPool W ι) (k : Caller) : (m.leave k).rejected = m.rejected := by
  rcases k with (_ | _) | _ <;> rfl

variable [DecidableEq ι] {capacity : ℕ}
  {c : System W ι} {log : List (Thread W ι × Event W)}

theorem rule_counts {t : Thread W ι} {m m' : ThreadPool W ι} {p p' : Pc t} {ev : Event W}
    (h : rules capacity t m p ev m' p') {n : ℕ} (hn : m.rejected = n % 2 ^ 64) :
    m'.rejected = (n + ((ev.refusal .count).length + (ev.discarded .count).length)) % 2 ^ 64 := by
  rcases t with w | i
  · cases (h : WorkerRule w _ _ _ _ _) with
    | fulfil => simpa [fulfil_rejected] using hn
    | _ => simpa [record, finishThread] using hn
  · cases (h : ClientRule capacity i _ _ _ _ _) with
    | join h => cases h <;> simpa [joinThread] using hn
    | reject _ => simpa [fulfil_rejected] using hn
    | discard => simpa [fulfil_rejected] using hn
    | leave => simpa [leave_rejected] using hn
    | refuse => simp [ThreadPool.count, hn]
    | count => simp [ThreadPool.count, hn]
    | _ => simpa using hn

/-- **The counter**: the refusals and discards counted, modulo `2 ^ 64`. -/
theorem rejected_eq (h : Run (rules capacity) init log c) :
    rejected_count c.shared =
      ((refusals .count log).length + (discards .count log).length) % 2 ^ 64 := by
  refine h.induct (I := fun log d => d.shared.rejected =
    ((refusals .count log).length + (discards .count log).length) % 2 ^ 64) rfl ?_
  intro log d t ev m p _ ih hr
  rw [rule_counts hr ih]
  simp only [refusals, discards, collect_append, collect_cons, collect_nil, List.append_nil,
    List.length_append]
  congr 1
  omega

end Counter

/-! ## Every submission is somewhere -/

section Settling

variable [DecidableEq ι]

/-- A submission is with a thread, in the queue, in a buffer or counted as rejected. -/
def settling (capacity : ℕ) : Ledger (rules (W := W) (ι := ι) capacity) ℕ where
  hand
    | .inl _, p => (WorkerPc.before .record p).card
    | .inr _, p => (ClientPc.pending p).card + (ClientPc.refusal .count p).card + (ClientPc.discards .count p).card
  store m := m.queue.items.length + m.merged.length
  inflow ev := ev.submitted.length
  outflow ev := (ev.refusal .count).length + (ev.discarded .count).length
  balance t m p ev m' p' h := by
    have hitems := congrArg List.length (rule_items h)
    have hsamples := congrArg Multiset.card ((sampling capacity).balance _ _ _ _ _ _ h)
    have hrecord := congrArg List.length (recording_fst ev)
    simp only [sampling, Multiset.card_add, Multiset.card_sum, Multiset.coe_card, List.length_map,
      Multiset.card_zero, ← merged_length] at hsamples hrecord
    simp only [List.length_append] at hitems
    rcases t with w | i
    · obtain ⟨h1, h2, h3, h4, h5, h6, h7⟩ := WorkerRule.flow (w := w) h
      have hwork := congrArg Multiset.card (h1 .record)
      simp only [Multiset.card_add, Multiset.coe_card] at hwork
      simp only [h2, h3, h5, h6, h7, List.length_nil] at hitems ⊢
      omega
    · obtain ⟨h1, h2, h3, h4, h5⟩ := ClientRule.flow (i := i) h
      have hpend := congrArg Multiset.card h1
      have hrefuse := congrArg Multiset.card (h2 .count)
      have hdiscard := congrArg Multiset.card (h3 .count)
      simp only [Multiset.card_add, Multiset.coe_card, List.length_append] at hpend hrefuse hdiscard
      simp only [h4, h5, List.length_nil] at hitems hrecord ⊢
      omega

end Settling

end ThreadPool

end TaskEngine
