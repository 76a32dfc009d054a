import TaskEngine.Engine.Accounting
import TaskEngine.Pool.Returns

/-!
# TaskEngine.Engine.Summary — what a summary taken during a run reports

`summary` checks `joined_`, merges the buffers and loads the rejection count, the load before or after
the other two.  The samples are complete once `joined_` is set, the rejections need not be: a
`shutdown_now` counts what it has drained in a step of its own, which no other call waits for.
`summary_return` says exactly when a normal return has every earlier submission once, and
`premature_summary` is a run in which one is missing.
-/

namespace TaskEngine

open Interleaving

namespace Engine

variable {W : ℕ} {ι : Type}

/-! ## The history of a call -/

section Calls

/-- A call of `summary` or its load. -/
def Event.marks : Event W → Bool
  | .summary | .load _ => true
  | _ => false

attribute [simp] Event.marks.eq_1 Event.marks.eq_2 Event.marks.eq_3

/-- The latest call of `summary` by a client in a log, once it has loaded the rejection count. -/
structure SummaryCall (i : ι) (log : List (Thread W ι × Event W)) where
  start : List (Thread W ι × Event W)
  before : List (Thread W ι × Event W)
  rejected : ℕ
  after : List (Thread W ι × Event W)
  split : log = start ++ (.inr i, .summary) :: (before ++ (.inr i, .load rejected) :: after)
  quiet : ∀ l ∈ before ++ after, l.1 = .inr i → l.2.marks = false

namespace SummaryCall

variable {i : ι} {log : List (Thread W ι × Event W)}

/-- The log up to the load. -/
def toLoad (call : SummaryCall i log) : List (Thread W ι × Event W) :=
  call.start ++ (.inr i, .summary) :: call.before

/-- How often the samples at the end of the log, and the rejections at the load, have an envelope. -/
def counts (call : SummaryCall i log) (e : TaskEnvelope) : ℕ :=
  (ThreadPool.reached .record (poolLog log)).count e +
    (ThreadPool.refusals .count (poolLog call.toLoad)).count e +
    (ThreadPool.discards .count (poolLog call.toLoad)).count e

/-- Another event follows. -/
def snoc (call : SummaryCall i log) (l : Thread W ι × Event W)
    (hl : l.1 = .inr i → l.2.marks = false) : SummaryCall i (log ++ [l]) where
  start := call.start
  before := call.before
  rejected := call.rejected
  after := call.after ++ [l]
  split := by simp [congrArg (· ++ [l]) call.split]
  quiet l' hl' := by
    rcases List.mem_append.mp (by simpa using hl' : l' ∈ (call.before ++ call.after) ++ [l]) with h | h
    · exact call.quiet l' h
    · rw [List.mem_singleton.mp h]
      exact hl

end SummaryCall

/-- A call of `summary` by a client has begun and not loaded the rejection count. -/
def Began (i : ι) (log : List (Thread W ι × Event W)) : Prop :=
  ∃ start before, log = start ++ (.inr i, .summary) :: before ∧
    ∀ l ∈ before, l.1 = .inr i → l.2.marks = false

/-- Where a call of `summary` is with respect to the rejection count. -/
def Loaded (i : ι) (log : List (Thread W ι × Event W)) : Option ℕ → Prop
  | none => Began i log
  | some rejected => ∃ call : SummaryCall i log, call.rejected = rejected

variable {i : ι} {log : List (Thread W ι × Event W)} {l : Thread W ι × Event W}

theorem Began.snoc (h : Began i log) (hl : l.1 = .inr i → l.2.marks = false) : Began i (log ++ [l]) := by
  obtain ⟨start, before, rfl, hquiet⟩ := h
  refine ⟨start, before ++ [l], by simp, ?_⟩
  intro l' hl'
  rcases List.mem_append.mp hl' with h | h
  · exact hquiet l' h
  · rw [List.mem_singleton.mp h]
    exact hl

theorem Loaded.snoc {rejected : Option ℕ} (h : Loaded i log rejected)
    (hl : l.1 = .inr i → l.2.marks = false) : Loaded i (log ++ [l]) rejected := by
  cases rejected with
  | none => exact Began.snoc h hl
  | some rejected =>
    obtain ⟨call, hr⟩ := h
    exact ⟨call.snoc l hl, hr⟩

theorem Began.load (h : Began i log) (rejected : ℕ) :
    Loaded i (log ++ [(.inr i, .load rejected)]) (some rejected) := by
  obtain ⟨start, before, rfl, hquiet⟩ := h
  exact ⟨⟨start, before, rejected, [], by simp, by simpa using hquiet⟩, rfl⟩

/-- What precedes the last marked element of a list, and what follows it, are determined. -/
theorem split_last_unique {α : Type} {P : α → Prop} {l₁ l₂ l₁' l₂' : List α} {x x' : α}
    (h : l₁ ++ x :: l₂ = l₁' ++ x' :: l₂') (hx : P x) (hx' : P x') (h₂ : ∀ y ∈ l₂, ¬ P y)
    (h₂' : ∀ y ∈ l₂', ¬ P y) : l₁ = l₁' ∧ x = x' ∧ l₂ = l₂' := by
  rcases List.append_eq_append_iff.mp h with ⟨a, h1, h2⟩ | ⟨a, h1, h2⟩
  · cases a with
    | nil => simp_all
    | cons y a =>
      obtain ⟨rfl, rfl⟩ := List.cons.inj h2
      exact absurd hx' (h₂ x' (by simp))
  · cases a with
    | nil => simp_all
    | cons y a =>
      obtain ⟨rfl, rfl⟩ := List.cons.inj h2
      exact absurd hx (h₂' x (by simp))

theorem SummaryCall.log_eq (call : SummaryCall i log) :
    log = call.toLoad ++ (.inr i, .load call.rejected) :: call.after := by
  simpa [SummaryCall.toLoad] using call.split

/-- A log has at most one latest call. -/
theorem SummaryCall.unique (a b : SummaryCall i log) : a = b := by
  let P : Thread W ι × Event W → Prop := fun l => l.1 = .inr i ∧ l.2.marks = true
  have hnot : ∀ {l : Thread W ι × Event W}, (l.1 = .inr i → l.2.marks = false) → ¬ P l :=
    fun hl hP => by simpa [hl hP.1] using hP.2
  have hquiet : ∀ (call : SummaryCall i log), (∀ l ∈ call.before, ¬ P l) ∧ ∀ l ∈ call.after, ¬ P l :=
    fun call => ⟨fun l hl => hnot (call.quiet l (List.mem_append_left _ hl)),
      fun l hl => hnot (call.quiet l (List.mem_append_right _ hl))⟩
  obtain ⟨hload, hr, hafter⟩ := split_last_unique (a.log_eq.symm.trans b.log_eq) (P := P) ⟨rfl, rfl⟩
    ⟨rfl, rfl⟩ (hquiet a).2 (hquiet b).2
  obtain ⟨hstart, -, hbefore⟩ := split_last_unique hload (P := P) ⟨rfl, rfl⟩ ⟨rfl, rfl⟩ (hquiet a).1
    (hquiet b).1
  cases a
  cases b
  simp_all

end Calls

/-! ## What a call under way knows -/

section Knowledge

/-- The samples are those of the tasks popped so far. -/
def Sampled (log : List (Thread W ι × Event W)) (samples : List Sample) : Prop :=
  (samples : Multiset Sample).map (fun s => (s.id, s.state)) =
    (ThreadPool.popped (poolLog log) : Multiset TaskEnvelope).map fun e => (e.id, e.outcome)

/-- What a client in `summary` knows at its place: whether it has called and loaded, that the workers
are joined, and the samples. -/
def SummaryPc.Knows (i : ι) (log : List (Thread W ι × Event W)) (joined : Bool) : SummaryPc → Prop
  | .enter rejected => Loaded i log rejected
  | .collecting rejected => Loaded i log rejected ∧ joined = true
  | .collected samples => Loaded i log none ∧ joined = true ∧ Sampled log samples
  | .done (.ok s) => ∃ samples rejected, Loaded i log (some rejected) ∧ joined = true ∧
      Sampled log samples ∧ s = summarize samples rejected
  | .done (.error _) => True

variable [DecidableEq ι] [Fintype ι] {capacity : ℕ} {c d : System W ι}
  {log : List (Thread W ι × Event W)}

omit [Fintype ι] in
/-- Past the join nothing is popped, and the workers stay joined. -/
theorem joined_step (hW : 0 < W) (h : Run (rules capacity) init log d) {l : Thread W ι × Event W}
    (hs : Step (rules capacity) d l c) (hj : d.shared.pool.joined = true) :
    c.shared.pool.joined = true ∧
      ThreadPool.popped (poolLog (log ++ [l])) = ThreadPool.popped (poolLog log) := by
  have hpool := pool_run_init h
  have hpool' := pool_run (.single hs)
  obtain ⟨hc, hi⟩ := (ThreadPool.exited_of_joined hW hpool hj).1
  have hpop : collect ThreadPool.Event.popped (poolLog [l]) = [] :=
    (ThreadPool.queue_exhausted hpool' hc hi).2.2.1
  refine ⟨?_, by rw [poolLog_append, ThreadPool.popped, collect_append, hpop, List.append_nil]⟩
  cases hs with
  | @mk t ev m p hr =>
    have hr' := rule_toPool hr
    cases hev : ev.pool? with
    | none =>
      rw [hev] at hr'
      rw [hr'.1]
      exact hj
    | some ev' =>
      rw [hev] at hr'
      exact (ThreadPool.rule_guarantee ((ThreadPool.joins hpool).2 t) hr').joined hj

theorem sampled_merged (hW : 0 < W) (h : Run (rules capacity) init log c)
    (hj : c.shared.pool.joined = true) : Sampled log c.shared.pool.merged := by
  have hpool := pool_run_init h
  have hrecord := ThreadPool.reached_of_exited hpool (ThreadPool.exited_of_joined hW hpool hj).2 .record
  exact (ThreadPool.samples_eq hpool).trans (by rw [hrecord])

omit [DecidableEq ι] [Fintype ι] in
/-- A step that is not one of the pool pops nothing. -/
theorem Sampled.snoc {samples : List Sample} (h : Sampled log samples) {l : Thread W ι × Event W}
    (hl : l.2.pool? = none) : Sampled (log ++ [l]) samples := by
  have : poolLog (log ++ [l]) = poolLog log := by simp [poolLog, hl]
  rwa [Sampled, this]

omit [Fintype ι] in
/-- The knowledge survives the steps of others, and those of the call other than its load. -/
theorem SummaryPc.Knows.snoc (hW : 0 < W) (h : Run (rules capacity) init log d)
    {l : Thread W ι × Event W} (hs : Step (rules capacity) d l c) {i : ι} {p : SummaryPc}
    (hp : p.Knows i log d.shared.pool.joined) (hl : l.1 = .inr i → l.2.marks = false) :
    p.Knows i (log ++ [l]) c.shared.pool.joined := by
  have hsampled : ∀ {samples}, d.shared.pool.joined = true → Sampled log samples →
      c.shared.pool.joined = true ∧ Sampled (log ++ [l]) samples := by
    intro samples hj hsam
    obtain ⟨hj', hpop⟩ := joined_step hW h hs hj
    exact ⟨hj', by rw [Sampled, hpop]; exact hsam⟩
  cases p with
  | enter rejected => exact Loaded.snoc hp hl
  | collecting rejected => exact ⟨Loaded.snoc hp.1 hl, (joined_step hW h hs hp.2).1⟩
  | collected samples => exact ⟨Loaded.snoc hp.1 hl, hsampled hp.2.1 hp.2.2⟩
  | done result =>
    cases result with
    | error e => trivial
    | ok s =>
      obtain ⟨samples, rejected, hload, hj, hsam, rfl⟩ := hp
      obtain ⟨hj', hsam'⟩ := hsampled hj hsam
      exact ⟨samples, rejected, hload.snoc hl, hj', hsam', rfl⟩

theorem SummaryPc.knows (hW : 0 < W) (h : Run (rules capacity) init log c) :
    ∀ i p, c.pc (.inr i) = .summing p → p.Knows i log c.shared.pool.joined := by
  refine h.induct (I := fun log d => ∀ i p, d.pc (.inr i) = .summing p →
    p.Knows i log d.shared.pool.joined) (by simp [init]) ?_
  intro log d t ev m p' hrun ih hr i p hp
  have hs : Step (rules capacity) d (t, ev) ⟨m, Function.update d.pc t p'⟩ := .mk hr
  by_cases ht : t = .inr i
  · subst ht
    obtain rfl : p' = .summing p := by simpa using hp
    generalize hd : d.pc (.inr i) = q at hr
    cases (hr : ClientRule capacity i _ _ _ _ _) with
    | summary _ => exact ⟨log, [], rfl, by simp⟩
    | sum h =>
      have hq := ih i _ hd
      cases h with
      | load_first => exact Began.load hq _
      | check _ hj => exact ⟨Loaded.snoc hq (fun _ => rfl), hj⟩
      | throws _ _ _ => trivial
      | collect =>
        exact ⟨Loaded.snoc hq.1 (fun _ => rfl), hq.2, (sampled_merged hW hrun hq.2).snoc rfl⟩
      | collect_last =>
        exact ⟨_, _, Loaded.snoc hq.1 (fun _ => rfl), hq.2, (sampled_merged hW hrun hq.2).snoc rfl, rfl⟩
      | load =>
        obtain ⟨hbegan, hj, hsam⟩ := hq
        exact ⟨_, _, Began.load hbegan _, hj, hsam.snoc rfl, rfl⟩
  · have hd : d.pc (.inr i) = .summing p := by simpa [Function.update_of_ne (Ne.symm ht)] using hp
    exact SummaryPc.Knows.snoc hW hrun hs (ih i p hd) fun h => absurd h ht

end Knowledge

/-! ## The return of a call -/

section Return

variable [DecidableEq ι] [Fintype ι] {capacity : ℕ} {c c' : System W ι}
  {log : List (Thread W ι × Event W)}

omit [Fintype ι] in
theorem rejected_of_load {d : System W ι} {i : ι} {rejected : ℕ}
    (h : Run (rules capacity) d ((.inr i, .load rejected) :: log) c) :
    rejected = ThreadPool.rejected_count d.shared.pool := by
  obtain ⟨d', h₁, -⟩ := (show Run (rules capacity) d ([_] ++ log) c from h).split
  obtain ⟨d'', h₀, hs⟩ := (show Run (rules capacity) d ([] ++ [_]) d' from h₁).concat_inv
  obtain rfl := h₀.nil_inv
  cases hs with
  | mk hr =>
    generalize d''.pc (.inr i) = p at hr
    cases (hr : ClientRule capacity i _ _ _ _ _) with
    | sum h => cases h <;> rfl

omit [DecidableEq ι] [Fintype ι] in
theorem Sampled.countP {samples : List Sample} (h : Sampled log samples) (state : TaskState) :
    samples.countP (fun s => s.state = state) =
      (ThreadPool.popped (poolLog log)).countP (fun e => e.outcome = state) := by
  have hc := congrArg (Multiset.countP fun d : TaskId × TaskState => d.2 = state) h
  simpa [Multiset.map_coe, List.countP_map, Function.comp_def] using hc

/-- **What a normal return of `summary` reports**, with `d` the configuration at its load: the tasks
recorded by their outcomes, and the rejections counted at `d`.  Every submission whose `submit` had
returned before the call is among them exactly once if and only if no `shutdown_now` holds one in `d`
that it has drained and not counted, and none is drained after `d`. -/
theorem summary_return (hW : 0 < W) (h : Run (rules capacity) init log c) {i : ι} {s : RunSummary}
    (hs : Step (rules capacity) c (.inr i, .summarized (.ok s)) c') :
    Nonempty (SummaryCall i log) ∧ ∀ call : SummaryCall i log, ∃ d,
      Run (rules capacity) init call.toLoad d ∧
      Run (rules capacity) d ((.inr i, .load call.rejected) :: call.after) c ∧
      s.succeeded =
        (ThreadPool.reached .record (poolLog log)).countP (fun e => e.outcome = .Succeeded) % 2 ^ 64 ∧
      s.failed =
        (ThreadPool.reached .record (poolLog log)).countP (fun e => e.outcome = .Failed) % 2 ^ 64 ∧
      s.rejected = ((ThreadPool.refusals .count (poolLog call.toLoad)).length +
        (ThreadPool.discards .count (poolLog call.toLoad)).length) % 2 ^ 64 ∧
      ((∀ e ∈ ThreadPool.returned (poolLog call.start), call.counts e = 1) ↔
        ∀ e ∈ ThreadPool.returned (poolLog call.start),
          e ∉ ThreadPool.discardingAll .count ((toPool capacity).config d) ∧
          e ∉ ThreadPool.drained (poolLog call.after)) := by
  have hknows : (SummaryPc.done (.ok s)).Knows i log c.shared.pool.joined := by
    cases hs with
    | mk hr =>
      generalize hp : c.pc (.inr i) = p at hr
      cases (hr : ClientRule capacity i _ _ _ _ _) with
      | sum h => cases h
      | summarized => exact SummaryPc.knows hW h i _ hp
  obtain ⟨samples, rejected, ⟨call, hcall⟩, hj, hsam, hsum⟩ := hknows
  refine ⟨⟨call⟩, ?_⟩
  intro call'
  obtain rfl := call.unique call'
  have hrun := h
  rw [call.log_eq] at hrun
  -- `d` is the configuration in which the call loads the rejection count
  obtain ⟨d, hd, hrest⟩ := hrun.split
  have hpool := pool_run_init h
  have hpoold := pool_run_init hd
  have hpoolrest := pool_run hrest
  have hsplit : poolLog log = poolLog call.toLoad ++ poolLog call.after := by
    conv_lhs => rw [call.log_eq]
    exact poolLog_append _ _
  have hrejected : rejected = ((ThreadPool.refusals .count (poolLog call.toLoad)).length +
      (ThreadPool.discards .count (poolLog call.toLoad)).length) % 2 ^ 64 := by
    rw [← hcall, rejected_of_load hrest]
    exact ThreadPool.rejected_eq hpoold
  -- past the join every envelope popped has its sample
  have hrecord : (ThreadPool.reached .record (poolLog log)).Perm (ThreadPool.popped (poolLog log)) :=
    Multiset.coe_eq_coe.mp
      (ThreadPool.reached_of_exited hpool (ThreadPool.exited_of_joined hW hpool hj).2 .record)
  have hnone : samples.countP (fun s => s.state = .Rejected) = 0 := by
    rw [hsam.countP, List.countP_eq_zero]
    exact fun e _ => by simpa using e.outcome_ne_rejected
  obtain ⟨-, h1, h2, h3⟩ := summarize_counts samples
    (show rejected < 2 ^ 64 by rw [hrejected]; exact Nat.mod_lt _ (Nat.two_pow_pos 64))
  rw [← hsum, hsam.countP, ← hrecord.countP_eq] at h1 h2
  rw [← hsum, hnone, add_zero, hrejected, Nat.mod_mod] at h3
  refine ⟨d, hd, hrest, h1, h2, h3, forall₂_congr ?_⟩
  intro e he
  have he' : e ∈ ThreadPool.returned (poolLog call.toLoad) := by
    rw [SummaryCall.toLoad, poolLog_append, ThreadPool.returned, collect_append]
    exact List.mem_append_left _ he
  rw [SummaryCall.counts, hsplit]
  exact ThreadPool.counted_once_iff hW hpoold hpoolrest hj he'

/-- The abort once more, with a call of `summary` after it. -/
def summaryRun : List (Thread 1 (Fin 2) × Event 1) × System 1 (Fin 2) :=
  (play (act 1) (ThreadPool.abortSchedule.flatMap ofPool ++
    [(.inr 0, .summary), (.inr 0, .go), (.inr 0, .go), (.inr 0, .go)]) init).get rfl

/-- Its two rejections were counted before the load. -/
theorem summary_return_summaryRun : ∃ call : SummaryCall 0 summaryRun.1,
    2 = ((ThreadPool.refusals .count (poolLog call.toLoad)).length +
      (ThreadPool.discards .count (poolLog call.toLoad)).length) % 2 ^ 64 := by
  have hs : Step (rules 1) summaryRun.2
      (.inr 0, .summarized (.ok (summarize summaryRun.2.shared.pool.merged 2)))
      ⟨summaryRun.2.shared, Function.update summaryRun.2.pc (.inr 0) (.pool .idle)⟩ :=
    .mk (show ClientRule 1 0 summaryRun.2.shared
      (.summing (.done (.ok (summarize summaryRun.2.shared.pool.merged 2)))) _ summaryRun.2.shared
      (.pool .idle) from .summarized)
  obtain ⟨⟨call⟩, hall⟩ := summary_return (by decide)
    (play_run act_sound rfl : Run (rules 1) init summaryRun.1 summaryRun.2) hs
  obtain ⟨d, -, -, -, -, hrejected, -⟩ := hall call
  exact ⟨call, hrejected⟩

/-- A schedule: `shutdown_now` of client 1 has drained the task of client 0 and not counted it, the
`shutdown` of client 2 returns, and client 2 takes a summary. -/
def prematureSchedule : List (Thread 1 (Fin 3) × Act 1 (Fin 3)) :=
  ThreadPool.overlapSchedule.flatMap ofPool ++
    [(.inr 2, .pool .go), (.inr 2, .summary), (.inr 2, .go), (.inr 2, .go), (.inr 2, .go)]

/-- Its log, and the configuration in which `summary` is about to return. -/
def prematureRun : List (Thread 1 (Fin 3) × Event 1) × System 1 (Fin 3) :=
  (play (act 1) prematureSchedule init).get rfl

/-- The call of `summary` in that run, after the first 17 steps. -/
def prematureCall : SummaryCall 2 prematureRun.1 where
  start := prematureRun.1.take 17
  before := [(.inr 2, .check true), (.inr 2, .collect [])]
  rejected := 0
  after := []
  split := rfl
  quiet := by
    have : ∀ l ∈ [((.inr 2, .check true) : Thread 1 (Fin 3) × Event 1), (.inr 2, .collect [])] ++ [],
        l.2.marks = false := by decide
    exact fun l hl _ => this l hl

/-- **An unfinished run reported as complete**: the summary of that run is returned without the task
of client 0, whose `submit` had returned. -/
theorem premature_summary :
    ¬ ∀ (W capacity : ℕ) (log : List (Thread W (Fin 3) × Event W)) (c c' : System W (Fin 3)) (i : Fin 3)
      (s : RunSummary), 0 < W → 0 < capacity → Run (rules capacity) init log c →
      Step (rules capacity) c (.inr i, .summarized (.ok s)) c' →
      ∀ call : SummaryCall i log, ∀ e ∈ ThreadPool.returned (poolLog call.start), call.counts e = 1 := by
  intro hall
  have hrun : Run (rules 1) init prematureRun.1 prematureRun.2 := play_run act_sound rfl
  have hs : Step (rules 1) prematureRun.2 (.inr (2 : Fin 3), .summarized (.ok (summarize [] 0)))
      ⟨prematureRun.2.shared, Function.update prematureRun.2.pc (.inr 2) (.pool .idle)⟩ :=
    .mk (show ClientRule 1 2 prematureRun.2.shared (.summing (.done (.ok (summarize [] 0)))) _
      prematureRun.2.shared (.pool .idle) from .summarized)
  have hreturned : ThreadPool.returned (poolLog prematureCall.start) = [⟨1, ⟨.returns⟩, 0, 0⟩] := rfl
  have hcounts : prematureCall.counts ⟨1, ⟨.returns⟩, 0, 0⟩ = 0 := rfl
  have hone := hall _ _ _ _ _ _ _ (by decide) (by decide) hrun hs prematureCall ⟨1, ⟨.returns⟩, 0, 0⟩
    (by rw [hreturned]; exact List.mem_singleton.mpr rfl)
  omega

end Return

end Engine

end TaskEngine
