import TaskEngine.Engine.Scripts
import TaskEngine.Tasks.ComputeTask

/-!
# TaskEngine.Bench.Main — the benchmark

`benchmarks/bench_task_engine.cpp`, but for its clocks and its output.  A measurement is a script of calls on
an engine of its own, and its summary whatever a run of that engine returns (`Measures`).  The loops over the
profiles, the worker counts and the repetitions add up what the summaries say was lost, and the exit code says
whether that was nothing.  It always is (`ends_iff`).  Memory and threads are taken to suffice.
-/

namespace TaskEngine

open Interleaving

namespace Bench

/-! ## Plans -/

section Plans

def kQueueCapacity : ℕ := 1024

def kExitOk : ℕ := 0

def kExitLostWork : ℕ := 1

def kExitRefused : ℕ := 2

/-- Iterations for the compute profiles; a sleep of zero microseconds means one of these. -/
structure Profile where
  tasks : ℕ
  work : ℕ
  sleep : ℤ
  workers : List ℕ

structure Plan where
  warmups : ℕ
  repetitions : ℕ
  profiles : List Profile

def worker_sweep (hardware_concurrency : UInt32) : List ℕ :=
  let counts := [1, 2, 4, 8, 12, 16]
  let detected := hardware_concurrency.toNat
  if detected ≠ 0 ∧ detected ∉ counts then (counts ++ [detected]).insertionSort (· ≤ ·) else counts

def measurement_plan (hardware_concurrency : UInt32) : Plan :=
  let sweep := worker_sweep hardware_concurrency
  ⟨1, 5, [⟨200000, 0, 0, [1]⟩, ⟨4000, 200000, 0, sweep⟩, ⟨200000, 200, 0, sweep⟩, ⟨400, 0, 2000, sweep⟩]⟩

def smoke_plan : Plan :=
  ⟨1, 2, [⟨2000, 0, 0, [1]⟩, ⟨50, 2000, 0, [1, 2]⟩, ⟨2000, 10, 0, [1, 2]⟩, ⟨20, 0, 100, [1, 2]⟩]⟩

/-- No engine of the plan is asked for without workers. -/
def Plan.Staffed (plan : Plan) : Prop := ∀ profile ∈ plan.profiles, ∀ workers ∈ profile.workers, 0 < workers

theorem worker_sweep_pos (hardware_concurrency : UInt32) :
    ∀ workers ∈ worker_sweep hardware_concurrency, 0 < workers := by
  intro workers hw
  unfold worker_sweep at hw
  dsimp only at hw
  split_ifs at hw with h
  · rw [List.mem_insertionSort, List.mem_append, List.mem_singleton] at hw
    rcases hw with hw | rfl
    · simp only [List.mem_cons, List.not_mem_nil, or_false] at hw
      omega
    · exact Nat.pos_of_ne_zero h.1
  · simp only [List.mem_cons, List.not_mem_nil, or_false] at hw
    omega

theorem measurement_plan_staffed (hardware_concurrency : UInt32) :
    (measurement_plan hardware_concurrency).Staffed := by
  intro profile hp workers hw
  simp only [measurement_plan, List.mem_cons, List.not_mem_nil, or_false] at hp
  rcases hp with rfl | rfl | rfl | rfl
  · rw [List.mem_singleton.mp hw]
    exact Nat.one_pos
  all_goals exact worker_sweep_pos _ workers hw

theorem smoke_plan_staffed : smoke_plan.Staffed := by
  unfold Plan.Staffed
  decide

end Plans

/-! ## One measurement -/

section Measurement

/-- `SleepTask`: `sleep_for` does not throw. -/
def SleepTask (_duration : ℤ) : Task := ⟨.returns⟩

/-- The tasks that `measure_once` builds. -/
def Profile.task_list (profile : Profile) : List Task :=
  (List.range profile.tasks).map fun i =>
    if profile.sleep > 0 then SleepTask profile.sleep else (ComputeTask.create profile.work i).task

/-- The calls of `measure_once`, up to its summary. -/
def measure_once (profile : Profile) : List Engine.Call :=
  profile.task_list.map .submit ++ [.shutdown] ++ [.summary]

/-- What `measure_once` can get: a summary, or an exception from the constructor or from `summary`. -/
inductive Measures (profile : Profile) (workers : ℕ) : Except Exception RunSummary → Prop
  | refused {e} (h : Engine.construct (ι := Unit) workers kQueueCapacity = .error e) :
      Measures profile workers (.error e)
  | measured {engine : Engine.System workers Unit} {log c result}
      (h : Engine.construct workers kQueueCapacity = .ok engine)
      (hr : Run (Engine.rules kQueueCapacity) engine (log ++ [(.inr (), .summarized result)]) c)
      (hc : Engine.calls log = measure_once profile) : Measures profile workers result

/-- Nothing was lost. -/
structure Flawless (profile : Profile) (s : RunSummary) : Prop where
  total : s.total = profile.tasks % 2 ^ 64
  succeeded : s.succeeded = profile.tasks % 2 ^ 64
  failed : s.failed = 0
  rejected : s.rejected = 0

variable {profile : Profile} {workers : ℕ}

theorem construct_ok (hw : 0 < workers) :
    Engine.construct (ι := Unit) workers kQueueCapacity = .ok Engine.init := by
  rw [Engine.construct, ThreadPool.construct, if_neg (by decide), if_neg hw.ne']
  rfl

/-- Before the first shutdown call, all submissions are early. -/
theorem account_of_submits (tasks : List Task) :
    Engine.Account.of (tasks.map .submit) = ⟨tasks, [], none⟩ := by
  induction tasks using List.reverseRecOn with
  | nil => rfl
  | append_singleton tasks task ih =>
    rw [Engine.Account.of] at ih ⊢
    rw [List.map_append, List.foldl_append, ih]
    rfl

theorem account_of_measure_once (profile : Profile) :
    Engine.Account.of (measure_once profile) = ⟨profile.task_list, [], some .drain⟩ := by
  have hsubmits := account_of_submits profile.task_list
  rw [Engine.Account.of] at hsubmits ⊢
  rw [measure_once, List.foldl_append, List.foldl_append, hsubmits]
  rfl

theorem task_list_outcomes (profile : Profile) :
    profile.task_list.map Task.outcome = List.replicate profile.tasks (.Succeeded, "") := by
  refine List.eq_replicate_iff.mpr ⟨by simp [Profile.task_list], ?_⟩
  intro outcome ho
  simp only [Profile.task_list, List.map_map, List.mem_map, Function.comp_apply] at ho
  obtain ⟨i, -, rfl⟩ := ho
  split_ifs <;> rfl

/-- **A measurement loses nothing**: whatever the schedule, it returns, with every task succeeded. -/
theorem Measures.flawless (hw : 0 < workers) {result : Except Exception RunSummary}
    (h : Measures profile workers result) : ∃ s, result = .ok s ∧ Flawless profile s := by
  cases h with
  | refused h =>
    rw [construct_ok hw] at h
    cases h
  | @measured engine log c result h hr hc =>
    rw [construct_ok hw] at h
    cases h
    obtain ⟨d, hd, hs⟩ := hr.concat_inv
    have hreports := Engine.reports hw hd (Engine.done_of_summarized hs)
    rw [Engine.account, hc, account_of_measure_once] at hreports
    cases result with
    | error e => cases hreports.1
    | ok s =>
      obtain ⟨hallows, hcounts⟩ := hreports
      -- the shutdown of `measure_once` is a drain, so all tasks were run
      have hran := hallows.drain rfl
      have hout : Engine.Account.outcomes ⟨profile.task_list, [], some .drain⟩
          (ThreadPool.popped (Engine.poolLog log)).length = List.replicate profile.tasks (.Succeeded, "") := by
        rw [hran, Engine.Account.outcomes, List.take_length, task_list_outcomes]
        simp
      rw [hout] at hcounts
      refine ⟨s, rfl, ?_, ?_, ?_, ?_⟩
      · simpa using hcounts.total
      · simpa [List.countP_replicate] using hcounts.succeeded
      · simpa [List.countP_replicate] using hcounts.failed
      · simpa [List.countP_replicate] using hcounts.rejected

theorem exists_measures (hw : 0 < workers) (profile : Profile) : ∃ s, Measures profile workers (.ok s) := by
  have hinit : Run (Engine.rules kQueueCapacity) (Engine.init : Engine.System workers Unit) [] Engine.init :=
    .refl
  have hlast : ∀ call ∈ (Engine.calls ([] : List (Thread workers Unit × Engine.Event workers)) ++
      (profile.task_list.map Engine.Call.submit ++ [Engine.Call.shutdown])).dropLast, call ≠ .destructor := by
    intro call hcall
    simp only [Engine.calls, collect_nil, List.nil_append, List.dropLast_concat, List.mem_map] at hcall
    obtain ⟨task, -, rfl⟩ := hcall
    simp
  obtain ⟨log, d, hrun, -, hcalls, -⟩ := Engine.exists_rest (by decide) hw _ hlast hinit
  obtain ⟨log', result, c, hrest, hsummary⟩ := Engine.exists_result (by decide) hw hrun (by simp [hcalls])
  have hrun' : Run (Engine.rules kQueueCapacity) Engine.init
      ((log ++ log') ++ [(.inr (), .summarized result)]) c := by
    rw [List.append_assoc]
    exact hrun.trans hrest
  have hscript : Engine.calls (log ++ log') = measure_once profile := by
    rw [Engine.calls_append, hcalls, hsummary]
    rfl
  have hm : Measures profile workers result := .measured (construct_ok hw) hrun' hscript
  obtain ⟨s, rfl, -⟩ := hm.flawless hw
  exact ⟨s, hm⟩

end Measurement

/-! ## The loops -/

section Loops

/-- `n` measurements: their summaries, or the exception that ends them. -/
inductive Repeated (profile : Profile) (workers : ℕ) : ℕ → Except Exception (List RunSummary) → Prop
  | done : Repeated profile workers 0 (.ok [])
  | threw {n e} (h : Measures profile workers (.error e)) : Repeated profile workers (n + 1) (.error e)
  | next {n s r} (h : Measures profile workers (.ok s)) (hr : Repeated profile workers n r) :
      Repeated profile workers (n + 1) (r.map (s :: ·))

/-- What the repetitions of one row add to `lost`. -/
def row_lost (measured : List RunSummary) : ℕ :=
  let failed := measured.foldl (fun failed m => (failed + m.failed) % 2 ^ 64) 0
  let rejected := measured.foldl (fun rejected m => (rejected + m.rejected) % 2 ^ 64) 0
  (failed + rejected) % 2 ^ 64

/-- `run_profile`, from the worker counts left and what was lost so far. -/
inductive RunProfile (plan : Plan) (profile : Profile) : List ℕ → ℕ → Except Exception ℕ → Prop
  | done {lost} : RunProfile plan profile [] lost (.ok lost)
  | warmup_threw {workers rest lost e} (hw : Repeated profile workers plan.warmups (.error e)) :
      RunProfile plan profile (workers :: rest) lost (.error e)
  | threw {workers rest lost discarded e} (hw : Repeated profile workers plan.warmups (.ok discarded))
      (hm : Repeated profile workers plan.repetitions (.error e)) :
      RunProfile plan profile (workers :: rest) lost (.error e)
  | row {workers rest lost discarded measured r} (hw : Repeated profile workers plan.warmups (.ok discarded))
      (hm : Repeated profile workers plan.repetitions (.ok measured))
      (hr : RunProfile plan profile rest ((lost + row_lost measured) % 2 ^ 64) r) :
      RunProfile plan profile (workers :: rest) lost r

/-- The loop of `main`, from the profiles left and what was lost so far. -/
inductive RunPlan (plan : Plan) : List Profile → ℕ → Except Exception ℕ → Prop
  | done {lost} : RunPlan plan [] lost (.ok lost)
  | threw {profile rest lost e} (h : RunProfile plan profile profile.workers 0 (.error e)) :
      RunPlan plan (profile :: rest) lost (.error e)
  | next {profile rest lost n r} (h : RunProfile plan profile profile.workers 0 (.ok n))
      (hr : RunPlan plan rest ((lost + n) % 2 ^ 64) r) : RunPlan plan (profile :: rest) lost r

variable {plan : Plan} {profile : Profile} {workers n : ℕ}

theorem Repeated.flawless (hw : 0 < workers) {r : Except Exception (List RunSummary)}
    (h : Repeated profile workers n r) : ∃ measured, r = .ok measured ∧ ∀ s ∈ measured, Flawless profile s := by
  induction h with
  | done => exact ⟨[], rfl, by simp⟩
  | threw h =>
    obtain ⟨s, hs, -⟩ := h.flawless hw
    cases hs
  | @next _ s _ h _ ih =>
    obtain ⟨_, hs, hflawless⟩ := h.flawless hw
    cases hs
    obtain ⟨measured, rfl, hall⟩ := ih
    exact ⟨s :: measured, rfl, List.forall_mem_cons.mpr ⟨hflawless, hall⟩⟩

theorem exists_repeated (hw : 0 < workers) (profile : Profile) :
    ∀ n, ∃ measured, Repeated profile workers n (.ok measured)
  | 0 => ⟨[], .done⟩
  | n + 1 => by
    obtain ⟨s, hs⟩ := exists_measures hw profile
    obtain ⟨measured, hrest⟩ := exists_repeated hw profile n
    exact ⟨s :: measured, .next hs hrest⟩

theorem row_lost_eq_zero {measured : List RunSummary} (h : ∀ s ∈ measured, Flawless profile s) :
    row_lost measured = 0 := by
  have hzero : ∀ f : RunSummary → ℕ, (∀ s ∈ measured, f s = 0) →
      measured.foldl (fun sum m => (sum + f m) % 2 ^ 64) 0 = 0 := by
    intro f hf
    induction measured with
    | nil => rfl
    | cons s measured ih =>
      rw [List.foldl_cons, hf s (by simp)]
      exact ih (fun s hs => h s (by simp [hs])) fun s hs => hf s (by simp [hs])
  rw [row_lost, hzero _ fun s hs => (h s hs).failed, hzero _ fun s hs => (h s hs).rejected]
  rfl

/-- Staffed rows lose nothing, and can be run. -/
theorem runProfile_iff {counts : List ℕ} (hw : ∀ workers ∈ counts, 0 < workers) {r : Except Exception ℕ} :
    RunProfile plan profile counts 0 r ↔ r = .ok 0 := by
  induction counts with
  | nil =>
    constructor
    · rintro ⟨⟩
      rfl
    · rintro rfl
      exact .done
  | cons workers rest ih =>
    have hworkers := hw workers (by simp)
    have hrest := ih fun workers h => hw workers (by simp [h])
    constructor
    · intro h
      cases h with
      | warmup_threw h =>
        obtain ⟨measured, hm, -⟩ := h.flawless hworkers
        cases hm
      | threw _ h =>
        obtain ⟨measured, hm, -⟩ := h.flawless hworkers
        cases hm
      | row _ hm hr =>
        obtain ⟨measured, hm', hall⟩ := hm.flawless hworkers
        cases hm'
        rw [row_lost_eq_zero hall] at hr
        exact hrest.mp hr
    · rintro rfl
      obtain ⟨discarded, hd⟩ := exists_repeated hworkers profile plan.warmups
      obtain ⟨measured, hm⟩ := exists_repeated hworkers profile plan.repetitions
      obtain ⟨measured', hm', hall⟩ := hm.flawless hworkers
      cases hm'
      refine .row hd hm ?_
      rw [row_lost_eq_zero hall]
      exact hrest.mpr rfl

theorem runPlan_iff {profiles : List Profile} (hw : ∀ profile ∈ profiles, ∀ workers ∈ profile.workers, 0 < workers)
    {r : Except Exception ℕ} : RunPlan plan profiles 0 r ↔ r = .ok 0 := by
  induction profiles with
  | nil =>
    constructor
    · rintro ⟨⟩
      rfl
    · rintro rfl
      exact .done
  | cons profile rest ih =>
    have hprofile := fun r => @runProfile_iff plan profile _ (hw profile (by simp)) r
    have hrest := ih fun profile h => hw profile (by simp [h])
    constructor
    · intro h
      cases h with
      | threw h => cases (hprofile _).mp h
      | next h hr =>
        cases (hprofile _).mp h
        exact hrest.mp hr
    · rintro rfl
      exact .next ((hprofile _).mpr rfl) (hrest.mpr rfl)

end Loops

/-! ## `main` -/

section Main

/-- The definitions of the build that `main` looks at. -/
structure Build where
  build_type : String
  sanitizer_mode : String

/-- The loop over the arguments: whether `--smoke` was given, or the code of an early exit. -/
def parse (smoke : Bool) : List String → Except ℕ Bool
  | [] => .ok smoke
  | arg :: rest =>
    if arg = "--help" ∨ arg = "-h" then .error kExitOk
    else if arg = "--smoke" then parse true rest
    else .error kExitRefused

/-- `main` up to its plan. -/
def choose_plan (build : Build) (hardware_concurrency : UInt32) (args : List String) : Except ℕ Plan :=
  match parse false args with
  | .error code => .error code
  | .ok smoke =>
    if !smoke ∧ build.sanitizer_mode ≠ "off" then .error kExitRefused
    else if !smoke ∧ build.build_type ≠ "Release" then .error kExitRefused
    else .ok (if smoke then smoke_plan else measurement_plan hardware_concurrency)

/-- How `main` can end: with an exit code, or by an exception that nothing catches. -/
inductive Ends (build : Build) (hardware_concurrency : UInt32) (args : List String) : Except Exception ℕ → Prop
  | early {code} (h : choose_plan build hardware_concurrency args = .error code) :
      Ends build hardware_concurrency args (.ok code)
  | threw {plan e} (h : choose_plan build hardware_concurrency args = .ok plan)
      (hr : RunPlan plan plan.profiles 0 (.error e)) : Ends build hardware_concurrency args (.error e)
  | completed {plan lost} (h : choose_plan build hardware_concurrency args = .ok plan)
      (hr : RunPlan plan plan.profiles 0 (.ok lost)) :
      Ends build hardware_concurrency args (.ok (if lost ≠ 0 then kExitLostWork else kExitOk))

variable {build : Build} {hardware_concurrency : UInt32} {args : List String}

theorem choose_plan_staffed {plan : Plan} (h : choose_plan build hardware_concurrency args = .ok plan) :
    plan.Staffed := by
  unfold choose_plan at h
  split at h
  · cases h
  · next smoke _ =>
    split_ifs at h <;> cases h
    · exact smoke_plan_staffed
    · exact measurement_plan_staffed _

/-- **How the benchmark ends**, over all schedules of all of its measurements: a plan that is run is run to
its end without an exception, and the exit code says that no task failed or was rejected. -/
theorem ends_iff (build : Build) (hardware_concurrency : UInt32) (args : List String)
    (r : Except Exception ℕ) :
    Ends build hardware_concurrency args r ↔
      r = .ok (match choose_plan build hardware_concurrency args with
        | .error code => code
        | .ok _ => kExitOk) := by
  cases hp : choose_plan build hardware_concurrency args with
  | error code =>
    constructor
    · rintro (h | ⟨h, -⟩ | ⟨h, -⟩) <;> rw [hp] at h <;> cases h
      rfl
    · rintro rfl
      exact .early hp
  | ok plan =>
    have hrun := fun r => @runPlan_iff plan plan.profiles (choose_plan_staffed hp) r
    constructor
    · intro h
      cases h with
      | early h =>
        rw [hp] at h
        cases h
      | threw h hr =>
        rw [hp] at h
        cases h
        cases (hrun _).mp hr
      | completed h hr =>
        rw [hp] at h
        cases h
        cases (hrun _).mp hr
        rfl
    · rintro rfl
      exact .completed hp ((hrun _).mpr rfl)

end Main

end Bench

end TaskEngine
