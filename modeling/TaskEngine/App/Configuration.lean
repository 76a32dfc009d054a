import TaskEngine.App.Model
import TaskEngine.Cli.ParseArgs

/-!
# TaskEngine.App.Configuration — from the arguments to an engine

`main` up to the loop of `run`.  A configuration passes `parse_args`, the constructors of the queue and of
the pool, and, where one of them throws, the `catch` clauses of `main`.  The parser takes every number of
workers up to `2 ^ 64 - 1`, but a vector of the pool can be asked for no more than its `max_size()`
(`accepted_usable`).
-/

namespace TaskEngine

/-! ## Vectors -/

/-- `max_size()` of a `std::vector`: its elements take fewer than `2 ^ 63` bytes in all. -/
structure MaxSize where
  element_size : ℕ
  count : ℕ
  pos : 0 < element_size
  fits : count * element_size < 2 ^ 63

/-! ## The constructors -/

/-- The two constructors of the pool in the order of their checks, with memory for every size that there
can be: `samples_(worker_count)` and `threads_.reserve(worker_count)` throw past the `max_size()` of the
two vectors. -/
def ThreadPool.construct_sized {ι : Type} (buffers threads : MaxSize) (worker_count queue_capacity : ℕ) :
    Except Exception (ThreadPool.System worker_count ι) :=
  if queue_capacity = 0 then
    .error (.invalid_argument "BlockingQueue capacity must be at least 1")
  else if buffers.count < worker_count then .error .length_error
  else if worker_count = 0 then
    .error (.invalid_argument "ThreadPool requires at least one worker")
  else if threads.count < worker_count then .error .length_error
  else .ok ThreadPool.init

/-- The constructor of the engine. -/
def Engine.construct_sized {ι : Type} (buffers threads : MaxSize) (worker_count queue_capacity : ℕ) :
    Except Exception (Engine.System worker_count ι) :=
  (ThreadPool.construct_sized (ι := ι) buffers threads worker_count queue_capacity).map fun _ => Engine.init

/-- Both vectors can have an element for each worker. -/
def Holds (buffers threads : MaxSize) (worker_count : ℕ) : Prop :=
  worker_count ≤ buffers.count ∧ worker_count ≤ threads.count

instance (buffers threads : MaxSize) (worker_count : ℕ) : Decidable (Holds buffers threads worker_count) :=
  inferInstanceAs (Decidable (_ ∧ _))

section Constructors

variable {buffers threads : MaxSize} {worker_count queue_capacity : ℕ} {ι : Type}

theorem construct_sized_of_holds (h : Holds buffers threads worker_count) :
    Engine.construct_sized (ι := ι) buffers threads worker_count queue_capacity =
      Engine.construct worker_count queue_capacity := by
  have hpool : ThreadPool.construct_sized (ι := ι) buffers threads worker_count queue_capacity =
      ThreadPool.construct worker_count queue_capacity := by
    unfold ThreadPool.construct_sized ThreadPool.construct
    rw [if_neg (not_lt.mpr h.1), if_neg (not_lt.mpr h.2)]
  rw [Engine.construct_sized, Engine.construct, hpool]

/-- Where one of them does not, a constructor with valid arguments throws `std::length_error`. -/
theorem construct_sized_of_not_holds (hw : worker_count ≠ 0) (hq : queue_capacity ≠ 0)
    (h : ¬ Holds buffers threads worker_count) :
    Engine.construct_sized (ι := ι) buffers threads worker_count queue_capacity = .error .length_error := by
  have hpool : ThreadPool.construct_sized (ι := ι) buffers threads worker_count queue_capacity =
      .error .length_error := by
    rw [ThreadPool.construct_sized, if_neg hq, if_neg hw]
    by_cases hb : buffers.count < worker_count
    · rw [if_pos hb]
    · have ht : threads.count < worker_count := by
        by_contra ht
        exact h ⟨not_lt.mp hb, not_lt.mp ht⟩
      rw [if_neg hb, if_pos ht]
  rw [Engine.construct_sized, hpool]
  rfl

/-- The constructor with valid arguments succeeds as long as the vectors hold the workers. -/
theorem construct_sized_iff (hw : worker_count ≠ 0) (hq : queue_capacity ≠ 0) :
    (∃ system, Engine.construct_sized (ι := ι) buffers threads worker_count queue_capacity = .ok system) ↔
      Holds buffers threads worker_count := by
  constructor
  · rintro ⟨system, hok⟩
    by_contra h
    rw [construct_sized_of_not_holds hw hq h] at hok
    cases hok
  · intro h
    refine ⟨Engine.init, ?_⟩
    rw [construct_sized_of_holds h, Engine.construct, ThreadPool.construct, if_neg hq, if_neg hw]
    rfl

end Constructors

/-! ## `main` -/

section Main

/-- `main` up to the loop of `run`: the options of the engine that has been constructed, or the exit code. -/
def start (buffers threads : MaxSize) (hardware_concurrency : UInt32) (args : List String) : Except ℕ Options :=
  let parsed := parse_args hardware_concurrency args
  match parsed.action with
  | .ShowHelp => .error kExitSuccess
  | .ShowVersion => .error kExitSuccess
  | .Fail => .error kExitUsage
  | .Run =>
    match Engine.construct_sized (ι := App.Client) buffers threads parsed.options.workers
        parsed.options.queue_capacity with
    | .ok _ => .ok parsed.options
    | .error e => .error e.exit_code

variable {buffers threads : MaxSize} {hardware_concurrency : UInt32} {args : List String}

/-- What `parse_args` accepts passes the checks for zero. -/
theorem positive_of_run (h : (parse_args hardware_concurrency args).action = .Run) :
    (parse_args hardware_concurrency args).options.workers ≠ 0 ∧
    (parse_args hardware_concurrency args).options.queue_capacity ≠ 0 := by
  obtain ⟨pairs, hp, hw, hq⟩ := run_iff.mp h
  rw [← assigned_get hp.2] at hw hq
  have hres : parse_args hardware_concurrency args = ⟨.Run, assigned hardware_concurrency pairs, ""⟩ :=
    (parse_args_spelled hp).trans ((if_neg hw).trans (if_neg hq))
  rw [hres]
  exact ⟨hw, hq⟩

theorem start_of_ne_run (h : (parse_args hardware_concurrency args).action ≠ .Run) :
    start buffers threads hardware_concurrency args ≠ .error kExitTaskFailure ∧
    (start buffers threads hardware_concurrency args = .error kExitUsage ↔
      (parse_args hardware_concurrency args).action = .Fail) := by
  unfold start
  dsimp only
  cases ha : (parse_args hardware_concurrency args).action with
  | Run => exact absurd ha h
  | ShowHelp => simp [kExitSuccess, kExitUsage, kExitTaskFailure]
  | ShowVersion => simp [kExitSuccess, kExitUsage, kExitTaskFailure]
  | Fail => simp [kExitUsage, kExitTaskFailure]

theorem start_of_holds (h : (parse_args hardware_concurrency args).action = .Run)
    (hh : Holds buffers threads (parse_args hardware_concurrency args).options.workers) :
    start buffers threads hardware_concurrency args = .ok (parse_args hardware_concurrency args).options := by
  obtain ⟨hw, hq⟩ := positive_of_run h
  obtain ⟨system, hok⟩ := (construct_sized_iff (ι := App.Client) hw hq).mpr hh
  rw [start, h]
  dsimp only
  rw [hok]

theorem start_of_not_holds (h : (parse_args hardware_concurrency args).action = .Run)
    (hh : ¬ Holds buffers threads (parse_args hardware_concurrency args).options.workers) :
    start buffers threads hardware_concurrency args = .error kExitTaskFailure := by
  obtain ⟨hw, hq⟩ := positive_of_run h
  rw [start, h]
  dsimp only
  rw [construct_sized_of_not_holds hw hq hh]
  rfl

/-- **Accepted configurations are usable** as long as the vectors hold the workers; the others, which no
engine can be constructed from, exit with the code of a run that had failures. -/
theorem accepted_usable (buffers threads : MaxSize) (hardware_concurrency : UInt32) (args : List String) :
    ((parse_args hardware_concurrency args).action = .Run →
      ((∃ system, Engine.construct_sized (ι := App.Client) buffers threads
          (parse_args hardware_concurrency args).options.workers
          (parse_args hardware_concurrency args).options.queue_capacity = .ok system) ↔
        Holds buffers threads (parse_args hardware_concurrency args).options.workers)) ∧
    (start buffers threads hardware_concurrency args = .error kExitTaskFailure ↔
      (parse_args hardware_concurrency args).action = .Run ∧
        ¬ Holds buffers threads (parse_args hardware_concurrency args).options.workers) ∧
    (start buffers threads hardware_concurrency args = .error kExitUsage ↔
      (parse_args hardware_concurrency args).action = .Fail) := by
  refine ⟨?_, ?_⟩
  · intro hrun
    obtain ⟨hw, hq⟩ := positive_of_run hrun
    exact construct_sized_iff hw hq
  by_cases hrun : (parse_args hardware_concurrency args).action = .Run
  · by_cases hh : Holds buffers threads (parse_args hardware_concurrency args).options.workers
    · rw [start_of_holds hrun hh]
      simp [hrun, hh]
    · rw [start_of_not_holds hrun hh]
      simp [hrun, hh, kExitTaskFailure, kExitUsage]
  · obtain ⟨hne, husage⟩ := @start_of_ne_run buffers threads _ _ hrun
    exact ⟨⟨fun h => absurd h hne, fun h => absurd h.1 hrun⟩, husage⟩

/-- The limits on a machine with 64-bit addresses, for buffers of three pointers and threads of one. -/
def buffers64 : MaxSize := ⟨24, (2 ^ 63 - 1) / 24, by decide, by decide⟩

def threads64 : MaxSize := ⟨8, (2 ^ 63 - 1) / 8, by decide, by decide⟩

theorem accepted_usable_four : ∃ system, Engine.construct_sized (ι := App.Client) buffers64 threads64
    (parse_args 1 ["--workers", "4"]).options.workers
    (parse_args 1 ["--workers", "4"]).options.queue_capacity = .ok system :=
  ((accepted_usable buffers64 threads64 1 ["--workers", "4"]).1 (by decide)).mpr (by decide)

/-- More workers than any vector holds: accepted, not constructible, and reported with exit code 1. -/
theorem accepted_unusable :
    (parse_args 1 ["--workers", "9223372036854775808"]).action = .Run ∧
    Engine.construct_sized (ι := App.Client) buffers64 threads64
      (parse_args 1 ["--workers", "9223372036854775808"]).options.workers
      (parse_args 1 ["--workers", "9223372036854775808"]).options.queue_capacity = .error .length_error ∧
    start buffers64 threads64 1 ["--workers", "9223372036854775808"] = .error kExitTaskFailure := by
  have hrun : (parse_args 1 ["--workers", "9223372036854775808"]).action = .Run := by decide
  have hnot : ¬ Holds buffers64 threads64 (parse_args 1 ["--workers", "9223372036854775808"]).options.workers := by
    decide
  obtain ⟨hw, hq⟩ := positive_of_run hrun
  exact ⟨hrun, construct_sized_of_not_holds hw hq hnot, start_of_not_holds hrun hnot⟩

end Main

end TaskEngine
