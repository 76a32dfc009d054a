import Mathlib.Tactic

/-!
# TaskEngine.Cli.Options — the configuration of a run and the exit codes

`cli/options.hpp`.
-/

namespace TaskEngine

def kExitSuccess : ℕ := 0

def kExitTaskFailure : ℕ := 1

def kExitUsage : ℕ := 2

/-- A run configuration.  `std::size_t` and `std::uint64_t` are 64 bits wide. -/
structure Options where
  workers : ℕ
  tasks : ℕ
  work : ℕ
  queue_capacity : ℕ
  fail_every : ℕ
  fits : ∀ n ∈ [workers, tasks, work, queue_capacity, fail_every], n < 2 ^ 64

theorem Options.tasks_lt (options : Options) : options.tasks < 2 ^ 64 := options.fits _ (by simp)

/-- Exit code for a run that completed. -/
def exit_code_for (failed rejected : ℕ) : ℕ :=
  if failed = 0 ∧ rejected = 0 then kExitSuccess else kExitTaskFailure

end TaskEngine
