import TaskEngine.Core.Task
import TaskEngine.Words.Mixing

/-!
# TaskEngine.Tasks.ComputeTask — a deterministic CPU-bound workload

`tasks/compute_task.cpp`: splitmix64, folded into a checksum, in wrapping 64-bit arithmetic.  An output
of splitmix64 is zero at the state zero only, which a seed meets at most once: every other iteration
changes the checksum (`no_dead_iteration`).
-/

namespace TaskEngine

structure ComputeTask where
  iterations : BitVec 64
  seed : BitVec 64
  checksum : BitVec 64
  deriving DecidableEq

namespace ComputeTask

/-- The constructor. -/
def create (iterations seed : ℕ) : ComputeTask := ⟨.ofNat 64 iterations, .ofNat 64 seed, 0⟩

/-- The output of splitmix64 at a state. -/
def mix (state : BitVec 64) : BitVec 64 :=
  let z := (state ^^^ (state >>> 30)) * 0xBF58476D1CE4E5B9#64
  let z := (z ^^^ (z >>> 27)) * 0x94D049BB133111EB#64
  z ^^^ (z >>> 31)

/-- `n` rounds of the loop, from `state` and `checksum`. -/
def loop : ℕ → BitVec 64 → BitVec 64 → BitVec 64
  | 0, _, checksum => checksum
  | n + 1, state, checksum =>
    let state := state + 0x9E3779B97F4A7C15#64
    loop n state (checksum ^^^ mix state)

/-- `execute()`, on the members; nothing in it throws. -/
def execute (task : ComputeTask) : Except String ComputeTask :=
  .ok { task with checksum := loop task.iterations.toNat task.seed task.checksum }

/-- The task, as the engine sees it. -/
def task (task : ComputeTask) : Task :=
  ⟨match task.execute with
    | .ok _ => .returns
    | .error what => .throws what⟩

@[simp] theorem task_execute (task : ComputeTask) : task.task.execute = .returns := rfl

/-! ## What an iteration adds -/

/-- The checksum of a new task after one `execute()`. -/
def checksumAfter (iterations seed : ℕ) : Except String (BitVec 64) :=
  (create iterations seed).execute.map ComputeTask.checksum

/-- The rounds of splitmix64 can be undone: each shift and each multiplication is an injection. -/
theorem mix_injective : Function.Injective mix := by
  have h30 := Words.xorShift_injective (w := 64) (k := 30) (by decide)
  have h27 := Words.xorShift_injective (w := 64) (k := 27) (by decide)
  have h31 := Words.xorShift_injective (w := 64) (k := 31) (by decide)
  have h1 := Words.mul_injective (show 0xBF58476D1CE4E5B9#64 * 0x96DE1B173F119089#64 = 1#64 by decide)
  have h2 := Words.mul_injective (show 0x94D049BB133111EB#64 * 0x319642B2D24D8EC3#64 = 1#64 by decide)
  exact h31.comp (h2.comp (h27.comp (h1.comp h30)))

theorem mix_eq_zero_iff {state : BitVec 64} : mix state = 0 ↔ state = 0 := by
  have hz : mix 0 = 0 := by decide
  constructor
  · intro h
    exact mix_injective (h.trans hz.symm)
  · rintro rfl
    exact hz

theorem loop_succ (n : ℕ) (state checksum : BitVec 64) :
    loop (n + 1) state checksum =
      loop n state checksum ^^^ mix (state + BitVec.ofNat 64 (n + 1) * 0x9E3779B97F4A7C15#64) := by
  induction n generalizing state checksum with
  | zero => rw [loop, loop, loop, BitVec.one_mul]
  | succ n ih => rw [loop, ih, loop, Words.counter_succ state _ (n + 1)]

theorem checksumAfter_eq {n seed : ℕ} (hn : n < 2 ^ 64) :
    checksumAfter n seed = .ok (loop n (.ofNat 64 seed) 0) := by
  simp only [checksumAfter, execute, create, Except.map, BitVec.toNat_ofNat, Nat.mod_eq_of_lt hn]

/-- The next iteration changes nothing where its state is zero. -/
theorem checksumAfter_succ_eq {n seed : ℕ} (hn : n < 2 ^ 64 - 1) :
    checksumAfter (n + 1) seed = checksumAfter n seed ↔
      BitVec.ofNat 64 seed + BitVec.ofNat 64 (n + 1) * 0x9E3779B97F4A7C15#64 = 0 := by
  rw [checksumAfter_eq (show n + 1 < 2 ^ 64 by omega), checksumAfter_eq (show n < 2 ^ 64 by omega),
    Except.ok.injEq, loop_succ, ← mix_eq_zero_iff]
  exact Words.xor_eq_left_iff

/-- **No iteration is dead work**, but the one whose state is zero. -/
theorem no_dead_iteration (seed : ℕ) :
    (∀ n, n < 2 ^ 64 - 1 → (checksumAfter (n + 1) seed = checksumAfter n seed ↔
      (seed + (n + 1) * 0x9E3779B97F4A7C15) % 2 ^ 64 = 0)) ∧
    (∀ n n', n < 2 ^ 64 - 1 → n' < 2 ^ 64 - 1 → checksumAfter (n + 1) seed = checksumAfter n seed →
      checksumAfter (n' + 1) seed = checksumAfter n' seed → n = n') ∧
    ∀ n, n < 2 ^ 64 - 1 → checksumAfter (n + 1) 0 ≠ checksumAfter n 0 := by
  have hodd : 0x9E3779B97F4A7C15#64 * 0xF1DE83E19937733D#64 = 1#64 := by decide
  refine ⟨?_, ?_, ?_⟩
  · intro n hn
    exact (checksumAfter_succ_eq hn).trans Words.counter_eq_zero_iff
  · intro n n' hn hn' h h'
    have hstates := ((checksumAfter_succ_eq hn).mp h).trans ((checksumAfter_succ_eq hn').mp h').symm
    exact Nat.succ.inj (Words.counter_injective hodd _ (by omega) (by omega) hstates)
  · intro n hn h
    have hzero : BitVec.ofNat 64 0 + BitVec.ofNat 64 (n + 1) * 0x9E3779B97F4A7C15#64 =
        BitVec.ofNat 64 0 + BitVec.ofNat 64 0 * 0x9E3779B97F4A7C15#64 := by
      rw [(checksumAfter_succ_eq hn).mp h]
      simp
    exact absurd (Words.counter_injective hodd _ (by omega) (by omega) hzero) (Nat.succ_ne_zero n)

/-- At seed 0 the first iteration counts. -/
theorem no_dead_iteration_first : checksumAfter 1 0 ≠ checksumAfter 0 0 :=
  (no_dead_iteration 0).2.2 0 (by decide)

end ComputeTask

end TaskEngine
