import Mathlib.Data.BitVec
import Mathlib.Algebra.Group.Units.Basic
import Mathlib.Tactic

/-!
# TaskEngine.Words.Mixing — mixing machine words without loss

The rounds of which word hashes and generators are made: a word xored with its own right shift, and a
multiplication by a word with an inverse.  Both are injective and fix zero.  A counter with such a step
meets every word at most once before the width is exhausted (`counter_injective`).
-/

namespace Words

variable {w : ℕ}

/-! ## Rounds -/

/-- `z ^ (z >> k)`. -/
def xorShift (k : ℕ) (z : BitVec w) : BitVec w := z ^^^ (z >>> k)

@[simp] theorem xorShift_zero (k : ℕ) : xorShift k (0#w) = 0#w := by
  simp [xorShift]

/-- A word that is its own right shift is zero. -/
theorem eq_zero_of_shift_eq {k : ℕ} (hk : 0 < k) {z : BitVec w} (h : z >>> k = z) : z = 0#w := by
  have hdiv : z.toNat / 2 ^ k = z.toNat := by
    rw [← Nat.shiftRight_eq_div_pow, ← BitVec.toNat_ushiftRight, h]
  apply BitVec.eq_of_toNat_eq
  rw [BitVec.toNat_ofNat, Nat.zero_mod]
  by_contra hz
  have hlt : z.toNat / 2 ^ k < z.toNat := Nat.div_lt_self (Nat.pos_of_ne_zero hz) (Nat.one_lt_two_pow hk.ne')
  omega

/-- The difference of two words with the same round is its own right shift. -/
theorem xorShift_injective {k : ℕ} (hk : 0 < k) : Function.Injective (xorShift k : BitVec w → BitVec w) := by
  intro x y h
  have hdiff : (x ^^^ y) >>> k = x ^^^ y := by
    have h0 : (x ^^^ (x >>> k)) ^^^ (y ^^^ (y >>> k)) = 0#w := BitVec.xor_eq_zero_iff.mpr h
    apply (BitVec.xor_eq_zero_iff.mp _).symm
    rw [BitVec.ushiftRight_xor_distrib, ← h0]
    ac_rfl
  exact BitVec.xor_eq_zero_iff.mp (eq_zero_of_shift_eq hk hdiff)

theorem xor_eq_left_iff {x y : BitVec w} : x ^^^ y = x ↔ y = 0#w := by
  constructor
  · intro h
    exact (BitVec.xor_right_inj x).mp (h.trans BitVec.xor_zero.symm)
  · rintro rfl
    exact BitVec.xor_zero

/-- A factor with an inverse loses nothing. -/
theorem mul_injective {c d : BitVec w} (h : c * d = 1#w) : Function.Injective (· * c) :=
  (IsUnit.of_mul_eq_one d h).mul_left_injective

/-! ## Counters -/

theorem counter_succ (start c : BitVec w) (n : ℕ) :
    start + BitVec.ofNat w (n + 1) * c = start + c + BitVec.ofNat w n * c := by
  have hsucc : BitVec.ofNat w (n + 1) = BitVec.ofNat w n + 1#w := BitVec.ofNat_add n 1
  rw [hsucc, add_mul, BitVec.one_mul, add_assoc, add_comm c]

theorem counter_eq_zero_iff {start n c : ℕ} :
    BitVec.ofNat w start + BitVec.ofNat w n * BitVec.ofNat w c = 0#w ↔ (start + n * c) % 2 ^ w = 0 := by
  rw [← BitVec.ofNat_mul, ← BitVec.ofNat_add, ← BitVec.toNat_inj, BitVec.toNat_ofNat, BitVec.toNat_ofNat,
    Nat.zero_mod]

/-- A counter that starts anywhere and steps by a word with an inverse. -/
theorem counter_injective {c d : BitVec w} (h : c * d = 1#w) (start : BitVec w) {n n' : ℕ}
    (hn : n < 2 ^ w) (hn' : n' < 2 ^ w)
    (heq : start + BitVec.ofNat w n * c = start + BitVec.ofNat w n' * c) : n = n' := by
  have hofNat : BitVec.ofNat w n = BitVec.ofNat w n' := mul_injective h (add_left_cancel heq)
  have htoNat := congrArg BitVec.toNat hofNat
  rwa [BitVec.toNat_ofNat, BitVec.toNat_ofNat, Nat.mod_eq_of_lt hn, Nat.mod_eq_of_lt hn'] at htoNat

end Words
