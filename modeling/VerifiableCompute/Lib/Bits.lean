import Mathlib

/-! Single-bit tests on machine words, as code writes them: mask with a shifted
one and compare with zero. -/

namespace VerifiableCompute.Lib

open Nat

variable {w : ℕ}

theorem getLsbD_one_shiftLeft (i j : ℕ) (hj : j < w) : ((1 : BitVec w) <<< i).getLsbD j = decide (j = i) := by
  rw [BitVec.getLsbD_shiftLeft, show (1 : BitVec w) = 1#w from rfl, BitVec.getLsbD_one]
  by_cases hji : j = i
  · subst j
    have hw : 0 < w := by omega
    simp [hj, hw]
  · rcases Nat.lt_or_gt_of_ne hji with h | h
    · simp [hji, h]
    · have : ¬ j - i = 0 := by omega
      simp [hji, this]

theorem and_one_shiftLeft_ne_zero (x : BitVec w) (i : ℕ) (hi : i < w) :
    x &&& (1 : BitVec w) <<< i ≠ 0 ↔ x.getLsbD i = true := by
  constructor
  · intro h
    by_contra hb
    refine h (BitVec.eq_of_getLsbD_eq fun j hj => ?_)
    rw [BitVec.getLsbD_and, getLsbD_one_shiftLeft i j hj]
    by_cases hji : j = i <;> simp_all
  · intro hb h
    have hbit : (x &&& (1 : BitVec w) <<< i).getLsbD i = true := by
      rw [BitVec.getLsbD_and, getLsbD_one_shiftLeft i i hi, hb]
      simp
    rw [h] at hbit
    simp at hbit

/-! The reversal of the `n` low bits of an index. -/

def bitRev : ℕ → ℕ → ℕ
  | 0, _ => 0
  | n + 1, i => 2 * bitRev n (i % 2 ^ n) + i / 2 ^ n

variable {n i j : ℕ}

variable (hi : i < 2 ^ n)

include hi

theorem bitRev_lower : bitRev (n + 1) i = 2 * bitRev n i := by
  rw [bitRev, mod_eq_of_lt hi, div_eq_of_lt hi, Nat.add_zero]

theorem bitRev_upper : bitRev (n + 1) (2 ^ n + i) = 2 * bitRev n i + 1 := by
  rw [bitRev, add_mod_left, mod_eq_of_lt hi, add_div_left i (Nat.two_pow_pos n), div_eq_of_lt hi]

theorem bitRev_lt : bitRev n i < 2 ^ n := by
  induction n generalizing i with
  | zero => exact Nat.one_pos
  | succ n ih =>
    have hrest := ih (mod_lt i (Nat.two_pow_pos n))
    have htop : i / 2 ^ n < 2 := Nat.div_lt_of_lt_mul (by rw [← pow_succ]; exact hi)
    rw [bitRev, pow_succ]
    omega

theorem testBit_bitRev (hj : j < n) : (bitRev n i).testBit j = i.testBit (n - 1 - j) := by
  induction n generalizing i j with
  | zero => exact absurd hj (Nat.not_lt_zero j)
  | succ n ih =>
    have htop : i / 2 ^ n < 2 := Nat.div_lt_of_lt_mul (by rw [← pow_succ]; exact hi)
    rw [bitRev]
    cases j with
    | zero =>
      have hbit : (2 * bitRev n (i % 2 ^ n) + i / 2 ^ n) % 2 = i / 2 ^ n % 2 := by omega
      rw [testBit_zero, hbit, Nat.sub_zero, Nat.add_sub_cancel, testBit_eq_decide_div_mod_eq]
    | succ j =>
      have hhalf : (2 * bitRev n (i % 2 ^ n) + i / 2 ^ n) / 2 = bitRev n (i % 2 ^ n) := by
        rw [mul_add_div two_pos, div_eq_of_lt htop, Nat.add_zero]
      rw [testBit_succ, hhalf, ih (mod_lt i (Nat.two_pow_pos n)) (by omega), testBit_mod_two_pow,
        decide_eq_true (by omega), Bool.true_and]
      congr 1
      omega

theorem bitRev_bitRev : bitRev n (bitRev n i) = i := by
  apply eq_of_testBit_eq
  intro j
  by_cases hj : j < n
  · rw [testBit_bitRev (bitRev_lt hi) hj, testBit_bitRev hi (by omega)]
    congr 1
    omega
  · have hpow : 2 ^ n ≤ 2 ^ j := Nat.pow_le_pow_right two_pos (Nat.le_of_not_lt hj)
    rw [testBit_lt_two_pow (lt_of_lt_of_le (bitRev_lt (bitRev_lt hi)) hpow),
      testBit_lt_two_pow (lt_of_lt_of_le hi hpow)]

end VerifiableCompute.Lib
