import VerifiableCompute.Lib.Residues
import VerifiableCompute.Rv32im.Platform

/-! The columns of the circuit. They hold elements of the Baby Bear field. A component is a record of columns with
the columns that its `set` writes, and with what a satisfying assignment obeys: its own constraints and those of
its parts. -/

namespace VerifiableCompute.Circuit

open Lib Rv32im Finset

theorem prime_modulus : Nat.Prime 2013265921 := by
  apply lucas_primality 2013265921 31
  · norm_num1
    reduce_mod_char
  · intro q hq hdvd
    have hfactors : q ∣ 2 ^ 27 * (3 * 5) := hdvd
    rw [hq.dvd_mul, hq.dvd_mul, Nat.prime_dvd_prime_iff_eq hq Nat.prime_three, Nat.prime_dvd_prime_iff_eq hq Nat.prime_five]
      at hfactors
    obtain h | rfl | rfl := hfactors
    · obtain rfl := (Nat.prime_dvd_prime_iff_eq hq Nat.prime_two).mp (hq.dvd_of_dvd_pow h)
      norm_num1
      reduce_mod_char
      decide
    · norm_num1
      reduce_mod_char
      decide
    · norm_num1
      reduce_mod_char
      decide

instance instFactPrimeModulus : Fact (Nat.Prime 2013265921) := ⟨prime_modulus⟩

abbrev Fp := ZMod 2013265921

/-! The numerals that several components use. -/

scoped instance instNeZeroThree : NeZero 3 := ⟨by norm_num⟩
scoped instance instNeZeroFive : NeZero 5 := ⟨by norm_num⟩
scoped instance instAtLeastTwoTwo : Nat.AtLeastTwo 2 := ⟨by norm_num⟩
scoped instance instAtLeastTwoThree : Nat.AtLeastTwo 3 := ⟨by norm_num⟩
scoped instance instAtLeastTwoFour : Nat.AtLeastTwo 4 := ⟨by norm_num⟩
scoped instance instAtLeastTwoByte : Nat.AtLeastTwo 256 := ⟨by norm_num⟩
scoped instance instAtLeastTwoHalf : Nat.AtLeastTwo 65535 := ⟨by norm_num⟩

/-- The inverse of two, by which half of a range-checked column is taken. -/
theorem two_mul_inv_two : (2 : Fp) * 2⁻¹ = 1 := mul_inv_cancel₀ (by decide)

abbrev Reg := Fp
abbrev BitReg := Fp
abbrev RegU8 := Fp
abbrev RegU16 := Fp

def BitReg.verify (inner : BitReg) : Prop := IsBit inner
def RegU8.verify (inner : RegU8) : Prop := Limb 0x100 inner
def RegU16.verify (inner : RegU16) : Prop := Limb 0x10000 inner

def cond (c a b : Fp) : Fp := c * a + (1 - c) * b

@[simp] theorem cond_zero (a b : Fp) : cond 0 a b = b := by
  rw [cond, zero_mul, sub_zero, one_mul, zero_add]

@[simp] theorem cond_one (a b : Fp) : cond 1 a b = a := by
  rw [cond, sub_self, zero_mul, one_mul, add_zero]

structure OneHot (n : ℕ) where
  bits : Fin n → BitReg

namespace OneHot

variable {n : ℕ}

def set (n val : ℕ) : OneHot n := ⟨fun i => if (i : ℕ) = val then 1 else 0⟩

def get (x : OneHot n) : Fp := ∑ i, x.bits i * (i : ℕ)

def verify (x : OneHot n) : Prop := ∑ i, x.bits i = 1

structure Satisfied (x : OneHot n) : Prop where
  bits (i : Fin n) : BitReg.verify (x.bits i)
  verify : x.verify

theorem set_satisfied {val : ℕ} (h : val < n) : (set n val).Satisfied where
  bits i := by
    simp only [set]
    split_ifs
    · exact isBit_one
    · exact isBit_zero
  verify := by
    have hval (i : Fin n) : (i : ℕ) = val ↔ i = ⟨val, h⟩ := ⟨fun hi => Fin.ext hi, fun hi => congrArg Fin.val hi⟩
    simp only [OneHot.verify, set, hval, sum_ite_eq', mem_univ, if_true]

theorem get_set {val : ℕ} (h : val < n) : (set n val).get = val := by
  have hval (i : Fin n) : (i : ℕ) = val ↔ i = ⟨val, h⟩ := ⟨fun hi => Fin.ext hi, fun hi => congrArg Fin.val hi⟩
  simp only [get, set, hval, ite_mul, one_mul, zero_mul, sum_ite_eq', mem_univ, if_true]

theorem Satisfied.exists_set {x : OneHot n} (h : x.Satisfied) (hn : n < 2013265921) : ∃ val < n, x = set n val := by
  have hbits (i : Fin n) : x.bits i = if x.bits i = 1 then 1 else 0 := by
    obtain hi | hi := isBit_iff.mp (h.bits i)
    · rw [hi, if_neg zero_ne_one]
    · rw [if_pos hi, hi]
  have hsum : ((univ.filter fun i => x.bits i = 1).card : Fp) = (1 : ℕ) := by
    calc ((univ.filter fun i => x.bits i = 1).card : Fp) = ∑ i, if x.bits i = 1 then 1 else 0 := (sum_boole _ _).symm
      _ = ∑ i, x.bits i := sum_congr rfl fun i _ => (hbits i).symm
      _ = (1 : ℕ) := by rw [Nat.cast_one, h.verify]
  have hcard : (univ.filter fun i => x.bits i = 1).card ≤ n := by
    simpa using card_le_univ (univ.filter fun i => x.bits i = 1)
  have hone := natCast_inj_of_lt (lt_of_le_of_lt hcard hn) (by omega) hsum
  obtain ⟨val, hval⟩ := card_eq_one.mp hone
  refine ⟨val, val.isLt, ?_⟩
  cases x with
  | mk bits =>
    simp only [set, mk.injEq]
    funext i
    have hmem : bits i = 1 ↔ i = val := by
      have := Finset.ext_iff.mp hval i
      simpa using this
    refine (hbits i).trans ?_
    by_cases hi : i = val
    · rw [if_pos (hmem.mpr hi), if_pos (congrArg Fin.val hi)]
    · rw [if_neg fun hone => hi (hmem.mp hone), if_neg fun heq => hi (Fin.ext heq)]

theorem unique {x y : OneHot n} (hx : x.Satisfied) (hy : y.Satisfied) (hn : n < 2013265921) (h : x.get = y.get) : x = y := by
  obtain ⟨j, hj, rfl⟩ := hx.exists_set hn
  obtain ⟨k, hk, rfl⟩ := hy.exists_set hn
  rw [get_set hj, get_set hk] at h
  rw [natCast_inj_of_lt (hj.trans hn) (hk.trans hn) h]

end OneHot

structure IsZero where
  isZero : BitReg
  invReg : Reg

namespace IsZero

def set (val : Fp) : IsZero := if val = 0 then ⟨1, 0⟩ else ⟨0, val⁻¹⟩

structure verify (x : IsZero) (val : Fp) : Prop where
  invertible : val * x.invReg = 1 - x.isZero
  zero : x.isZero * val = 0
  inverse : x.isZero * x.invReg = 0

structure Satisfied (x : IsZero) (val : Fp) : Prop where
  isZero : BitReg.verify x.isZero
  verify : x.verify val

theorem satisfied_iff {x : IsZero} {val : Fp} : x.Satisfied val ↔ x = set val := by
  constructor
  · obtain ⟨isZero, invReg⟩ := x
    rintro ⟨hbit, hinvertible, hzero, hinverse⟩
    simp only at hinvertible hzero hinverse
    obtain rfl | rfl := isBit_iff.mp hbit
    · rw [sub_zero] at hinvertible
      have hne : val ≠ 0 := left_ne_zero_of_mul_eq_one hinvertible
      rw [set, if_neg hne, eq_inv_of_mul_eq_one_right hinvertible]
    · rw [one_mul] at hzero hinverse
      rw [set, if_pos hzero, hinverse]
  · rintro rfl
    by_cases h : val = 0
    · rw [set, if_pos h, h]
      exact ⟨isBit_one, by rw [zero_mul, sub_self], mul_zero _, mul_zero _⟩
    · rw [set, if_neg h]
      exact ⟨isBit_zero, by rw [mul_inv_cancel₀ h, sub_zero], zero_mul _, zero_mul _⟩

end IsZero

end VerifiableCompute.Circuit
