import Mathlib

/-! Range checks over a prime field. An element is below a bound if its least representative is. Two limbs below
their bounds are told apart by the number that they make, as long as that number stays below the modulus. -/

namespace VerifiableCompute.Lib

open Finset

variable {p : ℕ}
variable {m n : ℕ} {x y : ZMod p} {b b' : ℕ → ZMod p}

/-- Numbers below the modulus are told apart by their residues. -/
theorem natCast_inj_of_lt (hm : m < p) (hn : n < p) (h : (m : ZMod p) = n) : m = n := by
  have hmod := (ZMod.natCast_eq_natCast_iff' m n p).mp h
  rwa [Nat.mod_eq_of_lt hm, Nat.mod_eq_of_lt hn] at hmod

/-- The range check of an element. -/
def Limb (n : ℕ) (x : ZMod p) : Prop := x.val < n

theorem Limb.mono (h : Limb m x) (hle : m ≤ n) : Limb n x := lt_of_lt_of_le h hle

theorem below_natCast (hm : m < n) (hn : n ≤ p) : Limb n (m : ZMod p) := by
  rw [Limb, ZMod.val_natCast_of_lt (lt_of_lt_of_le hm hn)]
  exact hm

variable [Fact p.Prime]

theorem Limb.exists_natCast (h : Limb n x) : ∃ m : ℕ, m < n ∧ x = m :=
  ⟨x.val, h, (ZMod.natCast_zmod_val x).symm⟩

/-- Limbs below their bounds make a number below the product of the bounds. -/
theorem limbs_lt {j k : ℕ} (hj : j < m) (hk : k < n) : j + k * m < m * n := by
  calc j + k * m < m + k * m := Nat.add_lt_add_right hj _
    _ = m * (k + 1) := by ring
    _ ≤ m * n := Nat.mul_le_mul_left m hk

theorem Limb.add_mul (hx : Limb m x) (hy : Limb n y) (hfit : m * n ≤ p) : Limb (m * n) (x + y * (m : ZMod p)) := by
  obtain ⟨j, hj, rfl⟩ := hx.exists_natCast
  obtain ⟨k, hk, rfl⟩ := hy.exists_natCast
  rw [← Nat.cast_mul, ← Nat.cast_add]
  exact below_natCast (limbs_lt hj hk) hfit

/-- Two limbs are told apart by the number that they make. -/
theorem limbs_unique {x' y' : ZMod p} (hx : Limb m x) (hx' : Limb m x') (hy : Limb n y) (hy' : Limb n y')
    (hfit : m * n ≤ p) (h : x + y * (m : ZMod p) = x' + y' * (m : ZMod p)) : x = x' ∧ y = y' := by
  obtain ⟨j, hj, rfl⟩ := hx.exists_natCast
  obtain ⟨j', hj', rfl⟩ := hx'.exists_natCast
  obtain ⟨k, hk, rfl⟩ := hy.exists_natCast
  obtain ⟨k', hk', rfl⟩ := hy'.exists_natCast
  rw [← Nat.cast_mul, ← Nat.cast_mul, ← Nat.cast_add, ← Nat.cast_add] at h
  have hsame := natCast_inj_of_lt (lt_of_lt_of_le (limbs_lt hj hk) hfit) (lt_of_lt_of_le (limbs_lt hj' hk') hfit) h
  have hlow : j = j' := by
    have hmod := congrArg (· % m) hsame
    simpa only [Nat.add_mul_mod_self_right, Nat.mod_eq_of_lt hj, Nat.mod_eq_of_lt hj'] using hmod
  have hhigh : k = k' := by
    rw [hlow] at hsame
    exact Nat.eq_of_mul_eq_mul_right (Nat.zero_lt_of_lt hj) (Nat.add_left_cancel hsame)
  exact ⟨congrArg Nat.cast hlow, congrArg Nat.cast hhigh⟩

def IsBit (x : ZMod p) : Prop := x * (x - 1) = 0

theorem isBit_iff : IsBit x ↔ x = 0 ∨ x = 1 := by
  rw [IsBit, mul_eq_zero, sub_eq_zero]

theorem isBit_zero : IsBit (0 : ZMod p) := isBit_iff.mpr (.inl rfl)

theorem isBit_one : IsBit (1 : ZMod p) := isBit_iff.mpr (.inr rfl)

theorem isBit_natCast (h : m < 2) : IsBit (m : ZMod p) := by
  rw [isBit_iff]
  obtain rfl | rfl : m = 0 ∨ m = 1 := by omega
  · exact .inl Nat.cast_zero
  · exact .inr Nat.cast_one

theorem IsBit.below (h : IsBit x) : Limb 2 x := by
  have hprime : p.Prime := Fact.out
  obtain rfl | rfl := isBit_iff.mp h
  · rw [← Nat.cast_zero]
    exact below_natCast Nat.zero_lt_two hprime.two_le
  · rw [← Nat.cast_one]
    exact below_natCast Nat.one_lt_two hprime.two_le

/-- The number that bits make, the lowest first. -/
def ofBits (n : ℕ) (b : ℕ → ZMod p) : ZMod p := ∑ i ∈ Finset.range n, b i * 2 ^ i

theorem ofBits_succ (n : ℕ) (b : ℕ → ZMod p) : ofBits (n + 1) b = ofBits n b + b n * 2 ^ n := sum_range_succ _ n

theorem ofBits_congr (h : ∀ i < n, b i = b' i) : ofBits n b = ofBits n b' := by
  apply sum_congr rfl
  intro i hi
  rw [h i (mem_range.mp hi)]

theorem ofBits_below (hb : ∀ i < n, IsBit (b i)) (hfit : 2 ^ n ≤ p) : Limb (2 ^ n) (ofBits n b) := by
  induction n with
  | zero =>
    rw [ofBits, sum_range_zero, pow_zero, ← Nat.cast_zero]
    exact below_natCast Nat.zero_lt_one hfit
  | succ n ih =>
    have hlow : Limb (2 ^ n) (ofBits n b) :=
      ih (fun i hi => hb i (Nat.lt_succ_of_lt hi)) (le_trans (Nat.pow_le_pow_right Nat.zero_lt_two n.le_succ) hfit)
    rw [ofBits_succ, pow_succ]
    have hsum := hlow.add_mul (hb n n.lt_succ_self).below (pow_succ 2 n ▸ hfit)
    rwa [Nat.cast_pow, Nat.cast_ofNat] at hsum

theorem ofBits_unique (hb : ∀ i < n, IsBit (b i)) (hb' : ∀ i < n, IsBit (b' i)) (hfit : 2 ^ n ≤ p)
    (h : ofBits n b = ofBits n b') : ∀ i < n, b i = b' i := by
  induction n with
  | zero => exact fun i hi => absurd hi (Nat.not_lt_zero i)
  | succ n ih =>
    have hfit' : 2 ^ n ≤ p := le_trans (Nat.pow_le_pow_right Nat.zero_lt_two n.le_succ) hfit
    have hlow : ∀ i < n, IsBit (b i) := fun i hi => hb i (Nat.lt_succ_of_lt hi)
    have hlow' : ∀ i < n, IsBit (b' i) := fun i hi => hb' i (Nat.lt_succ_of_lt hi)
    have hcast : ((2 ^ n : ℕ) : ZMod p) = 2 ^ n := by rw [Nat.cast_pow, Nat.cast_ofNat]
    rw [ofBits_succ, ofBits_succ, ← hcast] at h
    obtain ⟨hrest, htop⟩ := limbs_unique (ofBits_below hlow hfit') (ofBits_below hlow' hfit') (hb n n.lt_succ_self).below
      (hb' n n.lt_succ_self).below (pow_succ 2 n ▸ hfit) h
    intro i hi
    obtain hi | rfl := Nat.lt_succ_iff_lt_or_eq.mp hi
    · exact ih hlow hlow' hfit' hrest i hi
    · exact htop

theorem ofBits_combine (n : ℕ) (c d : ZMod p) (a b e : ℕ → ZMod p) :
    c * (ofBits n a + ofBits n b) + d * ofBits n e = ofBits n fun i => c * (a i + b i) + d * e i := by
  unfold ofBits
  rw [← sum_add_distrib, mul_sum, mul_sum, ← sum_add_distrib]
  apply sum_congr rfl
  intro i _
  ring

theorem ofBits_natCast (n x : ℕ) : ofBits n (fun i => ((x >>> i % 2 : ℕ) : ZMod p)) = (x % 2 ^ n : ℕ) := by
  induction n with
  | zero => rw [ofBits, sum_range_zero, pow_zero, Nat.mod_one, Nat.cast_zero]
  | succ n ih =>
    rw [ofBits_succ, ih, Nat.shiftRight_eq_div_pow, Nat.mod_pow_succ]
    push_cast
    ring

end VerifiableCompute.Lib
