import Mathlib.LinearAlgebra.Lagrange

/-! Polynomials by the lists of their coefficients, the lowest first. -/

namespace VerifiableCompute.Lib

open Polynomial List

variable {R : Type} [CommRing R]

noncomputable def polyOf : List R → R[X]
  | [] => 0
  | c :: cs => C c + X * polyOf cs

@[simp] theorem polyOf_nil : polyOf ([] : List R) = 0 := rfl

@[simp] theorem polyOf_cons (c : R) (cs : List R) : polyOf (c :: cs) = C c + X * polyOf cs := rfl

@[simp] theorem coeff_polyOf (cs : List R) (k : ℕ) : (polyOf cs).coeff k = cs.getD k 0 := by
  induction cs generalizing k with
  | nil => simp
  | cons c cs ih =>
    cases k with
    | zero => simp
    | succ k => simp [ih, coeff_C_succ]

theorem polyOf_ext {as bs : List R} (h : ∀ k, as.getD k 0 = bs.getD k 0) : polyOf as = polyOf bs := by
  ext k
  rw [coeff_polyOf, coeff_polyOf, h]

theorem degree_polyOf_lt (cs : List R) : (polyOf cs).degree < cs.length := by
  rw [degree_lt_iff_coeff_zero]
  intro k hk
  rw [coeff_polyOf, getD_eq_getElem?_getD, getElem?_eq_none hk, Option.getD_none]

theorem coeff_polyOf_take (cs : List R) (n k : ℕ) : (polyOf (cs.take n)).coeff k = if k < n then cs.getD k 0 else 0 := by
  rw [coeff_polyOf, getD_eq_getElem?_getD, getD_eq_getElem?_getD, getElem?_take]
  split
  · rfl
  · rfl

theorem polyOf_take {cs : List R} {n : ℕ} (h : (polyOf cs).degree < n) : polyOf (cs.take n) = polyOf cs := by
  ext k
  rw [coeff_polyOf_take]
  split
  · rw [coeff_polyOf]
  · next hk => rw [coeff_eq_zero_of_degree_lt (lt_of_lt_of_le h (Nat.cast_le.mpr (Nat.le_of_not_lt hk)))]

theorem getD_set {cs : List R} {j k : ℕ} (hj : j < cs.length) (a : R) : (cs.set j a).getD k 0 = if j = k then a else cs.getD k 0 := by
  rw [getD_eq_getElem?_getD, getD_eq_getElem?_getD, getElem?_set]
  split
  · rfl
  · rfl

theorem polyOf_set {cs : List R} {j : ℕ} (hj : j < cs.length) (a : R) :
    polyOf (cs.set j a) = polyOf cs + C (a - cs.getD j 0) * X ^ j := by
  ext k
  rw [coeff_polyOf, getD_set hj, coeff_add, coeff_polyOf, coeff_C_mul_X_pow]
  by_cases h : j = k
  · rw [if_pos h, if_pos h.symm, h]
    ring
  · rw [if_neg h, if_neg (Ne.symm h), add_zero]

theorem polyOf_take_succ (cs : List R) (n : ℕ) : polyOf (cs.take (n + 1)) = polyOf (cs.take n) + C (cs.getD n 0) * X ^ n := by
  ext k
  rw [coeff_add, coeff_polyOf_take, coeff_polyOf_take, coeff_C_mul_X_pow]
  by_cases h : k = n
  · rw [h, if_pos (Nat.lt_succ_self n), if_neg (Nat.lt_irrefl n), if_pos rfl, zero_add]
  · have hiff : k < n + 1 ↔ k < n := by omega
    rw [if_neg h, add_zero, if_congr hiff rfl rfl]

end VerifiableCompute.Lib
