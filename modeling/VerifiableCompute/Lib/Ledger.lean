import Mathlib

/-! Sums over all keys of a total map. A store whose keys are machine words has
finitely many keys, so the sum of any quantity over the whole store exists; a
point update moves the sum by the difference at that key. -/

namespace VerifiableCompute.Lib

open Finset

/-- Machine words of one width are finitely many. Nothing enumerates them. -/
noncomputable instance instFintypeBitVec (w : ℕ) : Fintype (BitVec w) :=
  Fintype.ofInjective BitVec.toFin (fun _ _ h => BitVec.eq_of_toFin_eq h)

variable {K V : Type*} [Fintype K]

/-- The sum of the quantity `q` over every key of the store `f`. -/
def total (q : V → ℕ) (f : K → V) : ℕ := ∑ k, q (f k)

theorem total_eq_zero (q : V → ℕ) (f : K → V) (h : ∀ k, q (f k) = 0) : total q f = 0 :=
  sum_eq_zero fun k _ => h k

theorem le_total (q : V → ℕ) (f : K → V) (k : K) : q (f k) ≤ total q f :=
  single_le_sum_of_canonicallyOrdered (f := fun k => q (f k)) (mem_univ k)

variable [DecidableEq K]

theorem total_update (q : V → ℕ) (f : K → V) (k : K) (v : V) :
    total q (Function.update f k v) + q (f k) = total q f + q v := by
  unfold total
  rw [← add_sum_erase _ _ (mem_univ k), ← add_sum_erase _ _ (mem_univ k),
    Function.update_self]
  have hrest : ∑ x ∈ univ.erase k, q (Function.update f k v x) =
      ∑ x ∈ univ.erase k, q (f x) := by
    refine sum_congr rfl fun x hx => ?_
    rw [Function.update_of_ne (ne_of_mem_erase hx)]
  omega

end VerifiableCompute.Lib
