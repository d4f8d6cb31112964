import Mathlib

/-! Ranges that walk down an interval. Each reaches a fixed number of elements below its upper end, and the next one
starts right below it. The walk stops at the lower bound of the interval: where a range would start exactly there,
the bound itself is left out. -/

namespace VerifiableCompute.Lib

open List

/-- At most `n` ranges, from `upper` down to `lower`. -/
def windows (reach lower : ℕ) : ℕ → ℕ → List (ℕ × ℕ)
  | 0, _ => []
  | n + 1, upper => if upper ≤ lower then [] else (upper - reach, upper) :: windows reach lower n (upper - reach - 1)

/-- How many of the ranges an element lies in. -/
def rangesHolding (b : ℕ) (ranges : List (ℕ × ℕ)) : ℕ := ranges.countP fun r => r.1 ≤ b ∧ b ≤ r.2

variable {reach lower n upper b : ℕ}

theorem rangesHolding_windows_of_lt (h : upper < b) : rangesHolding b (windows reach lower n upper) = 0 := by
  induction n generalizing upper with
  | zero => rfl
  | succ n ih =>
    rw [windows]
    split_ifs
    · rfl
    · rw [rangesHolding, countP_cons_of_neg (by simp; omega)]
      apply ih
      omega

/-- Every element of the interval lies in one range, but for a lower bound that a range would start at. -/
theorem rangesHolding_windows (hlower : lower ≤ b) (hupper : b ≤ upper) (hn : (upper - lower) / (reach + 1) < n) :
    rangesHolding b (windows reach lower n upper) = if b = lower ∧ reach + 1 ∣ upper - lower then 0 else 1 := by
  induction n generalizing upper with
  | zero => exact absurd hn (Nat.not_lt_zero _)
  | succ n ih =>
    rw [windows]
    by_cases hdone : upper ≤ lower
    · obtain rfl : b = lower := by omega
      obtain rfl : upper = b := by omega
      rw [if_pos hdone, if_pos ⟨rfl, by simp⟩]
      rfl
    rw [if_neg hdone]
    by_cases hin : upper - reach ≤ b
    · have hrest : rangesHolding b (windows reach lower n (upper - reach - 1)) = 0 := by
        by_cases hzero : upper - reach = 0
        · rw [hzero]
          cases n with
          | zero => rfl
          | succ n => simp [windows, rangesHolding]
        · apply rangesHolding_windows_of_lt
          omega
      have hnot : ¬(b = lower ∧ reach + 1 ∣ upper - lower) := by
        rintro ⟨rfl, hdvd⟩
        have := Nat.le_of_dvd (by omega) hdvd
        omega
      rw [if_neg hnot, rangesHolding, countP_cons_of_pos (by simp; omega)]
      exact congrArg Nat.succ hrest
    · have hsub : upper - lower = (upper - reach - 1 - lower) + (reach + 1) := by omega
      have hlt : (upper - reach - 1 - lower) / (reach + 1) < n := by
        rw [hsub, Nat.add_div_right _ (Nat.succ_pos reach)] at hn
        exact Nat.lt_of_succ_lt_succ hn
      rw [rangesHolding, countP_cons_of_neg (by simp; omega)]
      have hdvd : reach + 1 ∣ upper - reach - 1 - lower ↔ reach + 1 ∣ upper - lower := by
        rw [hsub, Nat.dvd_add_left (dvd_refl (reach + 1))]
      refine (ih (by omega) hlt).trans ?_
      simp only [hdvd]

/-- A walk covers its interval exactly if no range would start at the lower bound. -/
theorem windows_cover_iff (h : lower ≤ upper) (hn : (upper - lower) / (reach + 1) < n) :
    (∀ b, lower ≤ b → b ≤ upper → rangesHolding b (windows reach lower n upper) = 1) ↔ ¬reach + 1 ∣ upper - lower := by
  constructor
  · intro hall hdvd
    have hone := hall lower le_rfl h
    rw [rangesHolding_windows le_rfl h hn, if_pos ⟨rfl, hdvd⟩] at hone
    exact Nat.zero_ne_one hone
  · intro hdvd b hlower hupper
    rw [rangesHolding_windows hlower hupper hn]
    exact if_neg fun hboth => hdvd hboth.2

/-- What is filtered out of a list by each of several tests is the list again, where every element passes one of them. -/
theorem perm_flatMap_filter {α ρ : Type} (rs : List ρ) (inside : ρ → α → Bool) (l : List α)
    (h : ∀ a ∈ l, rs.countP (inside · a) = 1) : (rs.flatMap fun r => l.filter (inside r)).Perm l := by
  classical
  apply perm_iff_count.mpr
  intro a
  have hcount (r : ρ) : (l.filter (inside r)).count a = if inside r a then l.count a else 0 := by
    split_ifs with hr
    · exact count_filter hr
    · exact count_eq_zero.mpr fun hmem => hr (of_mem_filter hmem)
  have hsum : ((rs.map fun r => if inside r a then l.count a else 0)).sum = rs.countP (inside · a) * l.count a := by
    clear h hcount
    induction rs with
    | nil => simp
    | cons r rs ih =>
      rw [map_cons, sum_cons, ih, countP_cons]
      split_ifs <;> ring
  have hflat : (rs.flatMap fun r => l.filter (inside r)).count a = rs.countP (inside · a) * l.count a := by
    rw [count_flatMap, ← hsum]
    exact congrArg sum (map_congr_left fun r _ => hcount r)
  rw [hflat]
  by_cases ha : a ∈ l
  · rw [h a ha, Nat.one_mul]
  · rw [count_eq_zero.mpr ha, Nat.mul_zero]

end VerifiableCompute.Lib
