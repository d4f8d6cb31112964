import VerifiableCompute.Lib.CompleteTree

/-! Mountains: a number of leaves as complete trees, one for each bit of the number. A new leaf
is a tree of height zero that is merged like the carry of a binary counter. -/

namespace VerifiableCompute.Lib

open List

variable {D E : Type} (join : D → D → D)

/-- The heights and roots of the trees over `n` blocks of `2 ^ h` leaves, from the smallest. -/
def mountain (leaf : ℕ → D) (h n : ℕ) : List (ℕ × D) :=
  if n = 0 then []
  else (if n % 2 = 1 then [(h, subtree join leaf h (n - 1))] else []) ++ mountain leaf (h + 1) (n / 2)
termination_by n
decreasing_by omega

/-- The trees from the largest, folded into one. -/
def mountainRoot (leaf : ℕ → D) (n : ℕ) : Option D :=
  match ((mountain join leaf 0 n).map Prod.snd).reverse with
  | [] => none
  | peak :: peaks => some (peaks.foldl join peak)

variable {join} {leaf : ℕ → D}

theorem mountain_zero (h : ℕ) : mountain join leaf h 0 = [] := by
  rw [mountain, if_pos rfl]

theorem mountain_even (h n : ℕ) : mountain join leaf h (2 * n) = mountain join leaf (h + 1) n := by
  cases n with
  | zero => rw [Nat.mul_zero, mountain_zero, mountain_zero]
  | succ n =>
    have hhalf : 2 * (n + 1) / 2 = n + 1 := by omega
    rw [mountain, if_neg (by omega), if_neg (by omega), nil_append, hhalf]

theorem mountain_odd (h n : ℕ) :
    mountain join leaf h (2 * n + 1) = (h, subtree join leaf h (2 * n)) :: mountain join leaf (h + 1) n := by
  have hhalf : (2 * n + 1) / 2 = n := by omega
  rw [mountain, if_neg (by omega), if_pos (by omega), hhalf]
  rfl

theorem mountain_induction {P : ℕ → ℕ → Prop} (zero : ∀ h, P h 0) (even : ∀ h n, 0 < n → P (h + 1) n → P h (2 * n))
    (odd : ∀ h n, P (h + 1) n → P h (2 * n + 1)) (h n : ℕ) : P h n := by
  induction n using Nat.strong_induction_on generalizing h with
  | _ n ih =>
    obtain rfl | hpos := Nat.eq_zero_or_pos n
    · exact zero h
    · obtain heven | hodd := Nat.mod_two_eq_zero_or_one n
      · have hsplit : n = 2 * (n / 2) := by omega
        rw [hsplit]
        exact even h (n / 2) (by omega) (ih (n / 2) (by omega) (h + 1))
      · have hsplit : n = 2 * (n / 2) + 1 := by omega
        rw [hsplit]
        exact odd h (n / 2) (ih (n / 2) (by omega) (h + 1))

/-- A tree is the last one of its height, and it has no sibling. -/
theorem mem_mountain_iff {h n k : ℕ} {d : D} : (k, d) ∈ mountain join leaf h n ↔
    h ≤ k ∧ n / 2 ^ (k - h) % 2 = 1 ∧ d = subtree join leaf k (n / 2 ^ (k - h) - 1) := by
  have hshift (h k n : ℕ) (hle : h + 1 ≤ k) : n / 2 / 2 ^ (k - (h + 1)) = n / 2 ^ (k - h) := by
    rw [Nat.div_div_eq_div_mul, ← pow_succ', show k - (h + 1) + 1 = k - h by omega]
  induction h, n using mountain_induction with
  | zero h => simp [mountain_zero]
  | even h n hpos ih =>
    rw [mountain_even]
    refine Iff.trans ih ?_
    constructor
    · rintro ⟨hle, hodd, hd⟩
      rw [← hshift h k (2 * n) hle, Nat.mul_div_cancel_left n two_pos]
      exact ⟨by omega, hodd, hd⟩
    · rintro ⟨hle, hodd, hd⟩
      obtain rfl | hlt := Nat.eq_or_lt_of_le hle
      · rw [Nat.sub_self, pow_zero, Nat.div_one] at hodd
        omega
      · rw [← hshift h k (2 * n) hlt, Nat.mul_div_cancel_left n two_pos] at hodd hd
        exact ⟨hlt, hodd, hd⟩
  | odd h n ih =>
    have hhalf : (2 * n + 1) / 2 = n := by omega
    rw [mountain_odd, mem_cons, Prod.mk.injEq]
    refine (or_congr_right ih).trans ?_
    constructor
    · rintro (⟨rfl, rfl⟩ | ⟨hle, hodd, hd⟩)
      · simp
      · rw [← hshift h k (2 * n + 1) hle, hhalf]
        exact ⟨by omega, hodd, hd⟩
    · rintro ⟨hle, hodd, hd⟩
      obtain rfl | hlt := Nat.eq_or_lt_of_le hle
      · rw [Nat.sub_self, pow_zero, Nat.div_one, Nat.add_sub_cancel] at hd
        exact .inl ⟨rfl, hd⟩
      · rw [← hshift h k (2 * n + 1) hlt, hhalf] at hodd hd
        exact .inr ⟨hlt, hodd, hd⟩

theorem mountain_sorted (h n : ℕ) : (mountain join leaf h n).Pairwise fun a b => a.1 < b.1 := by
  induction h, n using mountain_induction with
  | zero h =>
    rw [mountain_zero]
    exact .nil
  | even h n _ ih => rwa [mountain_even]
  | odd h n ih =>
    rw [mountain_odd]
    exact .cons (fun p hp => (mem_mountain_iff.mp hp).1) ih

variable (join) in
/-- A new tree is merged with those of its height, each of them on the left. -/
def carry : ℕ → D → List (ℕ × D) → List (ℕ × D)
  | h, d, [] => [(h, d)]
  | h, d, peak :: peaks => if h = peak.1 then carry (h + 1) (join peak.2 d) peaks else (h, d) :: peak :: peaks

theorem carry_of_lt {h : ℕ} {d : D} {peaks : List (ℕ × D)} (hlt : ∀ p ∈ peaks, h < p.1) : carry join h d peaks = (h, d) :: peaks := by
  cases peaks with
  | nil => rfl
  | cons peak peaks =>
    have hne := (hlt peak mem_cons_self).ne
    rw [carry, if_neg hne]

theorem carry_mountain (h n : ℕ) : carry join h (subtree join leaf h n) (mountain join leaf h n) = mountain join leaf h (n + 1) := by
  induction h, n using mountain_induction with
  | zero h =>
    have hone := @mountain_odd D join leaf h 0
    rw [mountain_zero] at hone
    rw [mountain_zero, carry]
    exact hone.symm
  | even h n _ _ =>
    rw [mountain_even, mountain_odd, carry_of_lt fun p hp => (mem_mountain_iff.mp hp).1]
  | odd h n ih =>
    rw [mountain_odd, carry, if_pos rfl]
    have hnext : 2 * n + 1 + 1 = 2 * (n + 1) := by omega
    rw [hnext, mountain_even, ← ih, subtree]

theorem mountain_ne_nil {n : ℕ} (hn : 0 < n) : mountain join leaf 0 n ≠ [] := by
  cases n with
  | zero => omega
  | succ n =>
    rw [← carry_mountain]
    intro hnil
    have hcarry (peaks : List (ℕ × D)) (h : ℕ) (d : D) : carry join h d peaks ≠ [] := by
      induction peaks generalizing h d with
      | nil => exact cons_ne_nil _ _
      | cons peak peaks ih =>
        rw [carry]
        split
        · exact ih _ _
        · exact cons_ne_nil _ _
    exact hcarry _ _ _ hnil

variable {join' : E → E → E} {f : D → E}

section

variable (hf : ∀ a b, f (join a b) = join' (f a) (f b))

include hf

theorem subtree_map (h n : ℕ) : f (subtree join leaf h n) = subtree join' (f ∘ leaf) h n := by
  induction h generalizing n with
  | zero => rfl
  | succ h ih => rw [subtree, hf, ih, ih, subtree]

theorem mountain_map (h n : ℕ) :
    (mountain join leaf h n).map (fun p => (p.1, f p.2)) = mountain join' (f ∘ leaf) h n := by
  induction h, n using mountain_induction with
  | zero h => rw [mountain_zero, mountain_zero, map_nil]
  | even h n _ ih => rw [mountain_even, mountain_even, ih]
  | odd h n ih => rw [mountain_odd, mountain_odd, map_cons, ih, subtree_map hf]

theorem foldl_map_of (peaks : List D) (peak : D) : f (peaks.foldl join peak) = (peaks.map f).foldl join' (f peak) := by
  induction peaks generalizing peak with
  | nil => rfl
  | cons next peaks ih => rw [foldl_cons, ih, hf, map_cons, foldl_cons]

theorem mountainRoot_map (n : ℕ) : (mountainRoot join leaf n).map f = mountainRoot join' (f ∘ leaf) n := by
  rw [mountainRoot, mountainRoot, ← mountain_map hf, map_map]
  have hpeaks : (mountain join leaf 0 n).map (Prod.snd ∘ fun p => (p.1, f p.2)) = ((mountain join leaf 0 n).map Prod.snd).map f := by
    rw [map_map]
    rfl
  have hreverse (peaks : List D) : (peaks.map f).reverse = peaks.reverse.map f := map_reverse.symm
  rw [hpeaks, hreverse]
  cases ((mountain join leaf 0 n).map Prod.snd).reverse with
  | nil => rfl
  | cons peak peaks => exact congrArg some (foldl_map_of hf peaks peak)

end

theorem subtree_append (h n : ℕ) : subtree (· ++ ·) (fun i => [i]) h n = range' (n * 2 ^ h) (2 ^ h) := by
  induction h generalizing n with
  | zero => simp [subtree]
  | succ h ih =>
    have hstart : 2 * n * 2 ^ h = n * 2 ^ (h + 1) := by rw [pow_succ']; ring
    have hnext : (2 * n + 1) * 2 ^ h = n * 2 ^ (h + 1) + 2 ^ h := by rw [pow_succ']; ring
    rw [subtree, ih, ih, hstart, hnext, range'_append_1, ← two_mul, ← pow_succ']

theorem mountain_append (h n : ℕ) :
    ((mountain (· ++ ·) (fun i => [i]) h n).map Prod.snd).reverse.flatten = range (n * 2 ^ h) := by
  induction h, n using mountain_induction with
  | zero h => simp [mountain_zero]
  | even h n _ ih =>
    rw [mountain_even, ih, pow_succ']
    congr 1
    ring
  | odd h n ih =>
    rw [mountain_odd, map_cons, reverse_cons, flatten_concat, ih, subtree_append, range_eq_range', range_eq_range']
    have hfirst : n * 2 ^ (h + 1) = 2 * n * 2 ^ h := by rw [pow_succ']; ring
    rw [hfirst]
    have hjoin := @List.range'_append_1 0 (2 * n * 2 ^ h) (2 ^ h)
    rw [Nat.zero_add] at hjoin
    rw [hjoin]
    congr 1
    ring

theorem mountainRoot_append {n : ℕ} (hn : 0 < n) : mountainRoot (· ++ ·) (fun i => [i]) n = some (range n) := by
  have hall := mountain_append 0 n
  rw [pow_zero, Nat.mul_one] at hall
  rw [mountainRoot]
  cases hpeaks : ((mountain (· ++ ·) (fun i => [i]) 0 n).map Prod.snd).reverse with
  | nil =>
    rw [reverse_eq_nil_iff, map_eq_nil_iff] at hpeaks
    exact absurd hpeaks (mountain_ne_nil hn)
  | cons peak peaks =>
    rw [hpeaks] at hall
    have hfold (l : List (List ℕ)) (start : List ℕ) : l.foldl (· ++ ·) start = start ++ l.flatten := by
      induction l generalizing start with
      | nil => simp
      | cons x l ih => rw [foldl_cons, ih, append_assoc, flatten_cons]
    show some (peaks.foldl (· ++ ·) peak) = _
    rw [hfold, ← flatten_cons, hall]

end VerifiableCompute.Lib
