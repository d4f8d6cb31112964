import Mathlib.Data.List.Basic

/-! Iterated rounds with a running index. Two runs end in the same state only if they started in
it or some round merged them. -/

namespace VerifiableCompute.Lib

open List

variable {σ : Type} {f : σ → ℕ → σ} {x y : σ}

def before (f : σ → ℕ → σ) (k : ℕ) (s : σ) : σ := (List.range k).foldl f s

theorem before_succ (f : σ → ℕ → σ) (k : ℕ) (s : σ) : before f (k + 1) s = f (before f k s) k := by
  rw [before, range_succ, foldl_append]
  rfl

theorem before_eq_iff (n : ℕ) : before f n x = before f n y ↔
      x = y ∨ ∃ k < n, before f k x ≠ before f k y ∧ f (before f k x) k = f (before f k y) k := by
  induction n with
  | zero =>
    constructor
    · exact Or.inl
    · rintro (h | ⟨k, hk, -⟩)
      · exact h
      · exact absurd hk (Nat.not_lt_zero k)
  | succ n ih =>
    rw [before_succ, before_succ]
    constructor
    · intro h
      by_cases hn : before f n x = before f n y
      · refine (ih.mp hn).imp_right ?_
        rintro ⟨k, hk, hmerge⟩
        exact ⟨k, Nat.lt_succ_of_lt hk, hmerge⟩
      · exact Or.inr ⟨n, Nat.lt_succ_self n, hn, h⟩
    · rintro (h | ⟨k, hk, hne, hmerge⟩)
      · rw [h]
      · obtain hlt | rfl := Nat.lt_succ_iff_lt_or_eq.mp hk
        · rw [ih.mpr (Or.inr ⟨k, hlt, hne, hmerge⟩)]
        · exact hmerge

theorem foldl_injective {l : List ℕ} (h : ∀ k ∈ l, Function.Injective (fun s => f s k)) :
    Function.Injective (fun s => l.foldl f s) := by
  induction l with
  | nil => exact Function.injective_id
  | cons k rest ih =>
    have hrest := ih (fun k' hk' => h k' (mem_cons_of_mem k hk'))
    exact hrest.comp (h k mem_cons_self)

/-- A loop over rounds, with the index it has reached. -/
def runRounds (f : σ → ℕ → σ) : ℕ → σ × ℕ → σ × ℕ
  | 0, s => s
  | n + 1, s => runRounds f n (f s.1 s.2, s.2 + 1)

theorem runRounds_eq (f : σ → ℕ → σ) (n : ℕ) (s : σ) (r : ℕ) :
    runRounds f n (s, r) = ((range' r n).foldl f s, r + n) := by
  induction n generalizing s r with
  | zero => rfl
  | succ n ih => rw [runRounds, ih, range'_succ, foldl_cons, Nat.add_assoc, Nat.add_comm 1]

variable (full part : σ → ℕ → σ) (half mid : ℕ) (s : σ)

/-- `half` full rounds, `mid` partial ones, and `half` full ones. -/
def schedule : σ :=
  (runRounds full half (runRounds part mid (runRounds full half (s, 0)))).1

theorem schedule_eq : schedule full part half mid s =
      (range' (half + mid) half).foldl full ((range' half mid).foldl part ((range half).foldl full s)) := by
  rw [schedule, runRounds_eq full half s, runRounds_eq part, runRounds_eq, Nat.zero_add, range_eq_range']

def roundAt (k : ℕ) : σ :=
  if k < half ∨ half + mid ≤ k then full s k else part s k

theorem schedule_eq_before :
    schedule full part half mid s = before (roundAt full part half mid) (half + mid + half) s := by
  have hfull (l : List ℕ) (hl : ∀ k ∈ l, k < half ∨ half + mid ≤ k) (s : σ) :
      l.foldl full s = l.foldl (roundAt full part half mid) s :=
    foldl_ext _ _ _ (fun s k hk => (if_pos (hl k hk)).symm)
  have hpart (s : σ) :
      (range' half mid).foldl part s = (range' half mid).foldl (roundAt full part half mid) s :=
    foldl_ext _ _ _ (fun s k hk => (if_neg (by rw [mem_range'_1] at hk; omega)).symm)
  have hrange : range half ++ range' half mid ++ range' (half + mid) half = range (half + mid + half) := by
    have hfirst := @List.range'_append_1 0 half mid
    have hlast := @List.range'_append_1 0 (half + mid) half
    rw [Nat.zero_add] at hfirst hlast
    rw [range_eq_range', hfirst, hlast, range_eq_range']
  rw [schedule_eq, hfull _ (fun k hk => Or.inl (mem_range.mp hk)), hpart,
    hfull _ (fun k hk => Or.inr (mem_range'_1.mp hk).1), ← foldl_append, ← foldl_append, ← append_assoc, hrange,
    before]

end VerifiableCompute.Lib
