import Mathlib

/-! Ring buffers that are read by distance from the last value. A buffer that has been
given the first values of a sequence holds as many of the last of them as it has
places for. -/

namespace VerifiableCompute.Lib

structure RingBuffer (α : Type) (N : ℕ) where
  buf : Fin N → α
  cur : Fin N

namespace RingBuffer

variable {α : Type} {N : ℕ} [NeZero N]

def new (a : α) : RingBuffer α N := ⟨fun _ => a, 0⟩

def push (value : α) (r : RingBuffer α N) : RingBuffer α N :=
  ⟨Function.update r.buf r.cur value, Fin.ofNat N (r.cur + 1)⟩

def back (i : ℕ) (r : RingBuffer α N) : α := r.buf (Fin.ofNat N (N + r.cur - i))

/-- After the first `n` values of a sequence, the last of them are at their distances. -/
def Holds (f : ℕ → α) (n : ℕ) (r : RingBuffer α N) : Prop := ∀ i, 1 ≤ i → i ≤ N → i ≤ n → r.back i = f (n - i)

variable {r : RingBuffer α N} {f g : ℕ → α} {n m : ℕ}

theorem cur_push (value : α) (r : RingBuffer α N) :
    ((r.push value).cur : ℕ) = if (r.cur : ℕ) + 1 = N then 0 else (r.cur : ℕ) + 1 := by
  show ((r.cur : ℕ) + 1) % N = _
  have := r.cur.isLt
  split_ifs with hlast
  · rw [hlast, Nat.mod_self]
  · exact Nat.mod_eq_of_lt (by omega)

omit [NeZero N] in
theorem index_eq {c i : ℕ} (hc : c < N) (hi : 1 ≤ i) (hN : i ≤ N) :
    (N + c - i) % N = if i ≤ c then c - i else N + c - i := by
  split_ifs with hle
  · have heq : N + c - i = (c - i) + N := by omega
    rw [heq, Nat.add_mod_right, Nat.mod_eq_of_lt (by omega)]
  · exact Nat.mod_eq_of_lt (by omega)

theorem back_one (value : α) (r : RingBuffer α N) : (r.push value).back 1 = value := by
  have hlt := r.cur.isLt
  have hindex : Fin.ofNat N (N + (r.push value).cur - 1) = r.cur := by
    apply Fin.ext
    show (N + _ - 1) % N = _
    rw [index_eq (r.push value).cur.isLt le_rfl (by omega), cur_push]
    split_ifs <;> omega
  show Function.update r.buf r.cur value _ = value
  rw [hindex, Function.update_self]

theorem back_succ (value : α) (r : RingBuffer α N) {i : ℕ} (hi : 1 ≤ i) (hN : i < N) :
    (r.push value).back (i + 1) = r.back i := by
  have hlt := r.cur.isLt
  have hindex : Fin.ofNat N (N + (r.push value).cur - (i + 1)) = Fin.ofNat N (N + r.cur - i) := by
    apply Fin.ext
    show (N + _ - (i + 1)) % N = (N + _ - i) % N
    rw [index_eq (r.push value).cur.isLt (by omega) hN, index_eq hlt hi hN.le, cur_push]
    split_ifs <;> omega
  have hne : Fin.ofNat N (N + r.cur - i) ≠ r.cur := by
    intro heq
    have hval : (N + (r.cur : ℕ) - i) % N = r.cur := congrArg Fin.val heq
    rw [index_eq hlt hi hN.le] at hval
    split_ifs at hval <;> omega
  show Function.update r.buf r.cur value _ = _
  rw [hindex, Function.update_of_ne hne]
  rfl

theorem holds_zero (f : ℕ → α) (r : RingBuffer α N) : Holds f 0 r := fun _ hi _ hn => absurd hn (by omega)

theorem Holds.push (h : Holds f n r) : Holds f (n + 1) (r.push (f n)) := by
  intro i hi hN hn
  obtain rfl | hlt := hi.eq_or_lt
  · rw [back_one, Nat.add_sub_cancel]
  · obtain ⟨j, rfl⟩ := Nat.exists_eq_add_of_le' hi
    rw [back_succ _ r (by omega) hN, h j (by omega) (by omega) (by omega)]
    congr 1
    omega

/-- The values that were pushed earlier may be those of another sequence. -/
theorem Holds.congr (h : Holds f n r) (hfg : ∀ i, 1 ≤ i → i ≤ m → f (n - i) = g (m - i)) (hm : m ≤ n) : Holds g m r :=
  fun i hi hN hn => (h i hi hN (hn.trans hm)).trans (hfg i hi hn)

end RingBuffer

end VerifiableCompute.Lib
