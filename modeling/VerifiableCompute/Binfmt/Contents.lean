import VerifiableCompute.Binfmt.Writes

/-! The contents of an image as a flat memory of bytes, and that every mutator changes the
image as it changes the memory. -/

namespace VerifiableCompute.Binfmt

open Lib

/-- The memory with the bytes from `start` on overwritten. -/
def overwrite (start : ℕ) (data : List Byte) (mem : ℕ → Byte) (addr : ℕ) : Byte :=
  if start ≤ addr ∧ addr < start + data.length then data.getD (addr - start) 0 else mem addr

def pageOf (mem : ℕ → Byte) (p : ℕ) : Page := .ofFn fun i => mem (p * pageBytes + i)

theorem overwrite_append (start : ℕ) (xs ys : List Byte) (mem : ℕ → Byte) :
    overwrite start (xs ++ ys) mem = overwrite (start + xs.length) ys (overwrite start xs mem) := by
  funext addr
  unfold overwrite
  rw [List.length_append]
  by_cases hlow : addr < start + xs.length
  · rw [if_neg (by omega : ¬ (start + xs.length ≤ addr ∧ addr < start + xs.length + ys.length))]
    by_cases hstart : start ≤ addr
    · rw [if_pos ⟨hstart, by omega⟩, if_pos ⟨hstart, hlow⟩, List.getD_append _ _ _ _ (by omega)]
    · rw [if_neg (by omega), if_neg (by omega)]
  · rw [if_neg (by omega : ¬ (start ≤ addr ∧ addr < start + xs.length))]
    by_cases hhigh : addr < start + xs.length + ys.length
    · rw [if_pos (by omega), if_pos (by omega), List.getD_append_right _ _ _ _ (by omega)]
      congr 1
      omega
    · rw [if_neg (by omega), if_neg (by omega)]

theorem pageOf_overwrite (p offset : ℕ) (data : List Byte) (mem : ℕ → Byte) :
    pageOf (overwrite (p * pageBytes + offset) data mem) p = (pageOf mem p).write offset data := by
  apply Vector.ext
  intro i hi
  simp only [pageOf, Page.write, Vector.getElem_ofFn, overwrite]
  by_cases h : offset ≤ i ∧ i < offset + data.length
  · rw [if_pos (by omega), if_pos h, show p * pageBytes + i - (p * pageBytes + offset) = i - offset by omega]
  · rw [if_neg (by omega), if_neg h, Vector.get_ofFn]

theorem pageOf_overwrite_of_ne {p q offset : ℕ} {data : List Byte} (hfit : offset + data.length ≤ pageBytes)
    (hne : q ≠ p) (mem : ℕ → Byte) : pageOf (overwrite (p * pageBytes + offset) data mem) q = pageOf mem q := by
  apply Vector.ext
  intro i hi
  simp only [pageOf, Vector.getElem_ofFn, overwrite]
  apply if_neg
  rintro ⟨hlow, hhigh⟩
  -- both pages would hold the address
  have hp : (q * pageBytes + i) / pageBytes = p := by
    apply Nat.div_eq_of_lt_le
    · omega
    · rw [Nat.succ_mul]
      omega
  have hq : (q * pageBytes + i) / pageBytes = q := by
    apply Nat.div_eq_of_lt_le
    · omega
    · rw [Nat.succ_mul]
      omega
  exact hne (hq.symm.trans hp)

theorem write_toList (page page' : Page) : page'.write 0 page.toList = page := by
  apply Vector.ext
  intro i hi
  rw [Page.write, Vector.getElem_ofFn, if_pos ⟨Nat.zero_le i, by simpa using hi⟩]
  simp [List.getD_eq_getElem?_getD, hi]

variable {H : TreeHash}

def leaves (H : TreeHash) (mem : ℕ → Byte) (n : ℕ) : Digest := H.page (pageOf mem (n - memoryPages))

namespace MemoryImage

variable {m m' : MemoryImage} {mem mem' : ℕ → Byte} {p : ℕ} {page : Page}

structure Holds (H : TreeHash) (m : MemoryImage) (mem : ℕ → Byte) : Prop where
  wellFormed : m.WellFormed
  tracks : m.Tracks H (leaves H mem)
  complete : m.Complete H
  contents : ∀ {q}, q < memoryPages → m.contents q = pageOf mem q

namespace Holds

variable (h : m.Holds H mem)

include h

theorem refresh (hrefresh : Refreshes H (leaves H mem) m m') : m'.Holds H mem where
  wellFormed := hrefresh.wellFormed
  tracks := hrefresh.tracks
  complete p hp := hrefresh.available p hp (h.complete p hp)
  contents hq := by
    rw [MemoryImage.contents, hrefresh.pages]
    exact h.contents hq

theorem touch (ht : Touches p page m m') (hpage : pageOf mem' p = page)
    (hother : ∀ q, q ≠ p → pageOf mem' q = pageOf mem q) : m'.Holds H mem' where
  wellFormed := ht.wellFormed h.wellFormed
  tracks := by
    apply (ht.tracks h.wellFormed (h.complete p ht.lt) h.tracks).congr (ht.wellFormed h.wellFormed)
    intro x hx
    obtain ⟨q, rfl⟩ := Nat.exists_eq_add_of_le hx.1
    rw [leaves, Nat.add_sub_cancel_left]
    by_cases hqp : q = p
    · rw [hqp, Function.update_self, hpage]
    · rw [Function.update_of_ne (by omega), leaves, Nat.add_sub_cancel_left, hother q hqp]
  complete q hq := ht.available (h.complete q hq)
  contents {q} hq := by
    rw [MemoryImage.contents, ht.pages]
    by_cases hqp : q = p
    · rw [if_pos hqp, hqp, hpage]
      rfl
    · rw [if_neg hqp, hother q hqp]
      exact h.contents hq

theorem setPage (hp : p < memoryPages) (page : Page) :
    (m.setPage p page).Holds H (overwrite (p * pageBytes) page.toList mem) := by
  rw [← Nat.add_zero (p * pageBytes)]
  apply h.touch (setPage_spec h.wellFormed hp)
  · rw [pageOf_overwrite, write_toList]
  · intro q hq
    refine pageOf_overwrite_of_ne ?_ hq mem
    rw [Vector.length_toList, Nat.zero_add]

theorem write (hp : p < memoryPages) {offset : ℕ} {data : List Byte} (hfit : offset + data.length ≤ pageBytes) :
    ∃ m', m.getPageMut H p = .ok (m.contents p, m') ∧
      { m' with pages := m'.pages.insert p ((m.contents p).write offset data) : MemoryImage }.Holds H
        (overwrite (p * pageBytes + offset) data mem) := by
  obtain ⟨m', heq, ht⟩ := getPageMut_spec h.wellFormed hp (h.complete p hp)
  refine ⟨m', heq, h.touch (ht _) ?_ fun q hq => pageOf_overwrite_of_ne hfit hq mem⟩
  rw [pageOf_overwrite, h.contents hp]

theorem setWord {addr : ℕ} (haddr : addr < memoryPages * pageWords) (word : BitVec 32) :
    ∃ m', m.setWord H addr word = .ok m' ∧
      m'.Holds H (overwrite (addr * wordSize) (leBytes wordSize word.toNat) mem) := by
  have hp : addr / pageWords < memoryPages := Nat.div_lt_of_lt_mul (by rwa [Nat.mul_comm] at haddr)
  have hfit : addr % pageWords * wordSize + (leBytes wordSize word.toNat).length ≤ pageBytes := by
    rw [leBytes_length]
    unfold pageWords wordSize pageBytes at *
    omega
  have haddr' : addr / pageWords * pageBytes + addr % pageWords * wordSize = addr * wordSize := by
    unfold pageWords wordSize pageBytes
    omega
  obtain ⟨m', heq, hholds⟩ := h.write hp hfit
  rw [haddr'] at hholds
  refine ⟨_, ?_, hholds⟩
  rw [MemoryImage.setWord, heq]
  rfl

theorem setRegion_round (overflowChecks : Bool) {pos : ℕ} {data : List Byte} (hpos : pos < 2 ^ 32)
    (hdata : data ≠ []) : ∃ (k : ℕ) (m' : MemoryImage), 0 < k ∧ k ≤ data.length ∧ m'.Holds H (overwrite pos (data.take k) mem) ∧
      m.setRegion H overflowChecks pos data =
        addAssign overflowChecks pos k >>= fun next => m'.setRegion H overflowChecks next (data.drop k) := by
  have hlen := List.length_pos_of_ne_nil hdata
  have hsub : pos % pageBytes < pageBytes := Nat.mod_lt _ (by decide)
  have hp : pos / pageBytes < memoryPages := Nat.div_lt_of_lt_mul hpos
  have hpos' : pos / pageBytes * pageBytes + pos % pageBytes = pos := Nat.div_add_mod' pos pageBytes
  obtain ⟨k, hk⟩ : ∃ k, k = min (pageBytes - pos % pageBytes) data.length := ⟨_, rfl⟩
  have hfit : pos % pageBytes + (data.take k).length ≤ pageBytes := by
    rw [List.length_take]
    omega
  obtain ⟨m', heq, hholds⟩ := h.write hp hfit
  rw [hpos'] at hholds
  refine ⟨k, _, by omega, by omega, hholds, ?_⟩
  rw [MemoryImage.setRegion, dif_neg hdata, heq, hk]
  rfl

/-- A region may reach the end of the address space; where sums are checked, stepping over
the end is caught. -/
theorem setRegion (overflowChecks : Bool) {pos : ℕ} {data : List Byte} (hpos : pos < 2 ^ 32)
    (hrange : pos + data.length ≤ 2 ^ 32) :
    if overflowChecks ∧ pos + data.length = 2 ^ 32 then m.setRegion H overflowChecks pos data = .error .panic
    else ∃ m', m.setRegion H overflowChecks pos data = .ok m' ∧ m'.Holds H (overwrite pos data mem) := by
  induction hlength : data.length using Nat.strong_induction_on generalizing pos data m mem with
  | _ length ih =>
    subst hlength
    have hnil (m : MemoryImage) (pos : ℕ) : m.setRegion H overflowChecks pos [] = .ok m := by
      rw [MemoryImage.setRegion, dif_pos rfl]
    by_cases hdata : data = []
    · have hend : ¬ (overflowChecks ∧ pos + data.length = 2 ^ 32) := by
        rw [hdata, List.length_nil]
        omega
      have hsame : overwrite pos [] mem = mem := by
        funext addr
        exact if_neg (by rw [List.length_nil]; omega)
      rw [if_neg hend, hdata, hsame]
      exact ⟨m, hnil m pos, h⟩
    · obtain ⟨k, m', hk, hle, hholds, hround⟩ := h.setRegion_round overflowChecks hpos hdata
      have htake : (data.take k).length = k := List.length_take_of_le hle
      have hsplit : overwrite pos data mem = overwrite (pos + k) (data.drop k) (overwrite pos (data.take k) mem) := by
        conv_lhs => rw [← List.take_append_drop k data]
        rw [overwrite_append, htake]
      rw [hround, addAssign]
      by_cases hlast : k = data.length
      · have hdrop : data.drop k = [] := List.drop_eq_nil_of_le hlast.ge
        have hcheck : (overflowChecks ∧ 2 ^ 32 ≤ pos + k) ↔ (overflowChecks ∧ pos + data.length = 2 ^ 32) := by
          have : 2 ^ 32 ≤ pos + k ↔ pos + data.length = 2 ^ 32 := by omega
          rw [this]
        simp only [hcheck]
        by_cases hend : overflowChecks ∧ pos + data.length = 2 ^ 32
        · rw [if_pos hend, if_pos hend]
          rfl
        · rw [if_neg hend, if_neg hend, hdrop]
          refine ⟨m', hnil m' _, ?_⟩
          rwa [hlast, List.take_length] at hholds
      · have hcheck : ¬ (overflowChecks ∧ 2 ^ 32 ≤ pos + k) := by omega
        have hmod : (pos + k) % 2 ^ 32 = pos + k := Nat.mod_eq_of_lt (by omega)
        have hrest : pos + k + (data.drop k).length = pos + data.length := by
          rw [List.length_drop]
          omega
        have hshorter : (data.drop k).length < data.length := by omega
        have hih := ih _ hshorter hholds (show pos + k < 2 ^ 32 by omega) (hrest.trans_le hrange) rfl
        rw [hrest, ← hsplit] at hih
        rw [if_neg hcheck, hmod]
        exact hih

end Holds

end MemoryImage

end VerifiableCompute.Binfmt
