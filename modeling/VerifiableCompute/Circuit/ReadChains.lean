import VerifiableCompute.Lib.Chains
import VerifiableCompute.Circuit.HostRead

/-! A chain of read steps in memory. Memory is seen over time: an access finds what memory holds and changes its word. The steps
of a chain take one cycle each, and where they are alone in these cycles their bytes go to consecutive addresses. -/

namespace VerifiableCompute.Circuit

open Lib Rv32im List Function

/-- What the memory argument comes to: an access finds what memory holds, and memory changes by accesses only. -/
structure Consistent (mem : ℕ → ℕ → ValU32) (accesses : List Access) : Prop where
  current : ∀ x ∈ accesses, mem x.time x.addr = x.prev
  stored : ∀ x ∈ accesses, mem (x.time + 1) x.addr = x.data
  kept : ∀ time addr, (∀ x ∈ accesses, x.time = time → x.addr ≠ addr) → mem (time + 1) addr = mem time addr

variable {mem : ℕ → ℕ → ValU32} {accesses : List Access}

namespace Consistent

theorem update (h : Consistent mem accesses) {x : Access} (hx : x ∈ accesses) (honly : ∀ y ∈ accesses, y.time = x.time → y = x) :
    mem (x.time + 1) = Function.update (mem x.time) x.addr x.data := by
  funext addr
  by_cases haddr : addr = x.addr
  · rw [haddr, update_self]
    exact h.stored x hx
  · rw [update_of_ne haddr]
    apply h.kept
    intro y hy htime heq
    rw [honly y hy htime] at heq
    exact haddr heq.symm

theorem unchanged (h : Consistent mem accesses) {time : ℕ} (honly : ∀ y ∈ accesses, y.time = time → y.data = y.prev) :
    mem (time + 1) = mem time := by
  funext addr
  by_cases hat : ∃ x ∈ accesses, x.time = time ∧ x.addr = addr
  · obtain ⟨x, hx, rfl, rfl⟩ := hat
    rw [h.stored x hx, h.current x hx, honly x hx rfl]
  · apply h.kept
    intro x hx htime haddr
    exact hat ⟨x, hx, htime, haddr⟩

end Consistent

namespace ReadStep

variable {token final : ReadStateArgument} {chain : List ReadStep}
variable {c pos size : ℕ} {x : ReadStep}

theorem linked_cycles (h : Linked pulledRead pushedRead token chain final) (hc : token.cycle = (c : ℕ)) :
    chain.map cycle = (range chain.length).map (fun k => ((c + k : ℕ) : Fp)) ∧ final.cycle = (c + chain.length : ℕ) := by
  induction chain generalizing token c with
  | nil =>
    have heq : token = final := h
    rw [← heq]
    exact ⟨rfl, hc⟩
  | cons x chain ih =>
    obtain ⟨hx, h⟩ := h
    have hcycle : x.cycle = (c : ℕ) := by rw [← pulledRead_cycle, hx, hc]
    obtain ⟨hcycles, hfinal⟩ := ih (c := c + 1) h (by rw [pushedRead_cycle, hcycle, Nat.cast_add, Nat.cast_one])
    rw [map_cons, length_cons, range_succ_eq_map, map_cons, map_map, hcycles, hcycle, hfinal]
    refine ⟨?_, by rw [Nat.add_right_comm, Nat.add_assoc]⟩
    congr 1
    apply map_congr_left
    intro k _
    simp only [comp_apply, Nat.succ_eq_add_one]
    congr 1
    omega

theorem linked_size (h : Linked pulledRead pushedRead token chain final) (hchain : ∀ x ∈ chain, x.Satisfied) (hfinal : final.size = 0) :
    token.size.val < 2 ^ 17 ∧ chain.length ≤ token.size.val := by
  induction chain generalizing token with
  | nil =>
    have heq : token = final := h
    rw [heq, hfinal, ZMod.val_zero]
    exact ⟨by norm_num, le_rfl⟩
  | cons x chain ih =>
    rw [forall_mem_cons] at hchain
    obtain ⟨rfl, h⟩ := h
    have hrest := (ih h hchain.2).2
    have hlt := size_lt hchain.1
    rw [length_cons]
    omega

theorem mem_cycle (hcycles : chain.map cycle = (range chain.length).map fun k => ((c + k : ℕ) : Fp))
    (hbound : c + chain.length < 2013265921) (hx : x ∈ chain) : c ≤ x.cycle.val ∧ x.cycle.val < c + chain.length := by
  have hmem : x.cycle ∈ (range chain.length).map fun k => ((c + k : ℕ) : Fp) := by
    rw [← hcycles]
    exact mem_map_of_mem hx
  obtain ⟨k, hk, heq⟩ := mem_map.mp hmem
  rw [mem_range] at hk
  rw [← heq, ZMod.val_natCast_of_lt (by omega)]
  omega

variable (hmem : Consistent mem accesses) (hwords : ∀ time addr, (mem time addr).IsWord)

include hmem hwords

theorem step_memory (hdoes : x.Does pos size) (hrange : x.InRange) (hc : x.cycle.val = c) (hx : x.access ∈ accesses)
    (halone : ∀ a ∈ accesses, 2 * c ≤ a.time → a.time < 2 * (c + 1) → a = x.access) (addr : ℕ) :
    memByte (mem (2 * (c + 1))) addr =
      if pos ≤ addr ∧ addr < pos + x.bytes.length then x.bytes.getD (addr - pos) 0 else memByte (mem (2 * c)) addr := by
  have htime : x.access.time = 2 * c + 1 := by rw [← hc]; rfl
  have hfirst : mem (2 * c + 1) = mem (2 * c) := by
    apply hmem.unchanged
    intro a ha hat
    have heq := halone a ha (by omega) (by omega)
    rw [heq, htime] at hat
    omega
  have hsecond : mem (2 * c + 1 + 1) = Function.update (mem (2 * c)) (pos / 4) x.io.data.get := by
    have hupdate := hmem.update hx fun a ha hat => halone a ha (by omega) (by omega)
    rw [htime, hdoes.addr, hfirst] at hupdate
    exact hupdate
  have hprev : x.io.prevData.get = mem (2 * c) (pos / 4) := by
    have hcurrent := hmem.current x.access hx
    rw [htime, hdoes.addr, hfirst] at hcurrent
    exact hcurrent.symm
  have hbytes := (hdoes.data (hprev ▸ hwords _ _) hrange).2 (addr % 4) (Nat.mod_lt _ (by norm_num))
  have hwithin := hdoes.within
  have hnext : 2 * (c + 1) = 2 * c + 1 + 1 := by ring
  rw [hnext, hsecond, memByte, memByte]
  by_cases haddr : addr / 4 = pos / 4
  · have hiff : (pos % 4 ≤ addr % 4 ∧ addr % 4 < pos % 4 + x.bytes.length) ↔ (pos ≤ addr ∧ addr < pos + x.bytes.length) := by omega
    have hsub : addr % 4 - pos % 4 = addr - pos := by omega
    rw [haddr, update_self, hbytes, if_congr hiff rfl rfl, hsub, hprev]
  · rw [update_of_ne haddr, if_neg (by omega)]

/-- The bytes of a chain go to consecutive addresses, and all others are kept. -/
theorem chain_memory
    (h : Linked pulledRead pushedRead token chain final) (hchain : ∀ x ∈ chain, x.Satisfied ∧ x.InRange ∧ x.access ∈ accesses)
    (hfinal : final.size = 0) (hc : token.cycle = (c : ℕ)) (hat : token.At pos size) (hbounds : InBounds pos size)
    (hbound : c + chain.length < 2013265921)
    (halone : ∀ a ∈ accesses, 2 * c ≤ a.time → a.time < 2 * (c + chain.length) → ∃ x ∈ chain, a = x.access) :
    (chain.flatMap bytes).length = size ∧ ∀ addr, memByte (mem (2 * (c + chain.length))) addr =
      if pos ≤ addr ∧ addr < pos + size then (chain.flatMap bytes).getD (addr - pos) 0 else memByte (mem (2 * c)) addr := by
  induction chain generalizing token c pos size with
  | nil =>
    have heq : token = final := h
    have hsize : size = 0 := by
      have hzero : ((size : ℕ) : Fp) = (0 : ℕ) := by rw [← hat.size, heq, hfinal, Nat.cast_zero]
      exact natCast_inj_of_lt (by have := hbounds.2; omega) (by norm_num) hzero
    subst hsize
    refine ⟨rfl, fun addr => ?_⟩
    rw [if_neg (by omega)]
    rfl
  | cons x chain ih =>
    rw [forall_mem_cons] at hchain
    obtain ⟨⟨hx, hrange, hmemx⟩, hchain⟩ := hchain
    have hcycles := (linked_cycles h hc).1
    obtain ⟨rfl, h⟩ := h
    have hdoes := does hx hbounds hat
    have hcycle : x.cycle = (c : ℕ) := by rw [← pulledRead_cycle, hc]
    have hval : x.cycle.val = c := by rw [hcycle, ZMod.val_natCast_of_lt (by omega)]
    have hcycle' : x.pushedRead.cycle = (c + 1 : ℕ) := by rw [pushedRead_cycle, hcycle, Nat.cast_add, Nat.cast_one]
    have hcycles' := (linked_cycles h hcycle').1
    rw [length_cons] at hbound halone ⊢
    have hle := hdoes.le
    have hpos := hdoes.nonempty
    obtain ⟨hfit, hsmall⟩ := hbounds
    obtain ⟨hcount, hbytes⟩ := ih h hchain hcycle' hdoes.next ⟨by omega, by omega⟩ (by omega) (by
      intro a ha hlo hhi
      obtain ⟨y, hy, rfl⟩ := halone a ha (by omega) (by omega)
      rcases mem_cons.mp hy with rfl | hy
      · have htime : y.access.time = 2 * c + 1 := by rw [← hval]; rfl
        omega
      · exact ⟨y, hy, rfl⟩)
    have hstep := step_memory hmem hwords hdoes hrange hval hmemx (by
      intro a ha hlo hhi
      obtain ⟨y, hy, rfl⟩ := halone a ha hlo (by omega)
      rcases mem_cons.mp hy with rfl | hy
      · rfl
      · have hlate := (mem_cycle hcycles' (by omega) hy).1
        have htime : y.access.time = 2 * y.cycle.val + 1 := rfl
        omega)
    rw [flatMap_cons, length_append, hcount]
    refine ⟨by omega, fun addr => ?_⟩
    have hend : c + (chain.length + 1) = c + 1 + chain.length := by omega
    rw [hend, hbytes addr, hstep addr]
    by_cases hlow : addr < pos + x.bytes.length
    · rw [if_neg (by omega)]
      by_cases hin : pos ≤ addr
      · rw [if_pos ⟨hin, hlow⟩, if_pos (by omega), getD_append _ _ _ _ (by omega)]
      · rw [if_neg (by omega), if_neg (by omega)]
    · by_cases hin : addr < pos + size
      · have hsub : addr - (pos + x.bytes.length) = addr - pos - x.bytes.length := by omega
        rw [if_pos (by omega), if_pos (by omega), getD_append_right _ _ _ _ (by omega), hsub]
      · rw [if_neg (by omega), if_neg (by omega), if_neg (by omega)]

end ReadStep

end VerifiableCompute.Circuit
