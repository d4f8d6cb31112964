import VerifiableCompute.Circuit.ReadChains

/-! Host reads in a trace. The arguments of a trace balance: the state of the processor goes from row to row, and the state of
a read from its ecall over the steps to an ecall. Where no row leads back in time every ecall gets the end of its own chain. -/

namespace VerifiableCompute.Circuit

open Lib Rv32im Multiset ReadStep

scoped instance instAtLeastTwoSeven : Nat.AtLeastTwo 7 := ⟨by norm_num⟩
scoped instance instAtLeastTwoEight : Nat.AtLeastTwo 8 := ⟨by norm_num⟩
scoped instance instAtLeastTwoSixteen : Nat.AtLeastTwo 16 := ⟨by norm_num⟩
scoped instance instAtLeastTwoThirtyTwo : Nat.AtLeastTwo 32 := ⟨by norm_num⟩
scoped instance instAtLeastTwoHalves : Nat.AtLeastTwo 65536 := ⟨by norm_num⟩

/-- What the trace as a whole starts and ends with: of its columns those that tell of the cycles. -/
structure GlobalsBlock where
  finalCycle : Reg
  finalCycleCeilDiv : Reg
  ceilDivLow : RegU16
  ceilDivHigh : RegU8
  delta : RegU8
  deltaTimes32 : RegU8

namespace GlobalsBlock

structure verify (x : GlobalsBlock) : Prop where
  final : x.finalCycle + x.delta = x.finalCycleCeilDiv * 8
  ceilDiv : x.finalCycleCeilDiv = x.ceilDivLow + x.ceilDivHigh * 65536
  delta : x.deltaTimes32 = x.delta * 32

structure Satisfied (x : GlobalsBlock) : Prop where
  ceilDivLow : RegU16.verify x.ceilDivLow
  ceilDivHigh : RegU8.verify x.ceilDivHigh
  delta : RegU8.verify x.delta
  deltaTimes32 : RegU8.verify x.deltaTimes32
  verify : x.verify

/-- The state of the processor before the first row. -/
def pushedState (_ : GlobalsBlock) : CpuStateArgument := ⟨1, 0, 0, 0, 1⟩

/-- The state of the processor behind the last row. -/
def pulledState (x : GlobalsBlock) : CpuStateArgument := ⟨x.finalCycle, 0, 0, 0, 0⟩

/-- The size of the table of cycles. -/
def cycleTable (x : GlobalsBlock) : Fp := x.finalCycleCeilDiv * 16

/-- Where there is anything to look up there are less than `2 ^ 27` cycles. -/
theorem Satisfied.finalCycle_lt {x : GlobalsBlock} (hx : x.Satisfied) (htable : x.cycleTable ≠ 0) : x.finalCycle.val < 2 ^ 27 := by
  obtain ⟨j, hj, hlow⟩ := hx.ceilDivLow.exists_natCast
  obtain ⟨k, hk, hhigh⟩ := hx.ceilDivHigh.exists_natCast
  obtain ⟨d, hd, hdelta⟩ := hx.delta.exists_natCast
  obtain ⟨e, he, htimes⟩ := hx.deltaTimes32.exists_natCast
  have hceil : x.finalCycleCeilDiv = ((j + k * 65536 : ℕ) : Fp) := by
    rw [hx.verify.ceilDiv, hlow, hhigh]
    push_cast
    rfl
  have hpos : j + k * 65536 ≠ 0 := by
    intro hzero
    apply htable
    rw [cycleTable, hceil, hzero, Nat.cast_zero, zero_mul]
  have htimes' : (e : Fp) = ((d * 32 : ℕ) : Fp) := by
    rw [← htimes, hx.verify.delta, hdelta]
    push_cast
    rfl
  have hsmall : e = d * 32 := natCast_inj_of_lt (by omega) (by omega) htimes'
  have hfinal : x.finalCycle = (((j + k * 65536) * 8 - d : ℕ) : Fp) := by
    rw [eq_sub_of_add_eq hx.verify.final, hceil, hdelta, Nat.cast_sub (by omega)]
    push_cast
    rfl
  rw [hfinal, ZMod.val_natCast_of_lt (by omega)]
  omega

end GlobalsBlock

/-- Rows of other kinds, by what they take part in: an instruction, or an ecall with the rows of its own chain. -/
structure OtherRow where
  pulledState : CpuStateArgument
  pushedState : CpuStateArgument
  accesses : List Access

/-- What is asked of the other rows: their accesses are made in their own cycles, and leave words. -/
structure OtherRow.Sound (x : OtherRow) : Prop where
  within : ∀ a ∈ x.accesses, 2 * x.pulledState.cycle.val ≤ a.time ∧ a.time < 2 * x.pushedState.cycle.val
  words : ∀ a ∈ x.accesses, a.prev.IsWord → a.data.IsWord

/-- The rows that the state of the processor goes through. -/
inductive CpuRow
  | read (x : EcallReadBlock)
  | other (x : OtherRow)

open CpuRow

namespace CpuRow

def pulledState : CpuRow → CpuStateArgument
  | read x => x.pulledState
  | other x => x.pulledState

def pushedState : CpuRow → CpuStateArgument
  | read x => x.pushedState
  | other x => x.pushedState

def accesses : CpuRow → List Access
  | read x => x.accesses
  | other x => x.accesses

def read? : CpuRow → Option EcallReadBlock
  | read x => some x
  | other _ => none

end CpuRow

structure Trace where
  globals : GlobalsBlock
  reads : List EcallReadBlock
  steps : List ReadStep
  others : List OtherRow

namespace Trace

variable (t : Trace)

def cpuRows : List CpuRow := t.reads.map .read ++ t.others.map .other

def accesses : List Access := t.cpuRows.flatMap CpuRow.accesses ++ t.steps.map ReadStep.access

/-- The constraints hold, and what is looked up is in its table. -/
structure Satisfied : Prop where
  globals : t.globals.Satisfied
  reads : ∀ x ∈ t.reads, x.Satisfied
  steps : ∀ x ∈ t.steps, x.Satisfied
  lookups : ∀ x ∈ t.reads, ∀ lag ∈ x.lookups, lag.val < t.globals.cycleTable.val
  stepLookups : ∀ x ∈ t.steps, x.lookup.val < t.globals.cycleTable.val
  others : ∀ x ∈ t.others, x.Sound

/-- All that is pushed is pulled, each as often. -/
structure Balanced : Prop where
  state : t.globals.pushedState ::ₘ (t.cpuRows : Multiset CpuRow).map CpuRow.pushedState =
    t.globals.pulledState ::ₘ (t.cpuRows : Multiset CpuRow).map CpuRow.pulledState
  read : (t.reads : Multiset EcallReadBlock).map EcallReadBlock.pushedRead + (t.steps : Multiset ReadStep).map ReadStep.pushedRead =
    (t.reads : Multiset EcallReadBlock).map EcallReadBlock.pulledRead + (t.steps : Multiset ReadStep).map ReadStep.pulledRead

/-- A trace that is accepted, with its memory, which has words at first. -/
structure Accepted (mem : ℕ → ℕ → ValU32) : Prop where
  satisfied : t.Satisfied
  balanced : t.Balanced
  decode : ∀ x ∈ t.reads, ∃ d, x.pulledDecode.Correct d
  memory : Consistent mem t.accesses
  words : ∀ addr, (mem 0 addr).IsWord

/-- No row leads back in time. -/
def Forward : Prop := ∀ x ∈ t.cpuRows, x.pulledState.cycle.val < x.pushedState.cycle.val

/-- What is read as words are words. -/
def InRange : Prop := ∀ x ∈ t.steps, x.InRange

end Trace

/-- A host read with its chain: the count that is returned is at most what was asked for, the steps follow in consecutive cycles,
the bytes that they read are at consecutive addresses and nothing else changes, and the processor goes on behind the chain. -/
structure HostReadDone (mem : ℕ → ℕ → ValU32) (x : EcallReadBlock) (chain : List ReadStep) (ptr len : Word) (ret : ℕ) (d : Decoded) :
    Prop where
  decode : x.pulledDecode.Correct d
  a1 : mem (2 * x.cycle.val) (machineRegs + regA1) = .of ptr
  a2 : mem (2 * x.cycle.val) (machineRegs + regA2) = .of len
  short : len.toNat < 2 ^ 16
  le : ret ≤ len.toNat
  a0 : mem (2 * (x.cycle.val + 1)) = Function.update (mem (2 * x.cycle.val)) (machineRegs + regA0) (.of (BitVec.ofNat 32 ret))
  cycles : chain.map ReadStep.cycle = (List.range chain.length).map fun k => ((x.cycle.val + 1 + k : ℕ) : Fp)
  bytes : (chain.flatMap ReadStep.bytes).length = ret
  memory : ∀ addr, memByte (mem (2 * (x.cycle.val + 1 + chain.length))) addr =
    if ptr.toNat ≤ addr ∧ addr < ptr.toNat + ret then (chain.flatMap ReadStep.bytes).getD (addr - ptr.toNat) 0
    else memByte (mem (2 * (x.cycle.val + 1))) addr
  next : x.pushedState = .of (x.cycle.val + 1 + chain.length + 1 : ℕ) d.nextPc .machine x.fetch.iCacheCycle

/-- Every step belongs to the chain of one host read, and each host read is done with its chain. -/
structure HostReads (mem : ℕ → ℕ → ValU32) (t : Trace) : Prop where
  words : ∀ time addr, (mem time addr).IsWord
  chains : ∃ chains : Multiset (EcallReadBlock × List ReadStep), chains.map Prod.fst = t.reads ∧
    (chains.map fun c => (c.2 : Multiset ReadStep)).sum = t.steps ∧
    ∀ c ∈ chains, ∃ ptr len ret d, HostReadDone mem c.1 c.2 ptr len ret d

namespace Trace

variable {t : Trace} {mem : ℕ → ℕ → ValU32}

/-- The rows in the order in which the state of the processor goes through them. -/
theorem exists_order (hbalanced : t.Balanced) (hforward : t.Forward) : ∃ rows : List CpuRow, (rows : Multiset CpuRow) = t.cpuRows ∧
    rows.Pairwise (fun x y => x.pushedState.cycle.val ≤ y.pulledState.cycle.val) ∧
    ∀ x ∈ rows, x.pushedState.cycle.val ≤ t.globals.finalCycle.val := by
  have hlt (s : CpuStateArgument) : s.cycle.val < 2013265921 := ZMod.val_lt s.cycle
  obtain ⟨rows, hrows, hlinked⟩ := exists_chain pulledState pushedState (fun s => 2013265921 - s.cycle.val)
    (fun x hx => by
      have := hforward x (mem_coe.mp hx)
      have := hlt x.pushedState
      omega) hbalanced.state
  have hmem (x : CpuRow) (hx : x ∈ rows) : x ∈ t.cpuRows := by
    rw [← mem_coe, ← hrows]
    exact mem_coe.mpr hx
  obtain ⟨hordered, -, hwithin⟩ := hlinked.ordered (fun s => s.cycle.val) fun x hx => hforward x (hmem x hx)
  exact ⟨rows, hrows, hordered, fun x hx => (hwithin x hx).2⟩

variable {x : EcallReadBlock} {a : Access}

theorem read_mem (hx : x ∈ t.reads) : read x ∈ t.cpuRows :=
  List.mem_append_left _ (List.mem_map_of_mem hx)

theorem before_or (hbalanced : t.Balanced) (hforward : t.Forward) {x y : CpuRow} (hx : x ∈ t.cpuRows) (hy : y ∈ t.cpuRows) :
    x = y ∨ x.pushedState.cycle.val ≤ y.pulledState.cycle.val ∨ y.pushedState.cycle.val ≤ x.pulledState.cycle.val := by
  obtain ⟨rows, hrows, hordered, -⟩ := exists_order hbalanced hforward
  have hmem {z : CpuRow} (hz : z ∈ t.cpuRows) : z ∈ rows := by
    rw [← mem_coe, hrows]
    exact mem_coe.mpr hz
  exact pairwise_or hordered (hmem hx) (hmem hy)

theorem final_after (hforward : t.Forward) (hx : x ∈ t.reads) :
    x.cycle.val ≤ x.finalCycle.val ∧ (x.finalCycle + 1).val = x.finalCycle.val + 1 := by
  have hlt : x.cycle.val < (x.finalCycle + 1).val := hforward _ (read_mem hx)
  have hval := ZMod.val_lt x.finalCycle
  have hadd : (x.finalCycle + 1).val = (x.finalCycle.val + 1) % 2013265921 := ZMod.val_add x.finalCycle 1
  omega

section

variable (ht : t.Satisfied) (hbalanced : t.Balanced)

include ht hbalanced

theorem cycle_lt (hforward : t.Forward) (hx : x ∈ t.reads) : x.cycle.val < 2 ^ 27 := by
  obtain ⟨rows, hrows, -, hwithin⟩ := exists_order hbalanced hforward
  have hmem : read x ∈ rows := by
    rw [← mem_coe, hrows]
    exact mem_coe.mpr (read_mem hx)
  have hlt : x.cycle.val < (x.finalCycle + 1).val := hforward _ (read_mem hx)
  have hle : (x.finalCycle + 1).val ≤ t.globals.finalCycle.val := hwithin _ hmem
  have htable : t.globals.cycleTable ≠ 0 := by
    intro hzero
    have hlookup := ht.lookups x hx _ List.mem_cons_self
    rw [hzero, ZMod.val_zero] at hlookup
    exact Nat.not_lt_zero _ hlookup
  have hfinal := ht.globals.finalCycle_lt htable
  omega

theorem exists_read_chains :
    ∃ chains : Multiset (EcallReadBlock × List ReadStep × EcallReadBlock), chains.map (fun c => c.1) = t.reads ∧
      chains.map (fun c => c.2.2) = t.reads ∧ (chains.map fun c => (c.2.1 : Multiset ReadStep)).sum = t.steps ∧
      ∀ c ∈ chains, Linked pulledRead pushedRead c.1.pushedRead c.2.1 c.2.2.pulledRead := by
  obtain ⟨chains, hstarts, hfinals, hsteps, hlinked⟩ := exists_chains pulledRead pushedRead (fun s => s.size.val)
    EcallReadBlock.pulledRead (t.reads : Multiset EcallReadBlock) (t.steps : Multiset ReadStep)
    ((t.reads : Multiset EcallReadBlock).map fun x => (x, x.pushedRead))
    (fun x hx => (size_lt (ht.steps x (mem_coe.mp hx))).1) (by
      rw [map_map]
      exact hbalanced.read)
  refine ⟨chains.map fun c => (c.1.1, c.2.1, c.2.2), ?_, ?_, ?_, ?_⟩
  · have hfst := congrArg (map Prod.fst) hstarts
    rw [map_map, map_map] at hfst
    rw [map_map]
    exact hfst.trans (map_id _)
  · rw [map_map]
    exact hfinals
  · rw [map_map]
    exact hsteps
  · intro c hc
    obtain ⟨d, hd, rfl⟩ := mem_map.mp hc
    have hstart : d.1 ∈ (t.reads : Multiset EcallReadBlock).map fun x => (x, x.pushedRead) := by
      rw [← hstarts]
      exact mem_map_of_mem (fun c => c.1) hd
    obtain ⟨x, -, heq⟩ := mem_map.mp hstart
    have hchain := hlinked d hd
    rw [← heq] at hchain ⊢
    exact hchain

theorem chain_cycles (hforward : t.Forward) {y : EcallReadBlock} (hx : x ∈ t.reads)
    {chain : List ReadStep} (hchain : ∀ s ∈ chain, s ∈ t.steps)
    (h : Linked pulledRead pushedRead x.pushedRead chain y.pulledRead) :
    x.writeA0.data.low.val < 2 ^ 17 ∧ x.cycle.val + 1 + chain.length < 2013265921 ∧
      chain.map cycle = (List.range chain.length).map (fun k => ((x.cycle.val + 1 + k : ℕ) : Fp)) ∧
      y.finalCycle = (x.cycle.val + 1 + chain.length : ℕ) := by
  have hcycle : x.pushedRead.cycle = (x.cycle.val + 1 : ℕ) := by
    rw [Nat.cast_add, Nat.cast_one, ZMod.natCast_zmod_val]
    rfl
  obtain ⟨hcycles, hfinal⟩ := linked_cycles h hcycle
  obtain ⟨hsmall, hlength⟩ := linked_size h (fun s hs => ht.steps s (hchain s hs)) rfl
  have hbound := cycle_lt ht hbalanced hforward hx
  exact ⟨hsmall, by omega, hcycles, hfinal⟩

end

theorem mem_steps {α : Type} {chains : Multiset (α × List ReadStep)}
    (hsteps : (chains.map fun c => (c.2 : Multiset ReadStep)).sum = t.steps) {c : α × List ReadStep} (hc : c ∈ chains) {s : ReadStep}
    (hs : s ∈ c.2) : s ∈ t.steps := by
  rw [← mem_coe, ← hsteps]
  exact mem_of_le (single_le_sum (fun _ _ => zero_le _) _ (mem_map_of_mem _ hc)) (mem_coe.mpr hs)

theorem filterMap_cpuRows : t.cpuRows.filterMap read? = t.reads := by
  unfold cpuRows
  rw [List.filterMap_append, List.filterMap_map, List.filterMap_map]
  have hreads : t.reads.filterMap (read? ∘ read) = t.reads := List.filterMap_some
  have hothers : t.others.filterMap (read? ∘ other) = [] := List.filterMap_eq_nil_iff.mpr fun _ _ => rfl
  rw [hreads, hothers, List.append_nil]

theorem exists_read_order (hbalanced : t.Balanced) (hforward : t.Forward) : ∃ reads : List EcallReadBlock,
    (reads : Multiset EcallReadBlock) = t.reads ∧ reads.Pairwise (fun x y => x.finalCycle.val < y.cycle.val) := by
  obtain ⟨rows, hrows, hordered, -⟩ := exists_order hbalanced hforward
  have hperm : rows.Perm t.cpuRows := coe_eq_coe.mp hrows
  have hreads := hperm.filterMap read?
  rw [filterMap_cpuRows] at hreads
  refine ⟨rows.filterMap read?, coe_eq_coe.mpr hreads, ?_⟩
  rw [List.pairwise_filterMap]
  refine hordered.imp_of_mem ?_
  intro a b ha _ hab x hx y hy
  cases a with
  | other o => cases hx
  | read x' =>
    cases b with
    | other o => cases hy
    | read y' =>
      cases hx
      cases hy
      have hmem : read x ∈ t.cpuRows := hperm.mem_iff.mp ha
      have hin : x ∈ t.reads := by
        rw [← filterMap_cpuRows]
        exact List.mem_filterMap.mpr ⟨_, hmem, rfl⟩
      have hval := (final_after hforward hin).2
      have hle : (x.finalCycle + 1).val ≤ y.cycle.val := hab
      omega

theorem exists_own_chains (ht : t.Satisfied) (hbalanced : t.Balanced) (hforward : t.Forward) :
    ∃ chains : Multiset (EcallReadBlock × List ReadStep), chains.map Prod.fst = t.reads ∧ (chains.map Prod.fst).Nodup ∧
      (chains.map fun c => (c.2 : Multiset ReadStep)).sum = t.steps ∧
      ∀ c ∈ chains, Linked pulledRead pushedRead c.1.pushedRead c.2 c.1.pulledRead := by
  obtain ⟨chains, hstarts, hfinals, hsteps, hlinked⟩ := exists_read_chains ht hbalanced
  obtain ⟨reads, hreads, hordered⟩ := exists_read_order hbalanced hforward
  have hin {x : EcallReadBlock} (hx : x ∈ reads) : x ∈ t.reads := by
    rw [← mem_coe, ← hreads]
    exact mem_coe.mpr hx
  have hforward' : ∀ x ∈ reads, x.cycle.val ≤ x.finalCycle.val := fun x hx => (final_after hforward (hin hx)).1
  have hsteps' : ((chains.map fun c => (c.1, c.2.1)).map fun c => (c.2 : Multiset ReadStep)).sum = t.steps := by
    rw [map_map]
    exact hsteps
  have hstart {c : EcallReadBlock × List ReadStep × EcallReadBlock} (hc : c ∈ chains) : c.1 ∈ t.reads := by
    rw [← mem_coe, ← hstarts]
    exact mem_map_of_mem (fun c => c.1) hc
  have hfst : (chains.map fun c => (c.1, c.2.2)).map Prod.fst = reads := by
    rw [map_map, hreads]
    exact hstarts
  have hsnd : (chains.map fun c => (c.1, c.2.2)).map Prod.snd = reads := by
    rw [map_map, hreads]
    exact hfinals
  have hself := paired_with_self (fun x : EcallReadBlock => x.cycle.val) (fun x => x.finalCycle.val) hforward' hordered hfst hsnd (by
      intro p hp
      obtain ⟨c, hc, rfl⟩ := mem_map.mp hp
      obtain ⟨-, hbound, -, hfinal⟩ := chain_cycles ht hbalanced hforward (hstart hc)
        (fun s hs => mem_steps hsteps' (mem_map_of_mem (fun c => (c.1, c.2.1)) hc) hs) (hlinked c hc)
      dsimp only
      rw [hfinal, ZMod.val_natCast_of_lt hbound]
      omega)
  refine ⟨chains.map fun c => (c.1, c.2.1), ?_, ?_, hsteps', ?_⟩
  · rw [map_map]
    exact hstarts
  · rw [map_map]
    change (chains.map fun c => c.1).Nodup
    rw [hstarts, ← hreads, coe_nodup]
    refine hordered.imp_of_mem ?_
    intro x y hx _ hlt heq
    have hle := hforward' x hx
    rw [heq] at hle hlt
    omega
  · intro c hc
    obtain ⟨d, hd, rfl⟩ := mem_map.mp hc
    have heq := hself (d.1, d.2.2) (mem_map_of_mem (fun c => (c.1, c.2.2)) hd)
    have hchain := hlinked d hd
    dsimp only at heq ⊢
    rw [← heq] at hchain
    exact hchain

theorem access_of_read (hx : x ∈ t.reads) (ha : a ∈ x.accesses) : a ∈ t.accesses :=
  List.mem_append_left _ (List.mem_flatMap.mpr ⟨_, read_mem hx, ha⟩)

theorem access_of_step {x : ReadStep} (hx : x ∈ t.steps) : x.access ∈ t.accesses := List.mem_append_right _ (List.mem_map_of_mem hx)

theorem mem_accesses : a ∈ t.accesses ↔ (∃ x ∈ t.reads, a ∈ x.accesses) ∨ (∃ x ∈ t.others, a ∈ x.accesses) ∨
    ∃ x ∈ t.steps, a = x.access := by
  constructor
  · intro ha
    rcases List.mem_append.mp ha with ha | ha
    · obtain ⟨x, hx, ha⟩ := List.mem_flatMap.mp ha
      rcases List.mem_append.mp hx with hx | hx
      · obtain ⟨y, hy, rfl⟩ := List.mem_map.mp hx
        exact .inl ⟨y, hy, ha⟩
      · obtain ⟨y, hy, rfl⟩ := List.mem_map.mp hx
        exact .inr (.inl ⟨y, hy, ha⟩)
    · obtain ⟨x, hx, rfl⟩ := List.mem_map.mp ha
      exact .inr (.inr ⟨x, hx, rfl⟩)
  · rintro (⟨x, hx, ha⟩ | ⟨x, hx, ha⟩ | ⟨x, hx, rfl⟩)
    · exact access_of_read hx ha
    · exact List.mem_append_left _ (List.mem_flatMap.mpr ⟨_, List.mem_append_right _ (List.mem_map_of_mem hx), ha⟩)
    · exact access_of_step hx

theorem count_le (hx : x.Satisfied) (hsmall : x.writeA0.data.low.val < 2 ^ 17) (hlen : x.readA2.data.get.IsWord) :
    x.writeA0.data.low.val ≤ x.readA2.data.low.val ∧ x.readA2.data.low.val < 2 ^ 16 := by
  have hlow : x.readA2.data.low.val < 0x10000 := hlen.1
  have hret : x.verifyRet.val < 0x10000 := hx.verifyRet
  have hsum : x.readA2.data.low = ((x.verifyRet.val + x.writeA0.data.low.val : ℕ) : Fp) := by
    rw [Nat.cast_add, ZMod.natCast_zmod_val, ZMod.natCast_zmod_val, hx.verify.ret, sub_add_cancel]
  have hval := congrArg ZMod.val hsum
  rw [ZMod.val_natCast_of_lt (by omega)] at hval
  omega

theorem data_of_read (ha : a ∈ x.accesses) : a.data = a.prev ∨ a = x.writeA0.access x.cycle := by
  simp only [EcallReadBlock.accesses, List.mem_cons, List.not_mem_nil, or_false] at ha
  rcases ha with rfl | rfl | rfl | rfl
  · exact .inl rfl
  · exact .inl rfl
  · exact .inl rfl
  · exact .inr rfl

theorem a2_current (hmem : Consistent mem t.accesses) (hx : x ∈ t.reads) (hx' : x.Satisfied) :
    mem (2 * x.cycle.val) (machineRegs + regA2) = x.readA2.data.get := by
  have hcurrent := hmem.current _ (access_of_read hx (List.mem_cons_of_mem _ (List.mem_cons_of_mem _ List.mem_cons_self)))
  have haddr : x.readA2.wordAddr.val = machineRegs + regA2 := by
    rw [hx'.verify.a2Addr, ZMod.val_natCast_of_lt (by decide)]
  rw [← haddr]
  exact hcurrent

theorem a1_current (hmem : Consistent mem t.accesses) (hx : x ∈ t.reads) (hx' : x.Satisfied) :
    mem (2 * x.cycle.val) (machineRegs + regA1) = x.readA1.data.get := by
  have hcurrent := hmem.current _ (access_of_read hx (List.mem_cons_of_mem _ List.mem_cons_self))
  have haddr : x.readA1.wordAddr.val = machineRegs + regA1 := by
    rw [hx'.verify.a1Addr, ZMod.val_natCast_of_lt (by decide)]
  rw [← haddr]
  exact hcurrent

/-- The induction is on time: what an access leaves is a word if all was words before. -/
theorem isWord_mem (ht : t.Accepted mem) (hforward : t.Forward) (hrange : t.InRange) (time : ℕ) :
    ∀ addr, (mem time addr).IsWord := by
  induction time using Nat.strong_induction_on with
  | h time ih =>
    cases time with
    | zero => exact ht.words
    | succ time =>
      intro addr
      by_cases hat : ∃ a ∈ t.accesses, a.time = time ∧ a.addr = addr
      · obtain ⟨a, ha, rfl, rfl⟩ := hat
        have hprev : a.prev.IsWord := ht.memory.current a ha ▸ ih a.time (Nat.lt_succ_self _) a.addr
        rw [ht.memory.stored a ha]
        rcases mem_accesses.mp ha with ⟨x, hx, hax⟩ | ⟨x, hx, hax⟩ | ⟨x, hx, rfl⟩
        · rcases data_of_read hax with hdata | rfl
          · rw [hdata]
            exact hprev
          · have hsat := ht.satisfied.reads x hx
            obtain ⟨chains, hstarts, -, hsteps, hlinked⟩ := exists_own_chains ht.satisfied ht.balanced hforward
            have hmem : x ∈ chains.map Prod.fst := by
              rw [hstarts]
              exact mem_coe.mpr hx
            obtain ⟨c, hc, rfl⟩ := mem_map.mp hmem
            have hsmall := (chain_cycles ht.satisfied ht.balanced hforward hx (fun s hs => mem_steps hsteps hc hs) (hlinked c hc)).1
            have hlen := ih (2 * c.1.cycle.val) (Nat.lt_succ_of_lt (Nat.lt_succ_self _)) (machineRegs + regA2)
            rw [a2_current ht.memory hx hsat] at hlen
            obtain ⟨hle, hlt⟩ := count_le hsat hsmall hlen
            constructor
            · change c.1.writeA0.data.low.val < 0x10000
              omega
            · change c.1.writeA0.data.high.val < 0x10000
              rw [hsat.verify.retHigh, ZMod.val_zero]
              norm_num
        · exact (ht.satisfied.others x hx).words a hax hprev
        · cases x with
          | byte y => exact ((ht.satisfied.steps _ hx).data hprev).1
          | word y => exact hrange _ hx
      · rw [ht.memory.kept time addr fun a ha htime haddr => hat ⟨a, ha, htime, haddr⟩]
        exact ih time (Nat.lt_succ_self _) addr

theorem alone (ht : t.Satisfied) (hbalanced : t.Balanced) (hforward : t.Forward) {chains : Multiset (EcallReadBlock × List ReadStep)}
    (hstarts : chains.map Prod.fst = t.reads) (hnodup : (chains.map Prod.fst).Nodup)
    (hsteps : (chains.map fun c => (c.2 : Multiset ReadStep)).sum = t.steps)
    (hlinked : ∀ c ∈ chains, Linked pulledRead pushedRead c.1.pushedRead c.2 c.1.pulledRead)
    {c : EcallReadBlock × List ReadStep} (hc : c ∈ chains) (ha : a ∈ t.accesses) (hlo : 2 * c.1.cycle.val ≤ a.time)
    (hhi : a.time < 2 * (c.1.finalCycle.val + 1)) : a ∈ c.1.accesses ∨ ∃ x ∈ c.2, a = x.access := by
  have hstart {d : EcallReadBlock × List ReadStep} (hd : d ∈ chains) : d.1 ∈ t.reads := by
    rw [← mem_coe, ← hstarts]
    exact mem_map_of_mem _ hd
  have hend {x : EcallReadBlock} (hx : x ∈ t.reads) : (read x).pushedState.cycle.val = x.finalCycle.val + 1 :=
    (final_after hforward hx).2
  have hc' := hstart hc
  rcases mem_accesses.mp ha with ⟨x, hx, hax⟩ | ⟨x, hx, hax⟩ | ⟨x, hx, rfl⟩
  · have htime : a.time = 2 * x.cycle.val ∨ a.time = 2 * x.cycle.val + 1 := by
      simp only [EcallReadBlock.accesses, List.mem_cons, List.not_mem_nil, or_false] at hax
      rcases hax with rfl | rfl | rfl | rfl
      · exact .inl rfl
      · exact .inl rfl
      · exact .inl rfl
      · exact .inr rfl
    have hself := (final_after hforward hx).1
    rcases before_or hbalanced hforward (read_mem hx) (read_mem hc') with heq | hle | hle
    · cases heq
      exact .inl hax
    · rw [hend hx] at hle
      change x.finalCycle.val + 1 ≤ c.1.cycle.val at hle
      omega
    · rw [hend hc'] at hle
      change c.1.finalCycle.val + 1 ≤ x.cycle.val at hle
      omega
  · obtain ⟨hfrom, hto⟩ := (ht.others x hx).within a hax
    rcases before_or hbalanced hforward (List.mem_append_right _ (List.mem_map_of_mem hx)) (read_mem hc') with heq | hle | hle
    · cases heq
    · change x.pushedState.cycle.val ≤ c.1.cycle.val at hle
      omega
    · rw [hend hc'] at hle
      change c.1.finalCycle.val + 1 ≤ x.pulledState.cycle.val at hle
      omega
  · have hmem : x ∈ (chains.map fun c => (c.2 : Multiset ReadStep)).sum := by
      rw [hsteps]
      exact mem_coe.mpr hx
    obtain ⟨l, hl, hxl⟩ := mem_join.mp hmem
    obtain ⟨d, hd, rfl⟩ := mem_map.mp hl
    have hd' := hstart hd
    obtain ⟨-, hbound, hcycles, hfinal⟩ := chain_cycles ht hbalanced hforward hd' (fun s hs => mem_steps hsteps hd hs) (hlinked d hd)
    have hval : d.1.finalCycle.val = d.1.cycle.val + 1 + d.2.length := by rw [hfinal, ZMod.val_natCast_of_lt hbound]
    obtain ⟨hfrom, hto⟩ := mem_cycle hcycles hbound (mem_coe.mp hxl)
    have htime : x.access.time = 2 * x.cycle.val + 1 := rfl
    rcases before_or hbalanced hforward (read_mem hd') (read_mem hc') with heq | hle | hle
    · have hsame : d = c := inj_on_of_nodup_map hnodup d hd c hc (read.inj heq)
      exact .inr ⟨x, hsame ▸ mem_coe.mp hxl, rfl⟩
    · rw [hend hd'] at hle
      change d.1.finalCycle.val + 1 ≤ c.1.cycle.val at hle
      omega
    · rw [hend hc'] at hle
      change c.1.finalCycle.val + 1 ≤ d.1.cycle.val at hle
      omega

theorem pushedRead_at (hx : x.Satisfied) {ptr : Word} (hptr : x.readA1.data.get = .of ptr) :
    x.pushedRead.At ptr.toNat x.writeA0.data.low.val := by
  have hdecomp := hx.decomp
  rw [hptr] at hdecomp
  have hset := hdecomp.eq_set
  refine ⟨?_, ?_, (ZMod.natCast_zmod_val _).symm⟩
  · change x.decomp.wordAddr x.readA1.data.get = _
    rw [hset, hptr, AddressDecompose.wordAddr_set]
    rfl
  · change x.decomp.low0 + x.decomp.low1 * 2 = _
    have hsum : ptr.toNat % 4 = ptr.toNat % 2 + ptr.toNat / 2 % 2 * 2 := by omega
    rw [hset, hsum, Nat.cast_add, Nat.cast_mul, Nat.cast_ofNat]
    rfl

theorem next_of_decode {d : Decoded} (h : x.pulledDecode.Correct d) :
    x.pushedState = .of (x.finalCycle + 1) d.nextPc .machine x.fetch.iCacheCycle := by
  obtain ⟨options, -, heq⟩ := h
  have hlow : x.fetch.nextPc.low = (ValU32.of d.nextPc).low := congrArg DecodeArgument.newPcLow heq
  have hhigh : x.fetch.nextPc.high = (ValU32.of d.nextPc).high := congrArg DecodeArgument.newPcHigh heq
  rw [EcallReadBlock.pushedState, hlow, hhigh]
  rfl

theorem toNat_of_low {val : Word} {x : ValU32} (h : x = .of val) (hhigh : x.high = 0) : val.toNat = x.low.val := by
  have hlow : x.low.val = lowHalf val := by
    rw [h]
    exact ZMod.val_natCast_of_lt (by have := lowHalf_lt val; omega)
  have hzero : highHalf val = 0 := by
    refine natCast_inj_of_lt (by have := highHalf_lt val; omega) (by norm_num : 0 < 2013265921) ?_
    rw [Nat.cast_zero, ← hhigh, h]
    rfl
  have hsplit := halves_eq val
  omega

/-- Every host read is done with a chain of its own, in a trace in which no row leads back in time and the words that are read
are words. -/
theorem host_reads (t : Trace) (mem : ℕ → ℕ → ValU32) (ht : t.Accepted mem) (hforward : t.Forward) (hrange : t.InRange) :
    HostReads mem t := by
  have hwords := isWord_mem ht hforward hrange
  obtain ⟨chains, hstarts, hnodup, hsteps, hlinked⟩ := exists_own_chains ht.satisfied ht.balanced hforward
  refine ⟨hwords, chains, hstarts, hsteps, fun c hc => ?_⟩
  have hx : c.1 ∈ t.reads := by
    rw [← Multiset.mem_coe, ← hstarts]
    exact Multiset.mem_map_of_mem _ hc
  have hsat := ht.satisfied.reads c.1 hx
  have hchain (s : ReadStep) (hs : s ∈ c.2) : s ∈ t.steps := mem_steps hsteps hc hs
  obtain ⟨hsmall, hbound, hcycles, hfinal⟩ := chain_cycles ht.satisfied ht.balanced hforward hx hchain (hlinked c hc)
  have hval : c.1.finalCycle.val = c.1.cycle.val + 1 + c.2.length := by rw [hfinal, ZMod.val_natCast_of_lt hbound]
  have halone {a : Access} (ha : a ∈ t.accesses) (hlo : 2 * c.1.cycle.val ≤ a.time) (hhi : a.time < 2 * (c.1.finalCycle.val + 1)) :
      a ∈ c.1.accesses ∨ ∃ x ∈ c.2, a = x.access :=
    alone ht.satisfied ht.balanced hforward hstarts hnodup hsteps hlinked hc ha hlo hhi
  have hstep (s : ReadStep) (hs : s ∈ c.2) : s.access.time = 2 * s.cycle.val + 1 ∧ c.1.cycle.val + 1 ≤ s.cycle.val :=
    ⟨rfl, (ReadStep.mem_cycle hcycles hbound hs).1⟩
  have htime {a : Access} (ha : a ∈ c.1.accesses) : a.time ≤ 2 * c.1.cycle.val + 1 := by
    simp only [EcallReadBlock.accesses, List.mem_cons, List.not_mem_nil, or_false] at ha
    rcases ha with rfl | rfl | rfl | rfl
    · exact Nat.le_succ _
    · exact Nat.le_succ _
    · exact Nat.le_succ _
    · exact le_rfl
  -- the registers
  have ha1 := a1_current ht.memory hx hsat
  have ha2 := a2_current ht.memory hx hsat
  have hword1 := hwords (2 * c.1.cycle.val) (machineRegs + regA1)
  have hword2 := hwords (2 * c.1.cycle.val) (machineRegs + regA2)
  rw [ha1] at hword1
  rw [ha2] at hword2
  obtain ⟨ptr, hptr⟩ := ValU32.exists_of hword1.1 hword1.2
  obtain ⟨len, hlen⟩ := ValU32.exists_of hword2.1 hword2.2
  obtain ⟨hle, hshort⟩ := count_le hsat hsmall hword2
  have hlenNat : len.toNat = c.1.readA2.data.low.val := toNat_of_low hlen hsat.verify.lenHigh
  -- the count
  have hfirst : mem (2 * c.1.cycle.val + 1) = mem (2 * c.1.cycle.val) := by
    apply ht.memory.unchanged
    intro a ha hat
    rcases halone ha (by omega) (by omega) with hown | ⟨s, hs, rfl⟩
    · rcases data_of_read hown with hdata | rfl
      · exact hdata
      · change 2 * c.1.cycle.val + 1 = _ at hat
        omega
    · have := hstep s hs
      omega
  have hwrite : c.1.writeA0.access c.1.cycle ∈ t.accesses := access_of_read hx (by simp [EcallReadBlock.accesses])
  have hsecond := ht.memory.update hwrite (by
    intro a ha hat
    have hat' : a.time = 2 * c.1.cycle.val + 1 := hat
    rcases halone ha (by omega) (by omega) with hown | ⟨s, hs, rfl⟩
    · simp only [EcallReadBlock.accesses, List.mem_cons, List.not_mem_nil, or_false] at hown
      rcases hown with rfl | rfl | rfl | rfl
      · exact absurd hat' (Nat.ne_of_lt (Nat.lt_succ_self _))
      · exact absurd hat' (Nat.ne_of_lt (Nat.lt_succ_self _))
      · exact absurd hat' (Nat.ne_of_lt (Nat.lt_succ_self _))
      · rfl
    · have := hstep s hs
      omega)
  have haddr : c.1.writeA0.wordAddr.val = machineRegs + regA0 := by
    rw [hsat.verify.a0Addr, ZMod.val_natCast_of_lt (by decide)]
  have hdata : c.1.writeA0.data.get = .of (BitVec.ofNat 32 c.1.writeA0.data.low.val) := by
    refine ValU32.eq_of c.1.writeA0.data.low.val 0 (ZMod.natCast_zmod_val _).symm ?_ ?_ (by omega)
    · rw [Nat.cast_zero]
      exact hsat.verify.retHigh
    · rw [BitVec.toNat_ofNat, Nat.mod_eq_of_lt (by omega)]
      omega
  -- the bytes
  have hcycle : c.1.pushedRead.cycle = (c.1.cycle.val + 1 : ℕ) := by
    rw [Nat.cast_add, Nat.cast_one, ZMod.natCast_zmod_val]
    rfl
  have hinbounds : InBounds ptr.toNat c.1.writeA0.data.low.val := ⟨by have := ptr.isLt; omega, hsmall⟩
  obtain ⟨hbytes, hmemory⟩ := ReadStep.chain_memory ht.memory hwords (hlinked c hc)
    (fun s hs => ⟨ht.satisfied.steps s (hchain s hs), hrange s (hchain s hs), access_of_step (hchain s hs)⟩) rfl hcycle
    (pushedRead_at hsat hptr) hinbounds hbound (by
      intro a ha hlo hhi
      rcases halone ha (by omega) (by omega) with hown | hsteps
      · have := htime hown
        omega
      · exact hsteps)
  obtain ⟨d, hd⟩ := ht.decode c.1 hx
  refine ⟨ptr, len, c.1.writeA0.data.low.val, d, hd, ha1.trans hptr, ha2.trans hlen, by omega, by omega, ?_, hcycles, hbytes, hmemory, ?_⟩
  · have htwice : 2 * (c.1.cycle.val + 1) = 2 * c.1.cycle.val + 1 + 1 := by ring
    change mem (2 * c.1.cycle.val + 1 + 1) = Function.update (mem (2 * c.1.cycle.val + 1)) c.1.writeA0.wordAddr.val
      c.1.writeA0.data.get at hsecond
    rw [htwice, hsecond, hfirst, haddr, hdata]
  · rw [next_of_decode hd, hfinal, ← Nat.cast_succ]

end Trace

/-- Memory by the accesses so far, the latest first. -/
def history (base : ℕ → ValU32) : List Access → ℕ → ℕ → ValU32
  | [], _, addr => base addr
  | a :: as, time, addr => if a.addr = addr ∧ a.time < time then a.data else history base as time addr

theorem history_succ {base : ℕ → ValU32} {accesses : List Access} {time addr : ℕ}
    (h : ∀ a ∈ accesses, a.time = time → a.addr ≠ addr) : history base accesses (time + 1) addr = history base accesses time addr := by
  induction accesses with
  | nil => rfl
  | cons a as ih =>
    rw [List.forall_mem_cons] at h
    have hiff : (a.addr = addr ∧ a.time < time + 1) ↔ (a.addr = addr ∧ a.time < time) := by
      constructor
      · rintro ⟨haddr, hlt⟩
        have hne : a.time ≠ time := fun heq => h.1 heq haddr
        exact ⟨haddr, by omega⟩
      · rintro ⟨haddr, hlt⟩
        exact ⟨haddr, by omega⟩
    rw [history, history, if_congr hiff rfl rfl, ih h.2]

theorem history_zero (base : ℕ → ValU32) (accesses : List Access) (addr : ℕ) : history base accesses 0 addr = base addr := by
  induction accesses with
  | nil => rfl
  | cons a as ih =>
    rw [history, if_neg fun h => Nat.not_lt_zero _ h.2]
    exact ih

/-- The kernel asks for eight bytes at `0x10003`. -/
def registers (addr : ℕ) : ValU32 :=
  if addr = machineRegs + regA7 then .of 1
  else if addr = machineRegs + regA1 then .of 0x10003
  else if addr = machineRegs + regA2 then .of 8
  else .of 0

def readEcall : EcallReadBlock :=
  .set ⟨2, 5, ⟨3, 1, 1, 0xc0000000, 0xc0000004⟩, ⟨0x3fffc011, 0, 1⟩, ⟨0x3fffc00b, 0, 0x10003⟩, ⟨0x3fffc00c, 0, 8⟩, ⟨0x3fffc00a, 0, 0, 5⟩⟩

def readByte : ReadByteBlock := .set ⟨3, 5, 3, ⟨0x4000, 0, 0, 0x07000000⟩⟩

def readWord (data : RegU32) : ReadWordBlock := ⟨4, 0, ⟨0x4001, 0, .set 0, data⟩⟩

def readGlobals : GlobalsBlock := ⟨7, 1, 1, 0, 1, 32⟩

/-- The host answers with five bytes, the last four of them in columns that may be anything. -/
def readTrace (data : RegU32) : Trace where
  globals := readGlobals
  reads := [readEcall]
  steps := [.byte readByte, .word (readWord data)]
  others := [⟨⟨1, 0, 0, 0, 1⟩, readEcall.pulledState, []⟩, ⟨readEcall.pushedState, ⟨7, 0, 0, 0, 0⟩, []⟩]

def readMemory (data : RegU32) : ℕ → ℕ → ValU32 := history registers (readTrace data).accesses.reverse

theorem readEcall_satisfied : readEcall.Satisfied where
  decomp := ⟨below_natCast (by decide) (by norm_num), isBit_natCast (by decide), isBit_natCast (by decide),
    by with_unfolding_all (set_option maxRecDepth 100000 in decide)⟩
  verifyRet := below_natCast (by decide) (by norm_num)
  verify := ⟨by decide, by decide, by decide, by decide, by decide, by decide, by decide, by decide, by decide, by decide⟩

theorem readByte_satisfied : readByte.Satisfied where
  lowBit0 := isBit_natCast (by decide)
  lowBit1 := isBit_natCast (by decide)
  lowByte := below_natCast (by decide) (by norm_num)
  highByte := below_natCast (by decide) (by norm_num)
  newByte := below_natCast (by decide) (by norm_num)
  sizeMinus1 := below_natCast (by decide) (by norm_num)
  verify := ⟨by decide, by decide, by decide, by decide⟩

variable (data : RegU32)

theorem readTrace_consistent (data : RegU32) : Consistent (readMemory data) (readTrace data).accesses := by
  have hmemory (a : Access) (ha : a ∈ (readTrace data).accesses) :
      readMemory data a.time a.addr = a.prev ∧ readMemory data (a.time + 1) a.addr = a.data := by
    simp only [Trace.accesses, Trace.cpuRows, readTrace, EcallReadBlock.accesses, accesses, List.map_cons, List.map_nil, List.flatMap_cons,
      List.flatMap_nil, List.cons_append, List.nil_append, List.append_nil, List.mem_cons, List.not_mem_nil, or_false] at ha
    rcases ha with rfl | rfl | rfl | rfl | rfl | rfl
    all_goals exact ⟨rfl, rfl⟩
  exact ⟨fun a ha => (hmemory a ha).1, fun a ha => (hmemory a ha).2,
    fun time addr h => history_succ fun a ha => h a (List.mem_reverse.mp ha)⟩

theorem readTrace_linked : Linked pulledRead pushedRead readEcall.pushedRead (readTrace data).steps
    readEcall.pulledRead := by
  refine ⟨ReadStateArgument.ext ?_ ?_ ?_ ?_, ReadStateArgument.ext ?_ ?_ ?_ ?_, ReadStateArgument.ext ?_ ?_ ?_ ?_⟩
  all_goals rfl

theorem readTrace_balanced : (readTrace data).Balanced := by
  constructor
  · refine coe_eq_coe.mpr ((List.reverse_perm _).symm.trans ?_)
    exact .cons _ (.cons _ (.swap _ _ _))
  · obtain ⟨hfirst, hsecond, hlast⟩ := readTrace_linked data
    have hrotate : List.Perm [readEcall.pushedRead, (ReadStep.byte readByte).pushedRead, (word (readWord data)).pushedRead]
        [readEcall.pulledRead, (ReadStep.byte readByte).pulledRead, (word (readWord data)).pulledRead] := by
      rw [← hfirst, ← hsecond, hlast]
      exact (List.Perm.swap _ _ _).trans (.cons _ (.swap _ _ _)) |>.symm
    exact coe_eq_coe.mpr hrotate

theorem readGlobals_satisfied : readGlobals.Satisfied where
  ceilDivLow := show (1 : Fp).val < 0x10000 by decide
  ceilDivHigh := show (0 : Fp).val < 0x100 by decide
  delta := show (1 : Fp).val < 0x100 by decide
  deltaTimes32 := show (32 : Fp).val < 0x100 by decide
  verify := ⟨by decide, by decide, by decide⟩

set_option maxRecDepth 100000 in
theorem readTrace_satisfied : (readTrace data).Satisfied where
  globals := readGlobals_satisfied
  reads := List.forall_mem_singleton.mpr readEcall_satisfied
  steps := List.forall_mem_cons.mpr ⟨readByte_satisfied, List.forall_mem_singleton.mpr ⟨below_natCast (by decide) (by norm_num)⟩⟩
  lookups := by
    have hlookups : ∀ lag ∈ readEcall.lookups, lag.val < readGlobals.cycleTable.val := by
      intro lag hlag
      simp only [EcallReadBlock.lookups, List.mem_cons, List.not_mem_nil, or_false] at hlag
      rcases hlag with rfl | rfl | rfl | rfl
      all_goals with_unfolding_all decide
    exact List.forall_mem_singleton.mpr hlookups
  stepLookups := by
    have hbyte : (ReadStep.byte readByte).lookup.val < readGlobals.cycleTable.val := by
      with_unfolding_all decide
    have hword : (word (readWord (.set 0))).lookup.val < readGlobals.cycleTable.val := by
      with_unfolding_all decide
    exact List.forall_mem_cons.mpr ⟨hbyte, List.forall_mem_singleton.mpr hword⟩
  others := by
    have hsound (x : OtherRow) (hx : x.accesses = []) : x.Sound := by
      constructor
      all_goals
        intro a ha
        rw [hx] at ha
        exact absurd ha List.not_mem_nil
    exact List.forall_mem_cons.mpr ⟨hsound _ rfl, List.forall_mem_singleton.mpr (hsound _ rfl)⟩

theorem readTrace_accepted : (readTrace data).Accepted (readMemory data) where
  satisfied := readTrace_satisfied data
  balanced := readTrace_balanced data
  decode := List.forall_mem_singleton.mpr ⟨⟨0xc0000000, false, .eany, 0, 0, 0, 0⟩, 9, rfl, by decide⟩
  memory := readTrace_consistent data
  words addr := by
    rw [readMemory, history_zero, registers]
    split_ifs
    all_goals exact ValU32.isWord_of _

theorem readTrace_forward : (readTrace data).Forward := by
  have hread : readEcall.pulledState.cycle.val < readEcall.pushedState.cycle.val := by decide
  have hbefore : (1 : Fp).val < readEcall.pulledState.cycle.val := by decide
  have hbehind : readEcall.pushedState.cycle.val < (7 : Fp).val := by decide
  exact List.forall_mem_cons.mpr ⟨hread, List.forall_mem_cons.mpr ⟨hbefore, List.forall_mem_singleton.mpr hbehind⟩⟩

theorem readTrace_inRange (val : Word) : (readTrace (.set val)).InRange :=
  List.forall_mem_cons.mpr ⟨trivial, List.forall_mem_singleton.mpr (ValU32.isWord_of val)⟩

/-- Where the host answers with a word all is as it should be. -/
theorem host_reads_word : HostReads (readMemory (.set 0x12345678)) (readTrace (.set 0x12345678)) :=
  Trace.host_reads _ _ (readTrace_accepted _) (readTrace_forward _) (readTrace_inRange _)

/-- The host can leave in memory what is no word. -/
theorem host_reads_forged : ¬∀ (t : Trace) (mem : ℕ → ℕ → ValU32), t.Accepted mem → HostReads mem t := by
  intro h
  have hword := (h _ _ (readTrace_accepted ⟨65536, 0⟩)).words 10 0x4001
  have hlow : ((65536 : Fp)).val < 0x10000 := hword.1
  exact absurd hlow (by decide)

end VerifiableCompute.Circuit
