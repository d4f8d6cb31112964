import VerifiableCompute.Circuit.UnitArgument
import VerifiableCompute.Rv32im.Executor

/-! What an instruction of the circuit shares with the others: the accesses to memory, the addresses and registers
that they are made at, the state of the processor and the decoded instruction. A read is current if it takes what
the memory holds at its word address. -/

namespace VerifiableCompute.Circuit

open Lib Rv32im

@[ext] structure MemoryArgument where
  wordAddr : Fp
  cycle : Fp
  dataLow : Fp
  dataHigh : Fp

def MemoryArgument.Current (m : ℕ → Word) (arg : MemoryArgument) : Prop :=
  (⟨arg.dataLow, arg.dataHigh⟩ : ValU32) = .of (m arg.wordAddr.val)

instance instDecidableCurrent (m : ℕ → Word) (arg : MemoryArgument) : Decidable (arg.Current m) := inferInstanceAs (Decidable (_ = _))

structure PhysMemReadWitness where
  wordAddr : Word
  prevCycle : Word
  value : Word

structure PhysMemWriteWitness where
  wordAddr : Word
  prevCycle : Word
  prevValue : Word
  value : Word

@[ext] structure PhysMemReadBlock where
  wordAddr : Reg
  prevCycle : Reg
  data : RegU32

namespace PhysMemReadBlock

def set (wit : PhysMemReadWitness) : PhysMemReadBlock := ⟨wit.wordAddr.toNat, wit.prevCycle.toNat, .set wit.value⟩

def pulled (x : PhysMemReadBlock) : MemoryArgument := ⟨x.wordAddr, x.prevCycle, x.data.low, x.data.high⟩

def pushed (x : PhysMemReadBlock) (cycle : Fp) : MemoryArgument := ⟨x.wordAddr, cycle * 2, x.data.low, x.data.high⟩

theorem data_eq {x : PhysMemReadBlock} {m : ℕ → Word} (h : x.pulled.Current m) {addr : ℕ} (haddr : x.wordAddr = addr)
    (hlt : addr < 2013265921) : x.data.get = .of (m addr) := by
  have hval : x.wordAddr.val = addr := by rw [haddr, ZMod.val_natCast_of_lt hlt]
  rw [← hval]
  exact h

end PhysMemReadBlock

@[ext] structure PhysMemWriteBlock where
  wordAddr : Reg
  prevCycle : Reg
  prevData : RegU32
  data : RegU32

namespace PhysMemWriteBlock

def set (wit : PhysMemWriteWitness) : PhysMemWriteBlock :=
  ⟨wit.wordAddr.toNat, wit.prevCycle.toNat, .set wit.prevValue, .set wit.value⟩

def pulled (x : PhysMemWriteBlock) : MemoryArgument := ⟨x.wordAddr, x.prevCycle, x.prevData.low, x.prevData.high⟩

def pushed (x : PhysMemWriteBlock) (cycle : Fp) : MemoryArgument := ⟨x.wordAddr, cycle * 2 + 1, x.data.low, x.data.high⟩

theorem prevData_eq {x : PhysMemWriteBlock} {m : ℕ → Word} (h : x.pulled.Current m) {addr : ℕ} (haddr : x.wordAddr = addr)
    (hlt : addr < 2013265921) : x.prevData.get = .of (m addr) := by
  have hval : x.wordAddr.val = addr := by rw [haddr, ZMod.val_natCast_of_lt hlt]
  rw [← hval]
  exact h

end PhysMemWriteBlock

inductive Mode | user | supervisor | machine
  deriving DecidableEq

namespace Mode

/-- The number of a mode in the state of the processor. -/
def num : Mode → ℕ
  | user => 0
  | supervisor => 1
  | machine => 3

def regs : Mode → ℕ
  | machine => machineRegs
  | _ => userRegs

theorem regs_lt (mode : Mode) : mode.regs < 0x3ffffc00 := by cases mode <;> decide

/-- The check that the executor makes on the address of a load or a store. -/
def accessible (mode : Mode) (addr : ByteAddr) : Bool := addr ≥ zeroPageEndAddr && decide (mode = machine) || isUserMemory addr

end Mode

/-- One in machine mode. -/
def isMM (mode : Fp) : Fp := (mode - 0) * (mode - 1) * 6⁻¹

/-- The word address of the registers. -/
def regsBase (mode : Fp) : Fp := cond (isMM mode) machineRegs userRegs

theorem inv_six : (6 : Fp)⁻¹ = 1677721601 := inv_eq_of_mul_eq_one_right (by decide)

theorem regsBase_num (mode : Mode) : regsBase mode.num = (mode.regs : ℕ) := by
  rw [regsBase, isMM, inv_six]
  cases mode <;> decide

@[ext] structure AddressDecompose where
  mid14 : RegU16
  low0 : BitReg
  low1 : BitReg

namespace AddressDecompose

def set (val : Word) : AddressDecompose := ⟨(lowHalf val / 4 : ℕ), (val.toNat % 2 : ℕ), (val.toNat / 2 % 2 : ℕ)⟩

section

variable (x : AddressDecompose) (val : ValU32)

def wordAddr : Fp := val.high * 0x4000 + x.mid14

def verify : Prop := x.mid14 * 4 + x.low1 * 2 + x.low0 = val.low

instance instDecidableVerify : Decidable (x.verify val) := inferInstanceAs (Decidable (_ = _))

end

structure Satisfied (x : AddressDecompose) (val : ValU32) : Prop where
  mid14 : RegU16.verify x.mid14
  low0 : BitReg.verify x.low0
  low1 : BitReg.verify x.low1
  verify : x.verify val

theorem Satisfied.eq_set {x : AddressDecompose} {val : Word} (h : x.Satisfied (.of val)) : x = set val := by
  obtain ⟨j, hj, hmid14⟩ := h.mid14.exists_natCast
  obtain ⟨k, hk, hlow0⟩ := h.low0.below.exists_natCast
  obtain ⟨l, hl, hlow1⟩ := h.low1.below.exists_natCast
  have hlow := lowHalf_lt val
  have hverify := h.verify
  rw [AddressDecompose.verify, hmid14, hlow0, hlow1] at hverify
  have hsum : ((j * 4 + l * 2 + k : ℕ) : Fp) = (lowHalf val : ℕ) := by
    push_cast
    exact hverify
  have hnat := natCast_inj_of_lt (by omega) (by omega) hsum
  unfold lowHalf at hnat hlow
  apply AddressDecompose.ext
  · rw [hmid14, set, lowHalf]
    congr 1
    omega
  · rw [hlow0, set]
    congr 1
    omega
  · rw [hlow1, set]
    congr 1
    omega

theorem wordAddr_set (val : Word) : (set val).wordAddr (.of val) = (waddr val : ℕ) := by
  have hsplit : highHalf val * 0x4000 + lowHalf val / 4 = waddr val := by
    unfold highHalf lowHalf waddr
    omega
  rw [← hsplit, Nat.cast_add, Nat.cast_mul]
  rfl

end AddressDecompose

theorem inv_three : (3 : Fp)⁻¹ = 1342177281 := inv_eq_of_mul_eq_one_right (by decide)

structure AddressVerify where
  highSub : RegU16

namespace AddressVerify

def set (val : Word) (mode : ℕ) : AddressVerify :=
  let max := if mode = 3 then 0xffff#32 else 0xbfff#32
  ⟨(max - BitVec.ofNat 32 (highHalf val)).toNat⟩

/-- The highest upper half of an address. -/
def topAddr (mode : Fp) : Fp := cond (mode * 3⁻¹) 0xffff 0xbfff

def verify (x : AddressVerify) (val : ValU32) (mode : Fp) : Prop := topAddr mode - val.high = x.highSub

instance instDecidableVerify (x : AddressVerify) (val : ValU32) (mode : Fp) : Decidable (x.verify val mode) :=
  inferInstanceAs (Decidable (_ = _))

structure Satisfied (x : AddressVerify) (val : ValU32) (mode : Fp) : Prop where
  highSub : RegU16.verify x.highSub
  verify : x.verify val mode

theorem Satisfied.accessible_iff {x : AddressVerify} {val : Word} {mode : Mode} (h : x.Satisfied (.of val) mode.num) :
    mode.accessible val ↔ zeroPageEndAddr ≤ val := by
  obtain ⟨k, hk, hsub⟩ := h.highSub.exists_natCast
  have hhigh := highHalf_lt val
  have hverify := h.verify
  rw [AddressVerify.verify, hsub, sub_eq_iff_eq_add, add_comm] at hverify
  have hsum : topAddr (mode.num : ℕ) = ((highHalf val + k : ℕ) : Fp) := by
    rw [Nat.cast_add]
    exact hverify
  rw [Mode.accessible, isUserMemory]
  cases mode with
  | user =>
    have htop : topAddr ((Mode.user.num : ℕ) : Fp) = (0xbfff : ℕ) := by
      rw [topAddr, inv_three]
      decide
    have hnat := natCast_inj_of_lt (by norm_num) (by omega) (htop.symm.trans hsum)
    have hlt : val < userEndAddr := by
      rw [BitVec.lt_def]
      change val.toNat < 0xc0000000
      unfold highHalf at hnat
      omega
    simp [hlt, userStartAddr]
  | supervisor =>
    have htop : topAddr ((Mode.supervisor.num : ℕ) : Fp) = (1342231893 : ℕ) := by
      rw [topAddr, inv_three]
      decide
    have hnat := natCast_inj_of_lt (by norm_num) (by omega) (htop.symm.trans hsum)
    omega
  | machine => simp +contextual [userStartAddr]

end AddressVerify

@[ext] structure CpuStateArgument where
  cycle : Fp
  pcLow : Fp
  pcHigh : Fp
  mm : Fp
  iCache : Fp

@[ext] structure DecodeArgument where
  iCacheCycle : Fp
  pcLow : Fp
  pcHigh : Fp
  newPcLow : Fp
  newPcHigh : Fp
  rs1 : Fp
  rs2 : Fp
  rd : Fp
  immLow : Fp
  immHigh : Fp
  options : Fp
  deriving DecidableEq

def instKinds : ℕ := 11

/-- The options of an instruction on two registers. -/
def regOptions (out : ℕ) (op : UnitOp) : ℕ := (op.opts * 2 + out) * instKinds + 0

/-- The options of an instruction on a register and an immediate. -/
def immOptions (out : ℕ) (op : UnitOp) : ℕ := (op.opts * 2 + out) * instKinds + 1

def loadOptions (kind : ℕ) : ℕ := kind * instKinds + 2

def storeOptions (kind : ℕ) : ℕ := kind * instKinds + 3

def branchOptions (br out : ℕ) (op : UnitOp) : ℕ := ((op.opts * 2 + out) * 2 + br) * instKinds + 4

/-- The options of an instruction; an invalid one is not decoded. -/
def instOptions : InsnKind → Option ℕ
  | .add => some (regOptions 0 (.addSub .add))
  | .sub => some (regOptions 0 (.addSub .sub))
  | .xor => some (regOptions 0 (.bit .xor))
  | .or => some (regOptions 0 (.bit .or))
  | .and => some (regOptions 0 (.bit .and))
  | .sll => some (regOptions 0 (.shift .ll))
  | .srl => some (regOptions 0 (.shift .rl))
  | .sra => some (regOptions 0 (.shift .ra))
  | .slt => some (regOptions 0 .lt)
  | .sltU => some (regOptions 1 .lt)
  | .addI => some (immOptions 0 (.addSub .add))
  | .xorI => some (immOptions 0 (.bit .xor))
  | .orI => some (immOptions 0 (.bit .or))
  | .andI => some (immOptions 0 (.bit .and))
  | .sllI => some (immOptions 0 (.shift .ll))
  | .srlI => some (immOptions 0 (.shift .rl))
  | .sraI => some (immOptions 0 (.shift .ra))
  | .sltI => some (immOptions 0 .lt)
  | .sltIU => some (immOptions 1 .lt)
  | .lb => some (loadOptions 0)
  | .lh => some (loadOptions 1)
  | .lw => some (loadOptions 2)
  | .lbU => some (loadOptions 3)
  | .lhU => some (loadOptions 4)
  | .sb => some (storeOptions 0)
  | .sh => some (storeOptions 1)
  | .sw => some (storeOptions 2)
  | .beq => some (branchOptions 0 0 (.addSub .sub))
  | .bne => some (branchOptions 1 0 (.addSub .sub))
  | .blt => some (branchOptions 1 0 .lt)
  | .bge => some (branchOptions 0 0 .lt)
  | .bltU => some (branchOptions 1 1 .lt)
  | .bgeU => some (branchOptions 0 1 .lt)
  | .jal => some 5
  | .jalR => some 6
  | .lui => some 7
  | .auipc => some 8
  | .mul => some (regOptions 0 (.mul .ss))
  | .mulH => some (regOptions 1 (.mul .ss))
  | .mulHSU => some (regOptions 1 (.mul .su))
  | .mulHU => some (regOptions 1 (.mul .uu))
  | .div => some (regOptions 0 (.div .s))
  | .divU => some (regOptions 0 (.div .u))
  | .rem => some (regOptions 1 (.div .s))
  | .remU => some (regOptions 1 (.div .u))
  | .eany => some 9
  | .mret => some 10
  | .invalid => none

theorem instOptions_lt {kind : InsnKind} {options : ℕ} (h : options ∈ instOptions kind) : options < 1000 := by
  revert options
  cases kind <;> decide

structure Decoded where
  pc : ByteAddr
  compressed : Bool
  kind : InsnKind
  rs1 : Fin 32
  rs2 : Fin 32
  rd : Fin 32
  imm : Word

def Decoded.nextPc (d : Decoded) : ByteAddr := d.pc + if d.compressed then 2 else 4

/-- What the decoder says about an instruction. -/
def Decoded.argument (d : Decoded) (iCacheCycle : Fp) (options : ℕ) : DecodeArgument where
  iCacheCycle := iCacheCycle
  pcLow := (ValU32.of d.pc).low
  pcHigh := (ValU32.of d.pc).high
  newPcLow := (ValU32.of d.nextPc).low
  newPcHigh := (ValU32.of d.nextPc).high
  rs1 := (d.rs1 : ℕ)
  rs2 := (d.rs2 : ℕ)
  rd := (d.rd : ℕ)
  immLow := (ValU32.of d.imm).low
  immHigh := (ValU32.of d.imm).high
  options := options

def DecodeArgument.Correct (arg : DecodeArgument) (d : Decoded) : Prop :=
  ∃ options ∈ instOptions d.kind, arg = d.argument arg.iCacheCycle options

structure FetchWitness where
  mode : ℕ
  iCacheCycle : Word
  loadCycle : Word
  pc : Word
  nextPc : Word

@[ext] structure FetchBlock where
  iCacheCycle : Reg
  loadCycle : Reg
  mode : Reg
  pc : RegU32
  nextPc : RegU32

def FetchBlock.set (wit : FetchWitness) : FetchBlock :=
  ⟨wit.iCacheCycle.toNat, wit.loadCycle.toNat, wit.mode, .set wit.pc, .set wit.nextPc⟩

structure SourceReg where
  idx : Reg

namespace SourceReg

def set (wordAddr : Word) : SourceReg := ⟨(wordAddr.toNat % 32 : ℕ)⟩

def verify (x : SourceReg) (wordAddr mode : Fp) : Prop := regsBase mode + x.idx = wordAddr

instance instDecidableVerify (x : SourceReg) (wordAddr mode : Fp) : Decidable (x.verify wordAddr mode) := inferInstanceAs (Decidable (_ = _))

end SourceReg

structure DestReg where
  idx : Reg
  isZero : IsZero

namespace DestReg

def set (wordAddr : Word) : DestReg := ⟨(wordAddr.toNat % 32 : ℕ), .set (wordAddr.toNat % 32 : ℕ)⟩

def verify (x : DestReg) (wordAddr mode : Fp) : Prop := regsBase mode + x.isZero.isZero * 64 + x.idx = wordAddr

instance instDecidableVerify (x : DestReg) (wordAddr mode : Fp) : Decidable (x.verify wordAddr mode) := inferInstanceAs (Decidable (_ = _))

structure Satisfied (x : DestReg) (wordAddr mode : Fp) : Prop where
  isZero : x.isZero.Satisfied x.idx
  verify : x.verify wordAddr mode

end DestReg

/-- The word that a register is written to; for the zero register a word that is never read from. -/
def Mode.dest (mode : Mode) (idx : Fin 32) : ℕ := if idx = 0 then mode.regs + regMax * 2 else mode.regs + idx

theorem natCast_fin_eq_zero_iff (idx : Fin 32) : (((idx : ℕ) : Fp) = 0) ↔ idx = 0 := by
  constructor
  · intro h
    have hlt := idx.isLt
    have hnat := natCast_inj_of_lt (by omega) (by norm_num) (h.trans Nat.cast_zero.symm)
    exact Fin.ext hnat
  · rintro rfl
    exact Nat.cast_zero

theorem DestReg.Satisfied.wordAddr_eq {x : DestReg} {wordAddr : Fp} {mode : Mode} (h : x.Satisfied wordAddr mode.num) {idx : Fin 32}
    (hidx : x.idx = (idx : ℕ)) : wordAddr = (mode.dest idx : ℕ) := by
  have hzero := IsZero.satisfied_iff.mp h.isZero
  have hverify := h.verify
  rw [DestReg.verify, regsBase_num, hzero, hidx, IsZero.set] at hverify
  rw [← hverify, Mode.dest]
  by_cases hne : idx = 0
  · rw [if_pos ((natCast_fin_eq_zero_iff idx).mpr hne), if_pos hne, hne]
    change (mode.regs : Fp) + 1 * 64 + ((0 : ℕ) : Fp) = ((mode.regs + 64 : ℕ) : Fp)
    push_cast
    ring
  · rw [if_neg (mt (natCast_fin_eq_zero_iff idx).mp hne), if_neg hne]
    push_cast
    ring

/-- Two source registers; a register that is named twice is read once. -/
structure DualReg where
  sameReg : BitReg
  readRs1 : PhysMemReadBlock
  readRs2 : PhysMemReadBlock
  rs1Idx : Reg
  rs2Idx : Reg
  rs2Data : RegU32

namespace DualReg

def getRS1 (x : DualReg) : ValU32 := x.readRs1.data.get

def getRS2 (x : DualReg) : ValU32 := x.rs2Data.get

def set (rs1Wit rs2Wit : PhysMemReadWitness) : DualReg :=
  let same := rs1Wit.wordAddr.toNat % 32 = rs2Wit.wordAddr.toNat % 32
  { sameReg := if same then 1 else 0
    readRs1 := .set rs1Wit
    readRs2 := .set rs2Wit
    rs1Idx := (rs1Wit.wordAddr.toNat % 32 : ℕ)
    rs2Idx := (rs2Wit.wordAddr.toNat % 32 : ℕ)
    rs2Data := .set (if same then rs1Wit.value else rs2Wit.value) }

structure verify (x : DualReg) (mode : Fp) : Prop where
  rs1 : regsBase mode + x.rs1Idx = x.readRs1.wordAddr
  rs2 : regsBase mode + x.sameReg * 64 + x.rs2Idx = x.readRs2.wordAddr
  same : x.sameReg * (x.rs1Idx - x.rs2Idx) = 0
  low : cond x.sameReg x.readRs1.data.low x.readRs2.data.low = x.rs2Data.low
  high : cond x.sameReg x.readRs1.data.high x.readRs2.data.high = x.rs2Data.high

structure Satisfied (x : DualReg) (mode : Fp) : Prop where
  sameReg : BitReg.verify x.sameReg
  verify : x.verify mode

variable {x : DualReg} {mode : Mode} {m : ℕ → Word} {rs1 rs2 : Fin 32}

theorem reg_lt (mode : Mode) (idx : Fin 32) : mode.regs + idx < 2013265921 := by
  have := mode.regs_lt
  have := idx.isLt
  omega

theorem Satisfied.getRS1_eq (h : x.Satisfied mode.num) (hread : x.readRs1.pulled.Current m) (hrs1 : x.rs1Idx = (rs1 : ℕ)) :
    x.getRS1 = .of (m (mode.regs + rs1)) := by
  refine PhysMemReadBlock.data_eq hread ?_ (reg_lt mode rs1)
  rw [← h.verify.rs1, regsBase_num, hrs1, Nat.cast_add]

theorem Satisfied.getRS2_eq (h : x.Satisfied mode.num) (hread1 : x.readRs1.pulled.Current m) (hread2 : x.readRs2.pulled.Current m)
    (hrs1 : x.rs1Idx = (rs1 : ℕ)) (hrs2 : x.rs2Idx = (rs2 : ℕ)) : x.getRS2 = .of (m (mode.regs + rs2)) := by
  obtain ⟨haddr1, haddr2, hsame, hlow, hhigh⟩ := h.verify
  obtain hbit | hbit := isBit_iff.mp h.sameReg
  · rw [hbit, cond_zero] at hlow hhigh
    rw [hbit, zero_mul, add_zero, regsBase_num, hrs2, ← Nat.cast_add] at haddr2
    refine Eq.trans ?_ (PhysMemReadBlock.data_eq hread2 haddr2.symm (reg_lt mode rs2))
    exact ValU32.ext hlow.symm hhigh.symm
  · rw [hbit, cond_one] at hlow hhigh
    rw [hbit, one_mul, sub_eq_zero, hrs1, hrs2] at hsame
    have hidx : rs1 = rs2 := Fin.ext (natCast_inj_of_lt (by have := rs1.isLt; omega) (by have := rs2.isLt; omega) hsame)
    rw [← hidx, ← h.getRS1_eq hread1 hrs1]
    exact ValU32.ext hlow.symm hhigh.symm

end DualReg

end VerifiableCompute.Circuit
