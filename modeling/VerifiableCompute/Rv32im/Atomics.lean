import VerifiableCompute.Lib.RiscVAtomic
import VerifiableCompute.Rv32im.MachineView

/-! The emulation of atomic instructions by the kernel. User mode traps on them; the handler reads the instruction
at the saved program counter, works on the saved registers and on user memory, and returns. The reservation of a load
is kept in two words of the kernel. -/

namespace VerifiableCompute.Rv32im

open Lib RiscVAtomic MachineView Nat Function

/-- Where the kernel keeps the reserved address and whether there is one. -/
structure Statics where
  ilrsc : ByteAddr
  ilrscSet : ByteAddr
  distinct : ilrsc ≠ ilrscSet
  aligned : isAligned ilrsc ∧ isAligned ilrscSet
  kernel : isKernelMemory ilrsc ∧ isKernelMemory ilrscSet

inductive KernelPanic
  | addressMisaligned (addr : ByteAddr)
  | kernelAddress (addr : ByteAddr)
  | unimplementedAtomic (funct3 funct5 : Word)
  | illegalInstruction (half : BitVec 16)
  | instructionNotAligned (half : BitVec 16)
  | illegalInstructionOrTrap (mepc : ByteAddr) (instruction : Word)

/-- Why the handler does not return: it panics, or an access of its own traps, which ends the execution. -/
inductive KernelFault
  | panicked (why : KernelPanic)
  | trapped (addr : ByteAddr)

abbrev Kernel := StateT MachineView (Except KernelFault)

namespace Kernel

variable (statics : Statics)

/-- In machine mode the words from the end of the zero page on are accessible. -/
def readVolatile (addr : ByteAddr) : Kernel Word := fun v =>
  if addr < zeroPageEndAddr || !isAligned addr then .error (.trapped addr) else .ok (v.words (waddr addr), v)

def readVolatileHalf (addr : ByteAddr) : Kernel (BitVec 16) := fun v =>
  if addr < zeroPageEndAddr || addr.toNat % 2 ≠ 0 then .error (.trapped addr)
  else .ok ((v.words (waddr addr) >>> byteShift addr).setWidth 16, v)

def writeVolatile (addr : ByteAddr) (word : Word) : Kernel Unit := fun v =>
  if addr < zeroPageEndAddr || !isAligned addr then .error (.trapped addr) else .ok ((), v.store (waddr addr) word)

def panic {α : Type} (why : KernelPanic) : Kernel α := fun _ => .error (.panicked why)

/-- Register zero reads as zero. -/
def getUreg (idx : Word) : Kernel Word := if idx = 0 then pure 0 else readVolatile (userRegsAddr + 4 * idx)

/-- Register zero is not written. -/
def setUreg (idx word : Word) : Kernel Unit := if idx = 0 then pure () else writeVolatile (userRegsAddr + 4 * idx) word

/-- Back to user mode, behind the saved program counter. -/
def mret : Kernel Unit := do
  let mepc ← readVolatile mepcAddr
  fun v => if mepc < zeroPageEndAddr then .error (.trapped mepc) else .ok ((), { v with pc := mepc + wordSize, mode := 0 })

/-- The address in a register, which has to be that of a word outside the kernel. -/
def validAddr (rs1 : Word) : Kernel ByteAddr := do
  let addr ← getUreg rs1
  if !isAligned addr then panic (.addressMisaligned addr)
  else if addr ≥ kernelStartAddr then panic (.kernelAddress addr)
  else pure addr

def validateAndRead (rs1 : Word) : Kernel (ByteAddr × Word) := do
  let addr ← validAddr rs1
  let value ← readVolatile addr
  return (addr, value)

def atomicOp (rd rs1 rs2 : Word) (op : Word → Word → Word) : Kernel Unit := do
  let addr ← validAddr rs1
  let current ← readVolatile addr
  let operand ← getUreg rs2
  writeVolatile addr (op current operand)
  setUreg rd current
  mret

def emulateLrW (rd rs1 : Word) : Kernel Unit := do
  let (addr, value) ← validateAndRead rs1
  writeVolatile statics.ilrsc addr
  writeVolatile statics.ilrscSet 1
  setUreg rd value
  mret

def emulateScW (rd rs1 rs2 : Word) : Kernel Unit := do
  let (addr, _) ← validateAndRead rs1
  let storeValue ← getUreg rs2
  let reservedAddr ← readVolatile statics.ilrsc
  let reservationValid ← readVolatile statics.ilrscSet
  if reservationValid = 1 ∧ reservedAddr = addr then
    writeVolatile addr storeValue
    writeVolatile statics.ilrscSet 0
    setUreg rd 0
  else
    writeVolatile statics.ilrscSet 0
    setUreg rd 1
  mret

/-- The operations, by the five highest bits of the instruction. -/
def amoOf (funct5 : Word) : Option (Word → Word → Word) :=
  if funct5 = 0x00 then some fun current add => current + add
  else if funct5 = 0x01 then some fun _ swap => swap
  else if funct5 = 0x04 then some fun current xor => current ^^^ xor
  else if funct5 = 0x08 then some fun current or => current ||| or
  else if funct5 = 0x0c then some fun current and => current &&& and
  else if funct5 = 0x10 then some fun current compare => if current.slt compare then current else compare
  else if funct5 = 0x14 then some fun current compare => if compare.slt current then current else compare
  else if funct5 = 0x18 then some fun current compare => if current < compare then current else compare
  else if funct5 = 0x1c then some fun current compare => if compare < current then current else compare
  else none

def emulateAtomicInstruction (rd rs1 rs2 funct3 funct7 : Word) : Kernel Unit :=
  let funct5 := (funct7 &&& 0b1111100) >>> 2
  if funct3 = 0x2 then
    match amoOf funct5 with
    | some op => atomicOp rd rs1 rs2 op
    | none =>
      if funct5 = 0x02 then emulateLrW statics rd rs1
      else if funct5 = 0x03 then emulateScW statics rd rs1 rs2
      else panic (.unimplementedAtomic funct3 funct5)
  else panic (.unimplementedAtomic funct3 funct5)

/-- What the trap handler does with the instruction it has read. -/
def emulateInstruction (mepc instruction : Word) : Kernel Unit :=
  let opcode := instruction &&& 0x0000007f
  let rd := (instruction &&& 0x00000f80) >>> 7
  let rs1 := (instruction &&& 0x000f8000) >>> 15
  let rs2 := (instruction &&& 0x01f00000) >>> 20
  let funct3 := (instruction &&& 0x00007000) >>> 12
  let funct7 := (instruction &&& 0xfe000000) >>> 25
  if opcode = 0x2f then emulateAtomicInstruction statics rd rs1 rs2 funct3 funct7
  else if instruction = 0x0ff0000f ∨ instruction = 0x0000100f ∨ instruction = 0x0330000f ∨ instruction = 0x0550000f then mret
  else panic (.illegalInstructionOrTrap mepc instruction)

/-- The instruction is read in two halves, the second one only if the first is that of an instruction of four bytes. -/
def trapHandler : Kernel Unit := do
  let mepc ← readVolatile mepcAddr
  let instructionH ← readVolatileHalf mepc
  if instructionH &&& 0x3 ≠ 0x3 then panic (.illegalInstruction instructionH)
  else if mepc % 4 ≠ 0 then panic (.instructionNotAligned instructionH)
  else
    let instructionL ← readVolatileHalf (mepc + 2)
    emulateInstruction statics mepc (instructionL.setWidth 32 <<< 16 ||| instructionH.setWidth 32)

end Kernel

section Fields

variable (word : Word)

theorem field_eq {low width : ℕ} (h : low + width ≤ 32) :
    (word &&& BitVec.ofNat 32 ((2 ^ width - 1) * 2 ^ low)) >>> low = (word.extractLsb' low width).setWidth 32 := by
  refine BitVec.eq_of_toNat_eq ?_
  have hmask : (2 ^ width - 1) * 2 ^ low < 2 ^ 32 := by
    have hpow : 2 ^ width * 2 ^ low ≤ 2 ^ 32 := by
      rw [← pow_add]
      exact Nat.pow_le_pow_right (by norm_num) (by omega)
    have hpos : 0 < 2 ^ low := by positivity
    rw [Nat.sub_mul]
    omega
  have hle : 2 ^ width ≤ 2 ^ 32 := Nat.pow_le_pow_right (by norm_num) (by omega)
  have hlt : word.toNat / 2 ^ low % 2 ^ width < 2 ^ 32 := (mod_lt _ (by positivity)).trans_le hle
  rw [BitVec.toNat_ushiftRight, BitVec.toNat_and, BitVec.toNat_ofNat, mod_eq_of_lt hmask, BitVec.toNat_setWidth,
    BitVec.extractLsb'_toNat, shiftRight_and_distrib, shiftRight_eq_div_pow, shiftRight_eq_div_pow,
    Nat.mul_div_cancel _ (by positivity), and_two_pow_sub_one_eq_mod, mod_eq_of_lt hlt]

theorem funct5_eq : ((word &&& 0xfe000000) >>> 25 &&& 0b1111100) >>> 2 = (word.extractLsb' 27 5).setWidth 32 := by
  have houter := field_eq (word.extractLsb' 25 7 |>.setWidth 32) (show 2 + 5 ≤ 32 by norm_num)
  have hinner := field_eq word (show 25 + 7 ≤ 32 by norm_num)
  refine ((congrArg (fun w : Word => (w &&& 0b1111100) >>> 2) hinner).trans houter).trans ?_
  refine BitVec.eq_of_toNat_eq ?_
  simp only [BitVec.toNat_setWidth, BitVec.extractLsb'_toNat, shiftRight_eq_div_pow]
  omega

theorem opcode_eq : word &&& 0x0000007f = 0x2f ↔ word.extractLsb' 0 7 = 0b0101111 := by
  have hfield := field_eq word (show 0 + 7 ≤ 32 by norm_num)
  rw [BitVec.ushiftRight_zero] at hfield
  have hmask : word &&& 0x0000007f = (word.extractLsb' 0 7).setWidth 32 := hfield
  rw [hmask, ← BitVec.toNat_inj, ← BitVec.toNat_inj, BitVec.toNat_setWidth]
  have hlt := (word.extractLsb' 0 7).isLt
  rw [mod_eq_of_lt (by omega)]
  rfl

theorem funct3_eq : (word &&& 0x00007000) >>> 12 = 0x2 ↔ word.extractLsb' 12 3 = 0b010 := by
  have hmask : (word &&& 0x00007000) >>> 12 = (word.extractLsb' 12 3).setWidth 32 :=
    field_eq word (show 12 + 3 ≤ 32 by norm_num)
  rw [hmask, ← BitVec.toNat_inj, ← BitVec.toNat_inj, BitVec.toNat_setWidth]
  have hlt := (word.extractLsb' 12 3).isLt
  rw [mod_eq_of_lt (by omega)]
  rfl

/-- The five bits of an operation. -/
def opCode : Op → BitVec 5
  | .lr => 0x02
  | .sc => 0x03
  | .amo .swap => 0x01
  | .amo .add => 0x00
  | .amo .xor => 0x04
  | .amo .and => 0x0c
  | .amo .or => 0x08
  | .amo .min => 0x10
  | .amo .max => 0x14
  | .amo .minu => 0x18
  | .amo .maxu => 0x1c

theorem eq_opCode {funct5 : BitVec 5} {op : Op} (h : Op.decode funct5 = some op) : funct5 = opCode op := by
  have hall : ∀ f : BitVec 5, ∀ o ∈ Op.decode f, f = opCode o := by decide
  exact hall funct5 op h

/-- The handler's comparisons choose the same word as the smaller or larger number, also where both are equal. -/
theorem amoOf_opCode (op : Amo) : Kernel.amoOf ((opCode (.amo op)).setWidth 32) = some op.eval := by
  cases op with
  | min =>
    refine congrArg some (funext fun x => funext fun y => ?_)
    have hiff : x.slt y = true ↔ x.toInt < y.toInt := BitVec.slt_iff_toInt_lt
    rw [Amo.eval]
    split_ifs with hlt hle hle
    · rfl
    · exact absurd (hiff.mp hlt).le hle
    · exact (BitVec.eq_of_toInt_eq (le_antisymm hle (not_lt.mp fun h => hlt (hiff.mpr h)))).symm
    · rfl
  | max =>
    refine congrArg some (funext fun x => funext fun y => ?_)
    have hiff : y.slt x = true ↔ y.toInt < x.toInt := BitVec.slt_iff_toInt_lt
    rw [Amo.eval]
    split_ifs with hlt hle hle
    · rfl
    · exact absurd (hiff.mp hlt).le hle
    · exact BitVec.eq_of_toInt_eq (le_antisymm hle (not_lt.mp fun h => hlt (hiff.mpr h)))
    · rfl
  | minu =>
    refine congrArg some (funext fun x => funext fun y => ?_)
    rw [Amo.eval]
    split_ifs with hlt hle hle
    · rfl
    · exact absurd (Nat.le_of_lt hlt) hle
    · exact (BitVec.eq_of_toNat_eq (le_antisymm hle (not_lt.mp hlt))).symm
    · rfl
  | maxu =>
    refine congrArg some (funext fun x => funext fun y => ?_)
    rw [Amo.eval]
    split_ifs with hlt hle hle
    · rfl
    · exact absurd (Nat.le_of_lt hlt) hle
    · exact BitVec.eq_of_toNat_eq (le_antisymm hle (not_lt.mp hlt))
    · rfl
  | _ => rfl

end Fields

/-- The register file of the user, in the words that the kernel reads it from. -/
def userRegWord (r : Reg) : ℕ := userRegs + r.toNat

namespace MachineView

variable (v : MachineView)

/-- A word of user memory, at an address that is a multiple of four. -/
def userWord (addr : ByteAddr) : Word := if isUserMemory addr ∧ isAligned addr then v.words (waddr addr) else 0

def setUserReg (r : Reg) (word : Word) : MachineView := if r = 0 then v else v.store (userRegWord r) word

end MachineView

namespace Statics

variable (statics : Statics)

/-- The reservation that the two words stand for. -/
def reservation (words : ℕ → Word) : Option Word :=
  if words (waddr statics.ilrscSet) = 1 then some (words (waddr statics.ilrsc)) else none

def hart (v : MachineView) : Hart := ⟨v.pc, fun r => v.words (userRegWord r), v.userWord, statics.reservation v.words⟩

/-- Where the handler may write. -/
def Writable (addr : ℕ) : Prop :=
  IsUserWord addr ∨ (∃ r, addr = userRegWord r) ∨ addr = waddr statics.ilrsc ∨ addr = waddr statics.ilrscSet

end Statics

section Places

variable {addr addr' : ByteAddr} (statics : Statics) (v : MachineView) (word : Word)

theorem waddr_user (h : isUserMemory addr) : 0x4000 ≤ waddr addr ∧ waddr addr < 0x30000000 := by
  have h := of_decide_eq_true h
  have hlow : 0x10000 ≤ addr.toNat := h.1
  have hhigh : addr.toNat < 0xc0000000 := h.2
  unfold waddr
  omega

theorem waddr_kernel (h : isKernelMemory addr) : 0x30000000 ≤ waddr addr ∧ waddr addr < 0x3fc00000 := by
  have h := of_decide_eq_true h
  have hlow : 0xc0000000 ≤ addr.toNat := h.1
  have hhigh : addr.toNat < 0xff000000 := h.2
  unfold waddr
  omega

theorem userRegWord_range (r : Reg) : 0x3fffc020 ≤ userRegWord r ∧ userRegWord r < 0x3fffc040 := by
  have hr : r.toNat < 32 := r.isLt
  have hregs : userRegs = 0x3fffc020 := rfl
  unfold userRegWord
  omega

theorem userRegWord_inj {r r' : Reg} (h : userRegWord r = userRegWord r') : r = r' :=
  BitVec.eq_of_toNat_eq (Nat.add_left_cancel h)

theorem waddr_inj (h : isAligned addr) (h' : isAligned addr') (heq : waddr addr = waddr addr') : addr = addr' := by
  have h : addr.toNat % 4 = 0 := of_decide_eq_true h
  have h' : addr'.toNat % 4 = 0 := of_decide_eq_true h'
  unfold waddr at heq
  exact BitVec.eq_of_toNat_eq (by omega)

theorem waddr_mepc : waddr mepcAddr = 0x3fffc080 := rfl

theorem not_lt_zeroPage (h : isUserMemory addr ∨ isKernelMemory addr) : ¬addr < zeroPageEndAddr := by
  intro hlt
  have hlt : addr.toNat < 0x10000 := hlt
  rcases h with h | h
  · have := (waddr_user h).1
    unfold waddr at this
    omega
  · have := (waddr_kernel h).1
    unfold waddr at this
    omega

theorem hart_store_user (h : isUserMemory addr) (ha : isAligned addr) :
    statics.hart (v.store (waddr addr) word) = (statics.hart v).store addr word := by
  have hrange := waddr_user h
  have hset := waddr_kernel statics.kernel.2
  have haddr := waddr_kernel statics.kernel.1
  have hregs : (fun r => (v.store (waddr addr) word).words (userRegWord r)) = fun r => v.words (userRegWord r) := by
    funext r
    have := userRegWord_range r
    exact v.store_words_of_ne word (by omega)
  have hmemory : (v.store (waddr addr) word).userWord = update v.userWord addr word := by
    funext a
    by_cases heq : a = addr
    · subst heq
      rw [update_self, userWord, if_pos ⟨h, ha⟩, store_words_self]
    · rw [update_of_ne heq, userWord, userWord]
      split_ifs with huser
      · exact v.store_words_of_ne word fun hwaddr => heq (waddr_inj huser.2 ha hwaddr)
      · rfl
  have hreservation : statics.reservation (v.store (waddr addr) word).words = statics.reservation v.words := by
    unfold Statics.reservation
    rw [v.store_words_of_ne word (by omega), v.store_words_of_ne word (by omega)]
  unfold Statics.hart
  rw [hregs, hmemory, hreservation]
  rfl

theorem hart_setUserReg (r : Reg) : statics.hart (v.setUserReg r word) = (statics.hart v).write r word := by
  unfold setUserReg Hart.write
  split_ifs with hzero
  · rfl
  · have hrange := userRegWord_range r
    have hset := waddr_kernel statics.kernel.2
    have haddr := waddr_kernel statics.kernel.1
    have hregs : (fun r' => (v.store (userRegWord r) word).words (userRegWord r')) =
        update (fun r' => v.words (userRegWord r')) r word := by
      funext r'
      by_cases heq : r' = r
      · rw [heq, update_self, store_words_self]
      · rw [update_of_ne heq]
        exact v.store_words_of_ne word fun h => heq (userRegWord_inj h)
    have hmemory : (v.store (userRegWord r) word).userWord = v.userWord := by
      funext a
      unfold userWord
      split_ifs with huser
      · have := waddr_user huser.1
        exact v.store_words_of_ne word (by omega)
      · rfl
    have hreservation : statics.reservation (v.store (userRegWord r) word).words = statics.reservation v.words := by
      unfold Statics.reservation
      rw [v.store_words_of_ne word (by omega), v.store_words_of_ne word (by omega)]
    unfold Statics.hart
    rw [hregs, hmemory, hreservation]
    rfl

theorem hart_store_kernel (h : isKernelMemory addr) : statics.hart (v.store (waddr addr) word) =
    (statics.hart v).reserve (statics.reservation (v.store (waddr addr) word).words) := by
  have hrange := waddr_kernel h
  have hregs : (fun r => (v.store (waddr addr) word).words (userRegWord r)) = fun r => v.words (userRegWord r) := by
    funext r
    have := userRegWord_range r
    exact v.store_words_of_ne word (by omega)
  have hmemory : (v.store (waddr addr) word).userWord = v.userWord := by
    funext a
    unfold userWord
    split_ifs with huser
    · have := waddr_user huser.1
      exact v.store_words_of_ne word (by omega)
    · rfl
  unfold Statics.hart
  rw [hregs, hmemory]
  rfl

theorem statics_ne : waddr statics.ilrsc ≠ waddr statics.ilrscSet :=
  fun h => statics.distinct (waddr_inj statics.aligned.1 statics.aligned.2 h)

theorem hart_reserve : statics.hart ((v.store (waddr statics.ilrsc) word).store (waddr statics.ilrscSet) 1) =
    (statics.hart v).reserve (some word) := by
  rw [hart_store_kernel statics _ _ statics.kernel.2, hart_store_kernel statics _ _ statics.kernel.1]
  have hreserved : statics.reservation ((v.store (waddr statics.ilrsc) word).store (waddr statics.ilrscSet) 1).words = some word := by
    unfold Statics.reservation
    rw [store_words_self, if_pos rfl, store_words_of_ne _ _ (statics_ne statics), store_words_self]
  rw [hreserved]
  rfl

theorem hart_clear : statics.hart (v.store (waddr statics.ilrscSet) 0) = (statics.hart v).reserve none := by
  rw [hart_store_kernel statics _ _ statics.kernel.2]
  have hnone : statics.reservation (v.store (waddr statics.ilrscSet) 0).words = none := by
    unfold Statics.reservation
    rw [store_words_self, if_neg (by decide)]
  rw [hnone]

end Places

namespace Kernel

open Observation (bind_ok)

section Steps

variable {addr : ByteAddr} {v : MachineView}

theorem readVolatile_ok (h : ¬addr < zeroPageEndAddr) (ha : isAligned addr) : readVolatile addr v = .ok (v.words (waddr addr), v) := by
  refine if_neg ?_
  rw [ha]
  simpa using h

theorem writeVolatile_ok (h : ¬addr < zeroPageEndAddr) (ha : isAligned addr) (word : Word) :
    writeVolatile addr word v = .ok ((), v.store (waddr addr) word) := by
  refine if_neg ?_
  rw [ha]
  simpa using h

theorem userRegAddr (r : Reg) : waddr (userRegsAddr + 4 * r.setWidth 32) = userRegWord r ∧
    ¬userRegsAddr + 4 * r.setWidth 32 < zeroPageEndAddr ∧ isAligned (userRegsAddr + 4 * r.setWidth 32) := by
  have hr : r.toNat < 32 := r.isLt
  have hnat : (userRegsAddr + 4 * r.setWidth 32 : ByteAddr).toNat = 0xffff0080 + 4 * r.toNat := by
    have hbase : userRegsAddr.toNat = 0xffff0080 := rfl
    have hfour : (4 : ByteAddr).toNat = 4 := rfl
    rw [BitVec.toNat_add, BitVec.toNat_mul, BitVec.toNat_setWidth, hbase, hfour]
    omega
  refine ⟨?_, fun hlt => ?_, decide_eq_true ?_⟩
  · have hregs : userRegs = 0x3fffc020 := rfl
    unfold waddr userRegWord
    omega
  · have hlt : (userRegsAddr + 4 * r.setWidth 32 : ByteAddr).toNat < 0x10000 := hlt
    omega
  · omega

theorem reg_eq_zero_iff (r : Reg) : (r.setWidth 32 : Word) = 0 ↔ r = 0 := by
  have hr : r.toNat < 32 := r.isLt
  rw [← BitVec.toNat_inj, ← BitVec.toNat_inj, BitVec.toNat_setWidth, mod_eq_of_lt (by omega)]
  rfl

variable (statics : Statics)

theorem getUreg_ok (r : Reg) : getUreg (r.setWidth 32) v = .ok ((statics.hart v).read r, v) := by
  obtain ⟨hword, hzero, haligned⟩ := userRegAddr r
  unfold getUreg Hart.read
  by_cases hr : r = 0
  · rw [if_pos ((reg_eq_zero_iff r).mpr hr), if_pos hr]
    rfl
  · rw [if_neg (mt (reg_eq_zero_iff r).mp hr), if_neg hr, readVolatile_ok hzero haligned, hword]
    rfl

theorem setUreg_ok (r : Reg) (word : Word) : setUreg (r.setWidth 32) word v = .ok ((), v.setUserReg r word) := by
  obtain ⟨hword, hzero, haligned⟩ := userRegAddr r
  unfold setUreg setUserReg
  by_cases hr : r = 0
  · rw [if_pos ((reg_eq_zero_iff r).mpr hr), if_pos hr]
    rfl
  · rw [if_neg (mt (reg_eq_zero_iff r).mp hr), if_neg hr, writeVolatile_ok hzero haligned, hword]

theorem mret_ok (h : ¬v.words (waddr mepcAddr) < zeroPageEndAddr) :
    mret v = .ok ((), { v with pc := v.words (waddr mepcAddr) + wordSize, mode := 0 }) := by
  rw [mret, bind_ok (readVolatile_ok (by decide) (by decide))]
  exact if_neg h

variable {r : Reg}

section

variable (h : isUserMemory ((statics.hart v).read r)) (ha : isAligned ((statics.hart v).read r))

include h ha

theorem validAddr_ok : validAddr (r.setWidth 32) v = .ok ((statics.hart v).read r, v) := by
  have hkernel : ¬(statics.hart v).read r ≥ kernelStartAddr := fun hge => by
    have hlt : (statics.hart v).read r < kernelStartAddr := (of_decide_eq_true h).2
    exact absurd hlt (BitVec.not_lt.mpr hge)
  rw [validAddr, bind_ok (getUreg_ok statics r), if_neg (by rw [ha]; decide), if_neg hkernel]
  rfl

theorem validateAndRead_ok :
    validateAndRead (r.setWidth 32) v = .ok (((statics.hart v).read r, v.words (waddr ((statics.hart v).read r))), v) := by
  rw [validateAndRead, bind_ok (validAddr_ok statics h ha), bind_ok (readVolatile_ok (not_lt_zeroPage (.inl h)) ha)]
  rfl

end

theorem memory_eq (h : isUserMemory addr) (ha : isAligned addr) :
    v.words (waddr addr) = (statics.hart v).memory addr := (if_pos ⟨h, ha⟩).symm

end Steps

section Instructions

variable (statics : Statics) {v v' v'' : MachineView}

/-- Only words change that the handler may write. -/
def Within (v v' : MachineView) : Prop := ∀ addr, ¬statics.Writable addr → v'.words addr = v.words addr

variable {statics}

theorem Within.trans (h : Within statics v v') (h' : Within statics v' v'') : Within statics v v'' :=
  fun addr haddr => (h' addr haddr).trans (h addr haddr)

variable (statics v) in
theorem within_store {addr : ℕ} (h : statics.Writable addr) (word : Word) : Within statics v (v.store addr word) :=
  fun _ ha => v.store_words_of_ne word fun heq => ha (heq ▸ h)

theorem within_setUserReg (r : Reg) (word : Word) : Within statics v (v.setUserReg r word) := by
  unfold setUserReg
  split_ifs
  · exact fun _ _ => rfl
  · exact within_store statics v (.inr (.inl ⟨r, rfl⟩)) word

theorem mepc_not_writable : ¬statics.Writable (waddr mepcAddr) := by
  have hset := waddr_kernel statics.kernel.2
  have haddr := waddr_kernel statics.kernel.1
  have hend : waddr userEndAddr = 0x30000000 := rfl
  rw [waddr_mepc]
  rintro (huser | ⟨r, hr⟩ | h | h)
  · have := huser.2
    omega
  · have := userRegWord_range r
    omega
  · omega
  · omega

variable (statics) in
/-- The handler returns to user mode, with this hart, and has kept every other word. -/
structure Returns (x : Kernel Unit) (v : MachineView) (h : Hart) (v' : MachineView) : Prop where
  run : x v = .ok ((), v')
  hart : statics.hart v' = h
  mode : v'.mode = 0
  within : Within statics v v'

/-- The last steps: a register is written, and the handler returns. -/
theorem setUreg_mret (r : Reg) (word : Word) {w : MachineView} (hw : Within statics v w)
    (hmepc : ¬v.words (waddr mepcAddr) < zeroPageEndAddr) :
    ∃ v', (setUreg (r.setWidth 32) word >>= fun _ => mret) w = .ok ((), v') ∧
      statics.hart v' = (((statics.hart w).goto (v.words (waddr mepcAddr))).write r word).next ∧ v'.mode = 0 ∧ Within statics v v' := by
  have hwithin := hw.trans (within_setUserReg r word)
  have hsaved := hwithin _ mepc_not_writable
  refine ⟨_, (bind_ok (setUreg_ok r word)).trans (mret_ok (by rwa [hsaved])), ?_, rfl, hwithin⟩
  have hhart := hart_setUserReg statics w word r
  rw [hsaved, ← Hart.goto_write, Hart.goto_next, ← hhart]
  rfl

section Valid

variable {rd rs1 rs2 : Reg} (haddr : isUserMemory ((statics.hart v).read rs1)) (haligned : isAligned ((statics.hart v).read rs1))
  (hmepc : ¬v.words (waddr mepcAddr) < zeroPageEndAddr)

include haddr haligned hmepc

theorem atomicOp_returns (op : Amo) : ∃ v', Returns statics (atomicOp (rd.setWidth 32) (rs1.setWidth 32) (rs2.setWidth 32) op.eval) v
    (((statics.hart v).goto (v.words (waddr mepcAddr))).exec ⟨.amo op, rd, rs1, rs2⟩) v' := by
  have hzero := not_lt_zeroPage (.inl haddr)
  have hwithin := within_store statics v (.inl (Risc0Machine.isUserWord_of_isUserMemory haddr))
    (op.eval (v.words (waddr ((statics.hart v).read rs1))) ((statics.hart v).read rs2))
  obtain ⟨v', hrun, hhart, hmode, hkept⟩ := setUreg_mret rd (v.words (waddr ((statics.hart v).read rs1))) hwithin hmepc
  refine ⟨v', ?_, ?_, hmode, hkept⟩
  · rw [atomicOp, bind_ok (validAddr_ok statics haddr haligned), bind_ok (readVolatile_ok hzero haligned),
      bind_ok (getUreg_ok statics rs2), bind_ok (writeVolatile_ok hzero haligned _)]
    exact hrun
  · rw [hhart, hart_store_user statics v _ haddr haligned, memory_eq statics haddr haligned]
    rfl

theorem emulateLrW_returns : ∃ v', Returns statics (emulateLrW statics (rd.setWidth 32) (rs1.setWidth 32)) v
    (((statics.hart v).goto (v.words (waddr mepcAddr))).exec ⟨.lr, rd, rs1, rs2⟩) v' := by
  have hwithin := (within_store statics v (.inr (.inr (.inl rfl))) ((statics.hart v).read rs1)).trans
    (within_store statics _ (.inr (.inr (.inr rfl))) 1)
  obtain ⟨v', hrun, hhart, hmode, hkept⟩ := setUreg_mret rd (v.words (waddr ((statics.hart v).read rs1))) hwithin hmepc
  refine ⟨v', ?_, ?_, hmode, hkept⟩
  · rw [emulateLrW, bind_ok (validateAndRead_ok statics haddr haligned)]
    dsimp only
    rw [bind_ok (writeVolatile_ok (not_lt_zeroPage (.inr statics.kernel.1)) statics.aligned.1 _),
      bind_ok (writeVolatile_ok (not_lt_zeroPage (.inr statics.kernel.2)) statics.aligned.2 _)]
    exact hrun
  · rw [hhart, hart_reserve, memory_eq statics haddr haligned]
    rfl

theorem emulateScW_returns : ∃ v', Returns statics (emulateScW statics (rd.setWidth 32) (rs1.setWidth 32) (rs2.setWidth 32)) v
    (((statics.hart v).goto (v.words (waddr mepcAddr))).exec ⟨.sc, rd, rs1, rs2⟩) v' := by
  have hzero := not_lt_zeroPage (.inl haddr)
  have hset : ∀ w : MachineView, writeVolatile statics.ilrscSet 0 w = .ok ((), w.store (waddr statics.ilrscSet) 0) :=
    fun _ => writeVolatile_ok (not_lt_zeroPage (.inr statics.kernel.2)) statics.aligned.2 0
  have hclear : ∀ w : MachineView, Within statics w (w.store (waddr statics.ilrscSet) 0) :=
    fun w => within_store statics w (.inr (.inr (.inr rfl))) 0
  have hreserved : (v.words (waddr statics.ilrscSet) = 1 ∧ v.words (waddr statics.ilrsc) = (statics.hart v).read rs1) ↔
      (statics.hart v).reservation = some ((statics.hart v).read rs1) := by
    change _ ↔ (if v.words (waddr statics.ilrscSet) = 1 then some (v.words (waddr statics.ilrsc)) else none) = _
    split_ifs with hvalid
    · rw [Option.some.injEq, and_iff_right hvalid]
    · exact iff_of_false (fun h => hvalid h.1) (by rintro ⟨⟩)
  have hload : emulateScW statics (rd.setWidth 32) (rs1.setWidth 32) (rs2.setWidth 32) v =
      (if v.words (waddr statics.ilrscSet) = 1 ∧ v.words (waddr statics.ilrsc) = (statics.hart v).read rs1 then do
        writeVolatile ((statics.hart v).read rs1) ((statics.hart v).read rs2)
        writeVolatile statics.ilrscSet 0
        setUreg (rd.setWidth 32) 0
        mret
      else do
        writeVolatile statics.ilrscSet 0
        setUreg (rd.setWidth 32) 1
        mret) v := by
    rw [emulateScW, bind_ok (validateAndRead_ok statics haddr haligned)]
    dsimp only
    rw [bind_ok (getUreg_ok statics rs2), bind_ok (readVolatile_ok (not_lt_zeroPage (.inr statics.kernel.1)) statics.aligned.1),
      bind_ok (readVolatile_ok (not_lt_zeroPage (.inr statics.kernel.2)) statics.aligned.2)]
  have hexec : ((statics.hart v).goto (v.words (waddr mepcAddr))).exec ⟨.sc, rd, rs1, rs2⟩ =
      if (statics.hart v).reservation = some ((statics.hart v).read rs1) then
        ((((statics.hart v).goto (v.words (waddr mepcAddr))).store ((statics.hart v).read rs1) ((statics.hart v).read rs2)).reserve none
          |>.write rd 0).next
      else (((statics.hart v).goto (v.words (waddr mepcAddr))).reserve none |>.write rd 1).next := rfl
  rw [hexec]
  by_cases hvalid : (statics.hart v).reservation = some ((statics.hart v).read rs1)
  · rw [if_pos hvalid]
    have hwithin := (within_store statics v (.inl (Risc0Machine.isUserWord_of_isUserMemory haddr)) ((statics.hart v).read rs2)).trans
      (hclear _)
    obtain ⟨v', hrun, hhart, hmode, hkept⟩ := setUreg_mret rd 0 hwithin hmepc
    refine ⟨v', ?_, ?_, hmode, hkept⟩
    · rw [hload, if_pos (hreserved.mpr hvalid), bind_ok (writeVolatile_ok hzero haligned _), bind_ok (hset _)]
      exact hrun
    · rw [hhart, hart_clear, hart_store_user statics v _ haddr haligned]
      rfl
  · rw [if_neg hvalid]
    obtain ⟨v', hrun, hhart, hmode, hkept⟩ := setUreg_mret rd 1 (hclear v) hmepc
    refine ⟨v', ?_, ?_, hmode, hkept⟩
    · rw [hload, if_neg (mt hreserved.mp hvalid), bind_ok (hset _)]
      exact hrun
    · rw [hhart, hart_clear]
      rfl

end Valid

theorem halves_eq (word : Word) :
    (((word >>> 16).setWidth 16).setWidth 32 <<< 16 ||| (word.setWidth 16).setWidth 32 : Word) = word := by
  refine BitVec.eq_of_getLsbD_eq fun i hi => ?_
  simp only [BitVec.getLsbD_or, BitVec.getLsbD_shiftLeft, BitVec.getLsbD_setWidth, BitVec.getLsbD_ushiftRight]
  by_cases h : i < 16
  · simp [h, hi]
  · simp [h, hi, show i - 16 < 16 by omega, show 16 + (i - 16) = i by omega, show i - 16 < 32 by omega]

variable {addr : ByteAddr} {word : Word} {i : Instr}

theorem half_addr (h : isAligned addr) :
    byteShift addr = 0 ∧ byteShift (addr + 2) = 16 ∧ (addr + 2).toNat = addr.toNat + 2 := by
  have h : addr.toNat % 4 = 0 := of_decide_eq_true h
  have hadd : (addr + 2).toNat = addr.toNat + 2 := by
    have htwo : (2 : Word).toNat = 2 := rfl
    rw [BitVec.toNat_add, htwo]
    omega
  have hmask (a : Word) : (a &&& 3#32).toNat = a.toNat % 4 := by
    rw [BitVec.toNat_and]
    exact and_two_pow_sub_one_eq_mod _ 2
  refine ⟨BitVec.eq_of_toNat_eq ?_, BitVec.eq_of_toNat_eq ?_, hadd⟩
  · rw [byteShift, BitVec.toNat_mul, hmask, h]
    rfl
  · rw [byteShift, BitVec.toNat_mul, hmask, hadd, show (addr.toNat + 2) % 4 = 2 by omega]
    rfl

theorem aligned_iff (addr : ByteAddr) : addr % 4 = 0 ↔ isAligned addr := by
  rw [← BitVec.toNat_inj, BitVec.toNat_umod, isAligned, decide_eq_true_iff]
  rfl

theorem trapHandler_word {pc : ByteAddr} (hpc : v.words (waddr mepcAddr) = pc) (hzero : ¬pc < zeroPageEndAddr) (ha : isAligned pc)
    (hword : v.words (waddr pc) = word) (hfour : word.setWidth 16 &&& 0x3 = 0x3) :
    trapHandler statics v = emulateInstruction statics pc word v := by
  obtain ⟨hlow, hhigh, hadd⟩ := half_addr ha
  have hmod : pc.toNat % 4 = 0 := of_decide_eq_true ha
  have hge : 0x10000 ≤ pc.toNat := not_lt.mp hzero
  have hnext : waddr (pc + 2) = waddr pc := by
    unfold waddr
    omega
  have hfirst : readVolatileHalf pc v = .ok (word.setWidth 16, v) := by
    refine (if_neg ?_).trans ?_
    · simp [hzero, show pc.toNat % 2 = 0 by omega]
    · rw [hlow, hword]
      rfl
  have hsecond : readVolatileHalf (pc + 2) v = .ok ((word >>> 16).setWidth 16, v) := by
    have hzero' : ¬pc + 2 < zeroPageEndAddr := fun h => by
      have h : (pc + 2).toNat < 0x10000 := h
      omega
    refine (if_neg ?_).trans ?_
    · rw [Bool.or_eq_true, decide_eq_true_iff, decide_eq_true_iff, not_or]
      exact ⟨hzero', by omega⟩
    · rw [hhigh, hnext, hword]
      rfl
  rw [trapHandler, bind_ok (readVolatile_ok (by decide) (by decide)), hpc, bind_ok hfirst,
    if_neg (not_not.mpr hfour), if_neg (not_not.mpr ((aligned_iff pc).mpr ha)), bind_ok hsecond]
  exact congrArg (fun w => emulateInstruction statics pc w v) (halves_eq word)

theorem low_bits (hi : Instr.decode word = some i) : word.setWidth 16 &&& 0x3 = 0x3 := by
  unfold Instr.decode at hi
  split_ifs at hi with hfields
  have hopcode := congrArg BitVec.toNat hfields.1
  rw [BitVec.extractLsb'_toNat, shiftRight_zero] at hopcode
  have hopcode : word.toNat % 2 ^ 7 = 47 := hopcode
  refine BitVec.eq_of_toNat_eq ?_
  rw [BitVec.toNat_and, BitVec.toNat_setWidth]
  refine (and_two_pow_sub_one_eq_mod _ 2).trans ?_
  change _ = 3
  omega

variable (statics) in
/-- The function of the handler for an operation. -/
def emulateOp (op : Op) (rd rs1 rs2 : Reg) : Kernel Unit :=
  match op with
  | .lr => emulateLrW statics (rd.setWidth 32) (rs1.setWidth 32)
  | .sc => emulateScW statics (rd.setWidth 32) (rs1.setWidth 32) (rs2.setWidth 32)
  | .amo op => atomicOp (rd.setWidth 32) (rs1.setWidth 32) (rs2.setWidth 32) op.eval

theorem emulateInstruction_eq (mepc : Word) (hi : Instr.decode word = some i) :
    emulateInstruction statics mepc word = emulateOp statics i.op i.rd i.rs1 i.rs2 := by
  unfold Instr.decode at hi
  split_ifs at hi with hfields
  obtain ⟨op, hop, rfl⟩ := Option.map_eq_some_iff.mp hi
  have hcode := eq_opCode hop
  have hrd : (word &&& 0x00000f80) >>> 7 = (word.extractLsb' 7 5).setWidth 32 := field_eq word (show 7 + 5 ≤ 32 by norm_num)
  have hrs1 : (word &&& 0x000f8000) >>> 15 = (word.extractLsb' 15 5).setWidth 32 := field_eq word (show 15 + 5 ≤ 32 by norm_num)
  have hrs2 : (word &&& 0x01f00000) >>> 20 = (word.extractLsb' 20 5).setWidth 32 := field_eq word (show 20 + 5 ≤ 32 by norm_num)
  unfold emulateInstruction emulateAtomicInstruction
  dsimp only
  rw [if_pos ((opcode_eq word).mpr hfields.1), if_pos ((funct3_eq word).mpr hfields.2), funct5_eq, hcode, hrd, hrs1, hrs2]
  cases op with
  | lr => rfl
  | sc => rfl
  | amo op =>
    rw [amoOf_opCode]
    rfl

theorem emulateOp_returns (op : Op) (rd : Reg) {rs1 : Reg} (rs2 : Reg) (haddr : isUserMemory ((statics.hart v).read rs1))
    (ha : isAligned ((statics.hart v).read rs1)) (hmepc : ¬v.words (waddr mepcAddr) < zeroPageEndAddr) :
    ∃ v', Returns statics (emulateOp statics op rd rs1 rs2) v
      (((statics.hart v).goto (v.words (waddr mepcAddr))).exec ⟨op, rd, rs1, rs2⟩) v' := by
  cases op with
  | lr => exact emulateLrW_returns haddr ha hmepc
  | sc => exact emulateScW_returns haddr ha hmepc
  | amo op => exact atomicOp_returns haddr ha hmepc op

theorem valid_of_ok {α : Type} {k : ByteAddr → Kernel α} {r : Reg} {a : α} (h : (validAddr (r.setWidth 32) >>= k) v = .ok (a, v'))
    (hk : ∀ addr, addr < zeroPageEndAddr → k addr v = .error (.trapped addr)) :
    isUserMemory ((statics.hart v).read r) ∧ isAligned ((statics.hart v).read r) := by
  obtain ⟨addr, w, hvalid, hrest⟩ := bind_eq_ok.mp h
  rw [validAddr, bind_ok (getUreg_ok statics r)] at hvalid
  split_ifs at hvalid with hmisaligned hkernel
  · cases hvalid
  · cases hvalid
  · cases hvalid
    refine ⟨decide_eq_true ⟨BitVec.not_lt.mp fun hlt => ?_, BitVec.not_le.mp hkernel⟩, by simpa using hmisaligned⟩
    rw [hk _ hlt] at hrest
    cases hrest

theorem readVolatile_error (h : addr < zeroPageEndAddr) : readVolatile addr v = .error (.trapped addr) :=
  if_pos (by rw [decide_eq_true h, Bool.true_or])

theorem emulateOp_valid {op : Op} {rd rs1 rs2 : Reg} (h : emulateOp statics op rd rs1 rs2 v = .ok ((), v')) :
    isUserMemory ((statics.hart v).read rs1) ∧ isAligned ((statics.hart v).read rs1) := by
  cases op with
  | lr =>
    obtain ⟨_, _, hread, -⟩ := bind_eq_ok.mp h
    exact valid_of_ok hread fun addr hlt => Observation.bind_error (readVolatile_error hlt)
  | sc =>
    obtain ⟨_, _, hread, -⟩ := bind_eq_ok.mp h
    exact valid_of_ok hread fun addr hlt => Observation.bind_error (readVolatile_error hlt)
  | amo op => exact valid_of_ok h fun addr hlt => Observation.bind_error (readVolatile_error hlt)

/-- An instruction of four bytes was read at an aligned address. -/
theorem trapHandler_reads (h : trapHandler statics v = .ok ((), v')) :
    ¬v.words (waddr mepcAddr) < zeroPageEndAddr ∧ isAligned (v.words (waddr mepcAddr)) ∧
      (v.words (waddr (v.words (waddr mepcAddr)))).setWidth 16 &&& 0x3 = (0x3 : BitVec 16) := by
  rw [trapHandler, bind_ok (readVolatile_ok (by decide) (by decide))] at h
  obtain ⟨half, w, hhalf, h⟩ := bind_eq_ok.mp h
  unfold readVolatileHalf at hhalf
  split_ifs at hhalf with hbad
  · cases hhalf
    rw [Bool.or_eq_true, decide_eq_true_iff, decide_eq_true_iff, not_or] at hbad
    split_ifs at h with hfour hmod
    · cases h
    · cases h
    · have ha := (aligned_iff _).mp (not_not.mp hmod)
      refine ⟨hbad.1, ha, ?_⟩
      rw [(half_addr ha).1] at hfour
      exact not_not.mp hfour

theorem amoOf_of_decode_none {funct5 : BitVec 5} (h : Op.decode funct5 = none) :
    amoOf (funct5.setWidth 32) = none ∧ ¬(funct5.setWidth 32 : Word) = 0x02 ∧ ¬(funct5.setWidth 32 : Word) = 0x03 := by
  have hall : ∀ f : BitVec 5, Op.decode f = none →
      (amoOf (f.setWidth 32)).isNone ∧ ¬(f.setWidth 32 : Word) = 0x02 ∧ ¬(f.setWidth 32 : Word) = 0x03 := by decide
  obtain ⟨hnone, hrest⟩ := hall funct5 h
  exact ⟨Option.isNone_iff_eq_none.mp hnone, hrest⟩

theorem emulateInstruction_other {mepc : Word} (hi : Instr.decode word = none)
    (h : emulateInstruction statics mepc word v = .ok ((), v')) : mret v = .ok ((), v') := by
  unfold emulateInstruction at h
  by_cases hopcode : word &&& 0x0000007f = 0x2f
  · rw [if_pos hopcode] at h
    unfold emulateAtomicInstruction at h
    by_cases hfunct3 : (word &&& 0x00007000) >>> 12 = 0x2
    · unfold Instr.decode at hi
      rw [if_pos ⟨(opcode_eq word).mp hopcode, (funct3_eq word).mp hfunct3⟩] at hi
      obtain ⟨hnone, hlr, hsc⟩ := amoOf_of_decode_none (Option.map_eq_none_iff.mp hi)
      rw [if_pos hfunct3, funct5_eq, hnone] at h
      dsimp only at h
      rw [if_neg hlr, if_neg hsc] at h
      cases h
    · rw [if_neg hfunct3] at h
      cases h
  · rw [if_neg hopcode] at h
    split_ifs at h
    · exact h
    · cases h

variable (statics) in
/-- What the handler has done when it returns: an atomic instruction on a valid address, or nothing. -/
inductive Handled (v v' : MachineView) : Prop
  | atomic (i : Instr) (decoded : Instr.decode (v.words (waddr (v.words (waddr mepcAddr)))) = some i)
      (valid : isUserMemory ((statics.hart v).read i.rs1) ∧ isAligned ((statics.hart v).read i.rs1))
      (returned : Returns statics (trapHandler statics) v (((statics.hart v).goto (v.words (waddr mepcAddr))).exec i) v')
  | fence (other : Instr.decode (v.words (waddr (v.words (waddr mepcAddr)))) = none)
      (returned : v' = { v with pc := v.words (waddr mepcAddr) + wordSize, mode := 0 })

theorem trapHandler_handled (h : trapHandler statics v = .ok ((), v')) : Handled statics v v' := by
  obtain ⟨hzero, ha, hfour⟩ := trapHandler_reads h
  have hword : trapHandler statics v = _ := trapHandler_word rfl hzero ha rfl hfour
  cases hi : Instr.decode (v.words (waddr (v.words (waddr mepcAddr)))) with
  | none =>
    have hmret := emulateInstruction_other hi (hword.symm.trans h)
    rw [mret_ok hzero] at hmret
    cases hmret
    exact .fence hi rfl
  | some i =>
    have hop := hword.trans (congrFun (emulateInstruction_eq _ hi) v)
    have hvalid := emulateOp_valid (hop.symm.trans h)
    obtain ⟨w, hw⟩ := emulateOp_returns i.op i.rd i.rs2 hvalid.1 hvalid.2 hzero
    have hrun := hop.trans hw.run
    rw [h] at hrun
    cases hrun
    exact .atomic i hi hvalid ⟨h, hw.hart, hw.mode, hw.within⟩

/-- On a valid address every atomic instruction is emulated. -/
theorem trapHandler_returns (hzero : ¬v.words (waddr mepcAddr) < zeroPageEndAddr) (ha : isAligned (v.words (waddr mepcAddr)))
    (hi : Instr.decode (v.words (waddr (v.words (waddr mepcAddr)))) = some i)
    (haddr : isUserMemory ((statics.hart v).read i.rs1)) (haligned : isAligned ((statics.hart v).read i.rs1)) :
    ∃ v', Returns statics (trapHandler statics) v (((statics.hart v).goto (v.words (waddr mepcAddr))).exec i) v' := by
  have hword : trapHandler statics v = _ := trapHandler_word rfl hzero ha rfl (low_bits hi)
  obtain ⟨v', hv'⟩ := emulateOp_returns i.op i.rd i.rs2 haddr haligned hzero
  exact ⟨v', (hword.trans (congrFun (emulateInstruction_eq _ hi) v)).trans hv'.run, hv'.hart, hv'.mode, hv'.within⟩

end Instructions

end Kernel

end VerifiableCompute.Rv32im
