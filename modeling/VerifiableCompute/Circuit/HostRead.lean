import VerifiableCompute.Circuit.LoadStore
import VerifiableCompute.Rv32im.HostRead

/-! The blocks of a host read. The ecall names where the bytes go and how many there are; a chain of blocks follows, each
of which takes the state of the read in its cycle, writes a byte or a word that the host has chosen, and gives the state of the
next cycle. -/

namespace VerifiableCompute.Circuit

open Lib Rv32im ValU32 Nat

namespace ValU32

/-- Both halves are in range, as memory has them. -/
def IsWord (x : ValU32) : Prop := RegU16.verify x.low ∧ RegU16.verify x.high

theorem isWord_of (val : Word) : (of val).IsWord := ⟨of_low_verify val, of_high_verify val⟩

def halfByte (half : Fp) (i : ℕ) : ℕ := if i = 1 then half.val / 0x100 else half.val % 0x100

def byte (x : ValU32) (i : ℕ) : ℕ := halfByte (if i / 2 = 1 then x.high else x.low) (i % 2)

theorem byte_low (x : ValU32) {i : ℕ} (h : i < 2) : x.byte i = halfByte x.low i := by
  rw [byte, if_neg (by omega), mod_eq_of_lt h]

theorem byte_high (x : ValU32) {i : ℕ} (h : i < 2) : x.byte (2 + i) = halfByte x.high i := by
  rw [byte, if_pos (by omega), add_mod_left, mod_eq_of_lt h]

end ValU32

def memByte (m : ℕ → ValU32) (addr : ℕ) : ℕ := (m (addr / 4)).byte (addr % 4)

/-- An access, when it takes place, and what the word at its address is before and after. -/
structure Access where
  time : ℕ
  addr : ℕ
  prev : ValU32
  data : ValU32

def PhysMemReadBlock.access (x : PhysMemReadBlock) (cycle : Fp) : Access :=
  ⟨2 * cycle.val, x.wordAddr.val, x.data.get, x.data.get⟩

def PhysMemWriteBlock.access (x : PhysMemWriteBlock) (cycle : Fp) : Access :=
  ⟨2 * cycle.val + 1, x.wordAddr.val, x.prevData.get, x.data.get⟩

@[ext] structure ReadStateArgument where
  cycle : Fp
  addrWord : Fp
  addrLowBits : Fp
  size : Fp

def hostEcallRead : ℕ := 1

def regA7 : Fin 32 := 17

structure EcallReadWitness where
  cycle : Word
  finalCycle : Word
  fetch : FetchWitness
  a7 : PhysMemReadWitness
  a1 : PhysMemReadWitness
  a2 : PhysMemReadWitness
  a0 : PhysMemWriteWitness

@[ext] structure EcallReadBlock where
  cycle : Reg
  finalCycle : Reg
  fetch : FetchBlock
  readA7 : PhysMemReadBlock
  readA1 : PhysMemReadBlock
  readA2 : PhysMemReadBlock
  writeA0 : PhysMemWriteBlock
  decomp : AddressDecompose
  verifyRet : RegU16
  finalAddrWord : Reg
  finalAddrBits : Reg

namespace EcallReadBlock

def set (wit : EcallReadWitness) : EcallReadBlock :=
  let finalAddr := wit.a1.value + wit.a0.value
  { cycle := wit.cycle.toNat
    finalCycle := wit.finalCycle.toNat
    fetch := .set wit.fetch
    readA7 := .set wit.a7
    readA1 := .set wit.a1
    readA2 := .set wit.a2
    writeA0 := .set wit.a0
    decomp := .set wit.a1.value
    verifyRet := (wit.a2.value - wit.a0.value).toNat
    finalAddrWord := (finalAddr.toNat / 4 : ℕ)
    finalAddrBits := (finalAddr.toNat % 4 : ℕ) }

structure verify (x : EcallReadBlock) : Prop where
  mode : x.fetch.mode = (Mode.machine.num : ℕ)
  a7Addr : x.readA7.wordAddr = (machineRegs + regA7 : ℕ)
  a7Low : x.readA7.data.low = (hostEcallRead : ℕ)
  a7High : x.readA7.data.high = 0
  a1Addr : x.readA1.wordAddr = (machineRegs + regA1 : ℕ)
  a2Addr : x.readA2.wordAddr = (machineRegs + regA2 : ℕ)
  a0Addr : x.writeA0.wordAddr = (machineRegs + regA0 : ℕ)
  lenHigh : x.readA2.data.high = 0
  retHigh : x.writeA0.data.high = 0
  ret : x.verifyRet = x.readA2.data.low - x.writeA0.data.low

structure Satisfied (x : EcallReadBlock) : Prop where
  decomp : x.decomp.Satisfied x.readA1.data.get
  verifyRet : RegU16.verify x.verifyRet
  verify : x.verify

variable (x : EcallReadBlock)

def pulledState : CpuStateArgument :=
  ⟨x.cycle, x.fetch.pc.low, x.fetch.pc.high, (Mode.machine.num : ℕ), x.fetch.iCacheCycle⟩

def pushedState : CpuStateArgument :=
  ⟨x.finalCycle + 1, x.fetch.nextPc.low, x.fetch.nextPc.high, (Mode.machine.num : ℕ), x.fetch.iCacheCycle⟩

def addrWord : Fp := x.decomp.wordAddr x.readA1.data.get

def lowBits : Fp := x.decomp.low0 + x.decomp.low1 * 2

def pushedRead : ReadStateArgument := ⟨x.cycle + 1, x.addrWord, x.lowBits, x.writeA0.data.low⟩

def pulledRead : ReadStateArgument := ⟨x.finalCycle, x.finalAddrWord, x.finalAddrBits, 0⟩

def pulledDecode : DecodeArgument where
  iCacheCycle := x.fetch.iCacheCycle
  pcLow := x.fetch.pc.low
  pcHigh := x.fetch.pc.high
  newPcLow := x.fetch.nextPc.low
  newPcHigh := x.fetch.nextPc.high
  rs1 := 0
  rs2 := 0
  rd := 0
  immLow := 0
  immHigh := 0
  options := (9 : ℕ)

def accesses : List Access :=
  [x.readA7.access x.cycle, x.readA1.access x.cycle, x.readA2.access x.cycle, x.writeA0.access x.cycle]

/-- What is looked up in the table of cycles, one for each access. -/
def lookups : List Fp :=
  [x.cycle * 2 - x.readA7.prevCycle - 1, x.cycle * 2 - x.readA1.prevCycle - 1, x.cycle * 2 - x.readA2.prevCycle - 1,
    x.cycle * 2 + 1 - x.writeA0.prevCycle - 1]

end EcallReadBlock

structure ReadByteWitness where
  cycle : Word
  size : Word
  lowBits : Word
  io : PhysMemWriteWitness

structure ReadByteBlock where
  cycle : Reg
  lowBit0 : BitReg
  lowBit1 : BitReg
  io : PhysMemWriteBlock
  lowByte : RegU8
  highByte : RegU8
  newByte : RegU8
  is3 : Reg
  sizeMinus1 : RegU16

namespace ReadByteBlock

def set (wit : ReadByteWitness) : ReadByteBlock :=
  let theShort := wit.io.prevValue.toNat / 2 ^ (wit.lowBits.toNat / 2 * 16) % 0x10000
  { cycle := wit.cycle.toNat
    lowBit0 := (wit.lowBits.toNat % 2 : ℕ)
    lowBit1 := (wit.lowBits.toNat / 2 : ℕ)
    io := .set wit.io
    lowByte := (theShort % 0x100 : ℕ)
    highByte := (theShort / 0x100 : ℕ)
    newByte := (wit.io.value.toNat / 2 ^ (wit.lowBits.toNat * 8) % 0x100 : ℕ)
    is3 := if wit.lowBits = 3 then 1 else 0
    sizeMinus1 := (wit.size - 1).toNat }

structure verify (x : ReadByteBlock) : Prop where
  kept : cond x.lowBit1 x.io.prevData.low x.io.prevData.high = cond x.lowBit1 x.io.data.low x.io.data.high
  split : cond x.lowBit1 x.io.prevData.high x.io.prevData.low = x.lowByte + x.highByte * 256
  replaced : cond x.lowBit1 x.io.data.high x.io.data.low =
    cond x.lowBit0 x.lowByte x.newByte + cond x.lowBit0 x.newByte x.highByte * 256
  is3 : x.is3 = x.lowBit0 * x.lowBit1

structure Satisfied (x : ReadByteBlock) : Prop where
  lowBit0 : BitReg.verify x.lowBit0
  lowBit1 : BitReg.verify x.lowBit1
  lowByte : RegU8.verify x.lowByte
  highByte : RegU8.verify x.highByte
  newByte : RegU8.verify x.newByte
  sizeMinus1 : RegU16.verify x.sizeMinus1
  verify : x.verify

def low3 (x : ReadByteBlock) : Fp := x.lowBit0 + x.lowBit1 * 2

def pulledRead (x : ReadByteBlock) : ReadStateArgument := ⟨x.cycle, x.io.wordAddr, x.low3, x.sizeMinus1 + 1⟩

def pushedRead (x : ReadByteBlock) : ReadStateArgument :=
  ⟨x.cycle + 1, x.io.wordAddr + x.is3, 1 + x.low3 - x.is3 * 4, x.sizeMinus1⟩

end ReadByteBlock

structure ReadWordWitness where
  cycle : Word
  size : Word
  io : PhysMemWriteWitness

structure ReadWordBlock where
  cycle : Reg
  sizeMinus4 : RegU16
  io : PhysMemWriteBlock

namespace ReadWordBlock

def set (wit : ReadWordWitness) : ReadWordBlock := ⟨wit.cycle.toNat, (wit.size - 4).toNat, .set wit.io⟩

/-- There is no constraint on the word. -/
structure Satisfied (x : ReadWordBlock) : Prop where
  sizeMinus4 : RegU16.verify x.sizeMinus4

def pulledRead (x : ReadWordBlock) : ReadStateArgument := ⟨x.cycle, x.io.wordAddr, 0, x.sizeMinus4 + 4⟩

def pushedRead (x : ReadWordBlock) : ReadStateArgument := ⟨x.cycle + 1, x.io.wordAddr + 1, 0, x.sizeMinus4⟩

end ReadWordBlock

/-- The blocks that a chain is made of. -/
inductive ReadStep
  | byte (x : ReadByteBlock)
  | word (x : ReadWordBlock)

namespace ReadStep

def cycle : ReadStep → Fp
  | byte x => x.cycle
  | word x => x.cycle

def io : ReadStep → PhysMemWriteBlock
  | byte x => x.io
  | word x => x.io

def Satisfied : ReadStep → Prop
  | byte x => x.Satisfied
  | word x => x.Satisfied

def pulledRead : ReadStep → ReadStateArgument
  | byte x => x.pulledRead
  | word x => x.pulledRead

def pushedRead : ReadStep → ReadStateArgument
  | byte x => x.pushedRead
  | word x => x.pushedRead

def bytes : ReadStep → List ℕ
  | byte x => [x.newByte.val]
  | word x => [x.io.data.get.byte 0, x.io.data.get.byte 1, x.io.data.get.byte 2, x.io.data.get.byte 3]

def access (x : ReadStep) : Access := x.io.access x.cycle

def lookup (x : ReadStep) : Fp := x.cycle * 2 + 1 - x.io.prevCycle - 1

/-- A word that is written is one, which no constraint says. -/
def InRange : ReadStep → Prop
  | byte _ => True
  | word x => x.io.data.get.IsWord

end ReadStep

section

variable {a b : Fp} (ha : RegU8.verify a) (hb : RegU8.verify b)

include a b ha hb

theorem val_twoBytes : (a + b * 256).val = a.val + b.val * 0x100 := by
  obtain ⟨j, hj, rfl⟩ := ha.exists_natCast
  obtain ⟨k, hk, rfl⟩ := hb.exists_natCast
  have hcast : (j : Fp) + (k : Fp) * 256 = ((j + k * 0x100 : ℕ) : Fp) := by
    push_cast
    rfl
  rw [hcast, ZMod.val_natCast_of_lt (by omega), ZMod.val_natCast_of_lt (by omega), ZMod.val_natCast_of_lt (by omega)]

theorem halfByte_twoBytes : halfByte (a + b * 256) 0 = a.val ∧ halfByte (a + b * 256) 1 = b.val := by
  have hval := val_twoBytes ha hb
  have hlt : a.val < 0x100 := ha
  unfold halfByte
  rw [if_neg (by norm_num), if_pos rfl, hval]
  omega

theorem twoBytes_verify : RegU16.verify (a + b * 256) := by
  have hval := val_twoBytes ha hb
  have ha' : a.val < 0x100 := ha
  have hb' : b.val < 0x100 := hb
  change (a + b * 256).val < 0x10000
  omega

end

namespace ReadByteBlock

variable {x : ReadByteBlock}

theorem Satisfied.half (hx : x.Satisfied) {half half' : Fp} (hhalf : half = x.lowByte + x.highByte * 256)
    (hhalf' : half' = cond x.lowBit0 x.lowByte x.newByte + cond x.lowBit0 x.newByte x.highByte * 256) :
    RegU16.verify half' ∧
      ∀ i < 2, halfByte half' i = if i = x.lowBit0.val then x.newByte.val else halfByte half i := by
  obtain ⟨hlow, hhigh⟩ := halfByte_twoBytes hx.lowByte hx.highByte
  rw [← hhalf] at hlow hhigh
  rcases isBit_iff.mp hx.lowBit0 with hbit | hbit
  · rw [hbit, cond_zero, cond_zero] at hhalf'
    obtain ⟨hnew, hkept⟩ := halfByte_twoBytes hx.newByte hx.highByte
    rw [← hhalf'] at hnew hkept
    refine ⟨hhalf' ▸ twoBytes_verify hx.newByte hx.highByte, fun i hi => ?_⟩
    rw [hbit, ZMod.val_zero]
    obtain rfl | rfl : i = 0 ∨ i = 1 := by omega
    · rw [if_pos rfl, hnew]
    · rw [if_neg one_ne_zero, hkept, hhigh]
  · rw [hbit, cond_one, cond_one] at hhalf'
    obtain ⟨hkept, hnew⟩ := halfByte_twoBytes hx.lowByte hx.newByte
    rw [← hhalf'] at hnew hkept
    refine ⟨hhalf' ▸ twoBytes_verify hx.lowByte hx.newByte, fun i hi => ?_⟩
    rw [hbit, ZMod.val_one]
    obtain rfl | rfl : i = 0 ∨ i = 1 := by omega
    · rw [if_neg zero_ne_one, hkept, hlow]
    · rw [if_pos rfl, hnew]

theorem Satisfied.low3_eq (hx : x.Satisfied) : x.low3 = (x.lowBit0.val + 2 * x.lowBit1.val : ℕ) ∧ x.lowBit0.val < 2 ∧ x.lowBit1.val < 2 := by
  refine ⟨?_, hx.lowBit0.below, hx.lowBit1.below⟩
  rw [low3, cast_add, cast_mul, ZMod.natCast_zmod_val, ZMod.natCast_zmod_val, cast_ofNat, mul_comm x.lowBit1]

theorem Satisfied.is3_eq (hx : x.Satisfied) : x.is3 = ((x.lowBit0.val + 2 * x.lowBit1.val) / 3 : ℕ) := by
  rw [hx.verify.is3]
  rcases isBit_iff.mp hx.lowBit0 with h0 | h0 <;> rcases isBit_iff.mp hx.lowBit1 with h1 | h1 <;> rw [h0, h1] <;> decide

theorem Satisfied.data (hx : x.Satisfied) (hprev : x.io.prevData.get.IsWord) : x.io.data.get.IsWord ∧
    ∀ i < 4, x.io.data.get.byte i = if i = x.lowBit0.val + 2 * x.lowBit1.val then x.newByte.val else x.io.prevData.get.byte i := by
  have hlt := hx.low3_eq.2.1
  rcases isBit_iff.mp hx.lowBit1 with hbit | hbit
  · have hkept : x.io.prevData.high = x.io.data.high := by simpa [hbit] using hx.verify.kept
    obtain ⟨hverify, hbytes⟩ := hx.half (by simpa [hbit] using hx.verify.split) (by simpa [hbit] using hx.verify.replaced)
    refine ⟨⟨hverify, ?_⟩, fun i hi => ?_⟩
    · change RegU16.verify x.io.data.high
      rw [← hkept]
      exact hprev.2
    · rw [hbit, ZMod.val_zero]
      rcases Nat.lt_or_ge i 2 with h | h
      · rw [byte_low _ h, byte_low _ h]
        exact hbytes i h
      · obtain ⟨j, rfl⟩ := Nat.exists_eq_add_of_le h
        rw [byte_high _ (by omega), byte_high _ (by omega), if_neg (by omega)]
        exact congrArg (halfByte · j) hkept.symm
  · have hkept : x.io.prevData.low = x.io.data.low := by simpa [hbit] using hx.verify.kept
    obtain ⟨hverify, hbytes⟩ := hx.half (by simpa [hbit] using hx.verify.split) (by simpa [hbit] using hx.verify.replaced)
    refine ⟨⟨?_, hverify⟩, fun i hi => ?_⟩
    · change RegU16.verify x.io.data.low
      rw [← hkept]
      exact hprev.1
    · rw [hbit, ZMod.val_one]
      rcases Nat.lt_or_ge i 2 with h | h
      · rw [byte_low _ h, byte_low _ h, if_neg (by omega)]
        exact congrArg (halfByte · i) hkept.symm
      · obtain ⟨j, rfl⟩ := Nat.exists_eq_add_of_le h
        have hiff : 2 + j = x.lowBit0.val + 2 * 1 ↔ j = x.lowBit0.val := by omega
        rw [byte_high _ (by omega), byte_high _ (by omega), if_congr hiff rfl rfl]
        exact hbytes j (by omega)

end ReadByteBlock

/-- A state of the read, by the address of its next byte and the number of bytes left. -/
structure ReadStateArgument.At (arg : ReadStateArgument) (pos size : ℕ) : Prop where
  addrWord : arg.addrWord = (pos / 4 : ℕ)
  addrLowBits : arg.addrLowBits = (pos % 4 : ℕ)
  size : arg.size = (size : ℕ)

/-- Far from where the numbers wrap. -/
def InBounds (pos size : ℕ) : Prop := pos + size < 2 ^ 32 + 2 ^ 17 ∧ size < 2 ^ 17

namespace ReadStep

variable {x : ReadStep} {pos size : ℕ}

/-- The bytes of a step go to its address, and are fewer than are left. -/
structure Does (x : ReadStep) (pos size : ℕ) : Prop where
  next : x.pushedRead.At (pos + x.bytes.length) (size - x.bytes.length)
  le : x.bytes.length ≤ size
  nonempty : 0 < x.bytes.length
  within : pos % 4 + x.bytes.length ≤ 4
  addr : x.access.addr = pos / 4
  data : x.io.prevData.get.IsWord → x.InRange → x.io.data.get.IsWord ∧ ∀ i < 4, x.io.data.get.byte i =
    if pos % 4 ≤ i ∧ i < pos % 4 + x.bytes.length then x.bytes.getD (i - pos % 4) 0 else x.io.prevData.get.byte i

theorem size_of_limb {n size : ℕ} {m : Fp} (hm : RegU16.verify m) (hn : n ≤ 4) (hsize : size < 2 ^ 17)
    (h : m + (n : ℕ) = (size : ℕ)) : size = m.val + n := by
  obtain ⟨k, hk, rfl⟩ := hm.exists_natCast
  rw [ZMod.val_natCast_of_lt (by omega)]
  rw [← cast_add] at h
  exact (natCast_inj_of_lt (by omega) (by omega) h).symm

theorem does_byte {y : ReadByteBlock} (hy : y.Satisfied) (hbounds : InBounds pos size) (h : y.pulledRead.At pos size) :
    (byte y).Does pos size := by
  obtain ⟨hlow3, hlow0, hlow1⟩ := hy.low3_eq
  have hlow : y.lowBit0.val + 2 * y.lowBit1.val = pos % 4 :=
    natCast_inj_of_lt (by omega) (by omega) (hlow3.symm.trans h.addrLowBits)
  obtain ⟨hfit, hsize⟩ := hbounds
  have hcount : size = y.sizeMinus1.val + 1 := by
    refine size_of_limb hy.sizeMinus1 (by norm_num) hsize ?_
    rw [cast_one]
    exact h.size
  have haddr : y.io.wordAddr = (pos / 4 : ℕ) := h.addrWord
  have hword : y.io.wordAddr.val = pos / 4 := by rw [haddr, ZMod.val_natCast_of_lt (by omega)]
  have hbytes : (byte y).bytes.length = 1 := rfl
  refine ⟨⟨?_, ?_, ?_⟩, ?_, ?_, ?_, hword, fun hprev _ => ⟨(hy.data hprev).1, fun i hi => ?_⟩⟩
  · change y.io.wordAddr + y.is3 = _
    rw [haddr, hy.is3_eq, hlow, ← cast_add, hbytes]
    congr 1
    omega
  · change 1 + y.low3 - y.is3 * 4 = _
    have hsum : ((pos + 1) % 4 + pos % 4 / 3 * 4 : ℕ) = 1 + pos % 4 := by omega
    rw [hy.is3_eq, hlow3, hlow, hbytes, sub_eq_iff_eq_add]
    have hcast := congrArg (Nat.cast : ℕ → Fp) hsum
    push_cast at hcast ⊢
    exact hcast.symm
  · change y.sizeMinus1 = _
    rw [hcount, hbytes, Nat.add_sub_cancel, ZMod.natCast_zmod_val]
  · omega
  · omega
  · omega
  · have hbyte := (hy.data hprev).2 i hi
    rw [hlow] at hbyte
    rw [hbytes]
    by_cases hi' : i = pos % 4
    · rw [if_pos hi'] at hbyte
      rw [if_pos (by omega), hi', Nat.sub_self, ← hi']
      exact hbyte
    · rw [if_neg hi'] at hbyte
      rw [if_neg (by omega)]
      exact hbyte

theorem does_word {y : ReadWordBlock} (hy : y.Satisfied) (hbounds : InBounds pos size) (h : y.pulledRead.At pos size) :
    (word y).Does pos size := by
  obtain ⟨hfit, hsize⟩ := hbounds
  have haligned : pos % 4 = 0 := by
    have hzero : ((pos % 4 : ℕ) : Fp) = (0 : ℕ) := by
      rw [cast_zero]
      exact h.addrLowBits.symm
    exact natCast_inj_of_lt (by omega) (by omega) hzero
  have hcount : size = y.sizeMinus4.val + 4 := by
    refine size_of_limb hy.sizeMinus4 le_rfl hsize ?_
    rw [cast_ofNat]
    exact h.size
  have haddr : y.io.wordAddr = (pos / 4 : ℕ) := h.addrWord
  have hword : y.io.wordAddr.val = pos / 4 := by rw [haddr, ZMod.val_natCast_of_lt (by omega)]
  have hbytes : (word y).bytes.length = 4 := rfl
  refine ⟨⟨?_, ?_, ?_⟩, ?_, ?_, ?_, hword, fun _ hrange => ⟨hrange, fun i hi => ?_⟩⟩
  · change y.io.wordAddr + 1 = _
    rw [haddr, hbytes, add_div_right _ (by norm_num), cast_add, cast_one]
  · change (0 : Fp) = _
    rw [hbytes, add_mod_right, haligned, cast_zero]
  · change y.sizeMinus4 = _
    rw [hcount, hbytes, Nat.add_sub_cancel, ZMod.natCast_zmod_val]
  · omega
  · omega
  · omega
  · rw [haligned, hbytes, if_pos (by omega), Nat.sub_zero]
    obtain rfl | rfl | rfl | rfl : i = 0 ∨ i = 1 ∨ i = 2 ∨ i = 3 := by omega
    all_goals rfl

theorem does (hx : x.Satisfied) (hbounds : InBounds pos size) (h : x.pulledRead.At pos size) : x.Does pos size := by
  cases x with
  | byte y => exact does_byte hx hbounds h
  | word y => exact does_word hx hbounds h

theorem size_lt (hx : x.Satisfied) : x.pushedRead.size.val < x.pulledRead.size.val ∧ x.pulledRead.size.val < 2 ^ 17 := by
  cases x with
  | byte y =>
    obtain ⟨k, hk, hsize⟩ := hx.sizeMinus1.exists_natCast
    have hpulled : (byte y).pulledRead.size = ((k + 1 : ℕ) : Fp) := by
      rw [cast_add, cast_one, ← hsize]
      rfl
    have hpushed : (byte y).pushedRead.size = (k : Fp) := hsize
    rw [hpulled, hpushed, ZMod.val_natCast_of_lt (by omega), ZMod.val_natCast_of_lt (by omega)]
    omega
  | word y =>
    obtain ⟨k, hk, hsize⟩ := hx.sizeMinus4.exists_natCast
    have hpulled : (word y).pulledRead.size = ((k + 4 : ℕ) : Fp) := by
      rw [cast_add, cast_ofNat, ← hsize]
      rfl
    have hpushed : (word y).pushedRead.size = (k : Fp) := hsize
    rw [hpulled, hpushed, ZMod.val_natCast_of_lt (by omega), ZMod.val_natCast_of_lt (by omega)]
    omega

theorem pulledRead_cycle (x : ReadStep) : x.pulledRead.cycle = x.cycle := by cases x <;> rfl

theorem pushedRead_cycle (x : ReadStep) : x.pushedRead.cycle = x.cycle + 1 := by cases x <;> rfl

end ReadStep

end VerifiableCompute.Circuit
