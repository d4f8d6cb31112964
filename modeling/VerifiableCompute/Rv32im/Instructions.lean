import VerifiableCompute.Rv32im.Platform

/-! Decoding and arithmetic of the instructions. Fields keep the width of a word, as
they are cut out of it by masks and shifts. -/

namespace VerifiableCompute.Rv32im

inductive InsnKind where
  | add | sub | xor | or | and | slt | sltU | addI
  | xorI | orI | andI | sltI | sltIU | beq | bne | blt
  | bge | bltU | bgeU | jal | jalR | lui | auipc
  | sll | sllI | mul | mulH | mulHSU | mulHU
  | srl | sra | srlI | sraI | div | divU | rem | remU
  | lb | lh | lw | lbU | lhU
  | sb | sh | sw
  | eany | mret
  | invalid
  deriving DecidableEq

/-- The second argument of an illegal instruction says where it was found. -/
inductive Exception where
  | instructionMisaligned
  | instructionFault
  | illegalInstruction (insn site : Word)
  | breakpoint
  | loadAddressMisaligned
  | loadAccessFault (addr : ByteAddr)
  | storeAddressMisaligned (addr : ByteAddr)
  | storeAccessFault
  | invalidEcallDispatch (addr : Word)
  | userEnvCall (addr : ByteAddr)

structure DecodedInstruction where
  insn : Word
  topBit : Word
  func7 : Word
  rs2 : Word
  rs1 : Word
  func3 : Word
  rd : Word
  opcode : Word

namespace DecodedInstruction

def new (insn : Word) : DecodedInstruction where
  insn := insn
  topBit := (insn &&& 0x80000000#32) >>> 31
  func7 := (insn &&& 0xfe000000#32) >>> 25
  rs2 := (insn &&& 0x01f00000#32) >>> 20
  rs1 := (insn &&& 0x000f8000#32) >>> 15
  func3 := (insn &&& 0x00007000#32) >>> 12
  rd := (insn &&& 0x00000f80#32) >>> 7
  opcode := insn &&& 0x0000007f#32

variable (d : DecodedInstruction)

def immB : Word :=
  d.topBit * 0xfffff000#32 ||| (d.rd &&& 1#32) <<< 11 ||| (d.func7 &&& 0x3f#32) <<< 5 ||| d.rd &&& 0x1e#32

def immI : Word :=
  d.topBit * 0xfffff000#32 ||| d.func7 <<< 5 ||| d.rs2

def immS : Word :=
  d.topBit * 0xfffff000#32 ||| d.func7 <<< 5 ||| d.rd

def immJ : Word :=
  d.topBit * 0xfff00000#32 ||| d.rs1 <<< 15 ||| d.func3 <<< 12 ||| (d.rs2 &&& 1#32) <<< 11 |||
    (d.func7 &&& 0x3f#32) <<< 5 ||| d.rs2 &&& 0x1e#32

def immU : Word := d.insn &&& 0xfffff000#32

end DecodedInstruction

/-- A field that names a register. -/
def regIdx (field : Word) : Fin 32 := Fin.ofNat 32 field.toNat

inductive StepKind where
  | compute
  | load
  | store
  | branch
  | system

/-- A row of the decoder; a missing field matches everything. -/
structure Entry where
  opcode : Word
  func3 : Option Word
  func7 : Option Word
  step : StepKind
  kind : InsnKind

def Entry.isFor (e : Entry) (d : DecodedInstruction) : Bool :=
  e.opcode = d.opcode ∧ (∀ f ∈ e.func3, f = d.func3) ∧ ∀ f ∈ e.func7, f = d.func7

def entries : List Entry := [
  ⟨0b0110011, some 0b000, some 0b0000000, .compute, .add⟩,
  ⟨0b0110011, some 0b000, some 0b0100000, .compute, .sub⟩,
  ⟨0b0110011, some 0b001, some 0b0000000, .compute, .sll⟩,
  ⟨0b0110011, some 0b010, some 0b0000000, .compute, .slt⟩,
  ⟨0b0110011, some 0b011, some 0b0000000, .compute, .sltU⟩,
  ⟨0b0110011, some 0b101, some 0b0000000, .compute, .srl⟩,
  ⟨0b0110011, some 0b100, some 0b0000000, .compute, .xor⟩,
  ⟨0b0110011, some 0b101, some 0b0100000, .compute, .sra⟩,
  ⟨0b0110011, some 0b110, some 0b0000000, .compute, .or⟩,
  ⟨0b0110011, some 0b111, some 0b0000000, .compute, .and⟩,
  ⟨0b0110011, some 0b000, some 0b0000001, .compute, .mul⟩,
  ⟨0b0110011, some 0b001, some 0b0000001, .compute, .mulH⟩,
  ⟨0b0110011, some 0b010, some 0b0000001, .compute, .mulHSU⟩,
  ⟨0b0110011, some 0b011, some 0b0000001, .compute, .mulHU⟩,
  ⟨0b0110011, some 0b100, some 0b0000001, .compute, .div⟩,
  ⟨0b0110011, some 0b101, some 0b0000001, .compute, .divU⟩,
  ⟨0b0110011, some 0b110, some 0b0000001, .compute, .rem⟩,
  ⟨0b0110011, some 0b111, some 0b0000001, .compute, .remU⟩,
  ⟨0b0010011, some 0b000, none, .compute, .addI⟩,
  ⟨0b0010011, some 0b001, some 0b0000000, .compute, .sllI⟩,
  ⟨0b0010011, some 0b010, none, .compute, .sltI⟩,
  ⟨0b0010011, some 0b011, none, .compute, .sltIU⟩,
  ⟨0b0010011, some 0b100, none, .compute, .xorI⟩,
  ⟨0b0010011, some 0b101, some 0b0000000, .compute, .srlI⟩,
  ⟨0b0010011, some 0b101, some 0b0100000, .compute, .sraI⟩,
  ⟨0b0010011, some 0b110, none, .compute, .orI⟩,
  ⟨0b0010011, some 0b111, none, .compute, .andI⟩,
  ⟨0b0000011, some 0b000, none, .load, .lb⟩,
  ⟨0b0000011, some 0b001, none, .load, .lh⟩,
  ⟨0b0000011, some 0b010, none, .load, .lw⟩,
  ⟨0b0000011, some 0b100, none, .load, .lbU⟩,
  ⟨0b0000011, some 0b101, none, .load, .lhU⟩,
  ⟨0b0100011, some 0b000, none, .store, .sb⟩,
  ⟨0b0100011, some 0b001, none, .store, .sh⟩,
  ⟨0b0100011, some 0b010, none, .store, .sw⟩,
  ⟨0b0110111, none, none, .compute, .lui⟩,
  ⟨0b0010111, none, none, .compute, .auipc⟩,
  ⟨0b1100011, some 0b000, none, .branch, .beq⟩,
  ⟨0b1100011, some 0b001, none, .branch, .bne⟩,
  ⟨0b1100011, some 0b100, none, .branch, .blt⟩,
  ⟨0b1100011, some 0b101, none, .branch, .bge⟩,
  ⟨0b1100011, some 0b110, none, .branch, .bltU⟩,
  ⟨0b1100011, some 0b111, none, .branch, .bgeU⟩,
  ⟨0b1101111, none, none, .compute, .jal⟩,
  ⟨0b1100111, none, none, .compute, .jalR⟩,
  ⟨0b1110011, some 0b000, some 0b0011000, .system, .mret⟩,
  ⟨0b1110011, some 0b000, some 0b0000000, .system, .eany⟩]

def wordSize : ByteAddr := 4

def isAligned (addr : ByteAddr) : Bool := addr.toNat % 4 = 0

/-- One for true. -/
def ofCond (b : Bool) : Word := if b then 1 else 0

/-- The upper half of a product. -/
def upper (x : BitVec 64) : Word := (x >>> 32).setWidth 32

/-- What a computation writes and where it goes on; `none` for other kinds. -/
def computeOut (kind : InsnKind) (d : DecodedInstruction) (pc : ByteAddr) (rs1 rs2 : Word) : Option (Word × ByteAddr) :=
  let next := pc + wordSize
  match kind with
  | .add => some (rs1 + rs2, next)
  | .sub => some (rs1 - rs2, next)
  | .xor => some (rs1 ^^^ rs2, next)
  | .or => some (rs1 ||| rs2, next)
  | .and => some (rs1 &&& rs2, next)
  | .sll => some (rs1 <<< (rs2 &&& 0x1f#32), next)
  | .srl => some (rs1 >>> (rs2 &&& 0x1f#32), next)
  | .sra => some (rs1.sshiftRight' (rs2 &&& 0x1f#32), next)
  | .slt => some (ofCond (rs1.slt rs2), next)
  | .sltU => some (ofCond (rs1.ult rs2), next)
  | .addI => some (rs1 + d.immI, next)
  | .xorI => some (rs1 ^^^ d.immI, next)
  | .orI => some (rs1 ||| d.immI, next)
  | .andI => some (rs1 &&& d.immI, next)
  | .sllI => some (rs1 <<< (d.immI &&& 0x1f#32), next)
  | .srlI => some (rs1 >>> (d.immI &&& 0x1f#32), next)
  | .sraI => some (rs1.sshiftRight' (d.immI &&& 0x1f#32), next)
  | .sltI => some (ofCond (rs1.slt d.immI), next)
  | .sltIU => some (ofCond (rs1.ult d.immI), next)
  | .jal => some (next, pc + d.immJ)
  | .jalR => some (next, (rs1 + d.immI) &&& 0xfffffffe#32)
  | .lui => some (d.immU, next)
  | .auipc => some (pc + d.immU, next)
  | .mul => some (rs1 * rs2, next)
  | .mulH => some (upper (rs1.signExtend 64 * rs2.signExtend 64), next)
  | .mulHSU => some (upper (rs1.signExtend 64 * rs2.setWidth 64), next)
  | .mulHU => some (upper (rs1.setWidth 64 * rs2.setWidth 64), next)
  | .div => some (if rs2 = 0 then 0xffffffff#32 else rs1.sdiv rs2, next)
  | .divU => some (if rs2 = 0 then 0xffffffff#32 else rs1 / rs2, next)
  | .rem => some (if rs2 = 0 then rs1 else rs1.srem rs2, next)
  | .remU => some (if rs2 = 0 then rs1 else rs1 % rs2, next)
  | _ => none

def branchCond (kind : InsnKind) (rs1 rs2 : Word) : Option Bool :=
  match kind with
  | .beq => some (rs1 = rs2)
  | .bne => some (rs1 ≠ rs2)
  | .blt => some (rs1.slt rs2)
  | .bge => some (!rs1.slt rs2)
  | .bltU => some (rs1.ult rs2)
  | .bgeU => some (!rs1.ult rs2)
  | _ => none

/-- The bits by which a byte or a half word is shifted in its word. -/
def byteShift (addr : ByteAddr) : Word := 8 * (addr &&& 3#32)

/-- The loaded value, or that the address is misaligned for the kind. -/
def loadOut (kind : InsnKind) (addr : ByteAddr) (data : Word) : Option (Option Word) :=
  match kind with
  | .lb =>
    let out := (data >>> byteShift addr) &&& 0xff#32
    some (some (if out &&& 0x80#32 ≠ 0 then out ||| 0xffffff00#32 else out))
  | .lh =>
    if addr &&& 0x01#32 ≠ 0 then some none
    else
      let out := (data >>> byteShift addr) &&& 0xffff#32
      some (some (if out &&& 0x8000#32 ≠ 0 then out ||| 0xffff0000#32 else out))
  | .lw => if addr &&& 0x03#32 ≠ 0 then some none else some (some data)
  | .lbU => some (some ((data >>> byteShift addr) &&& 0xff#32))
  | .lhU => if addr &&& 0x01#32 ≠ 0 then some none else some (some ((data >>> byteShift addr) &&& 0xffff#32))
  | _ => none

/-- Some bits of a word replaced by the lowest bits of another. -/
def spliced (mask : Word) (addr : ByteAddr) (data rs2 : Word) : Word :=
  (data ^^^ (data &&& mask <<< byteShift addr)) ||| (rs2 &&& mask) <<< byteShift addr

def storeOut (kind : InsnKind) (addr : ByteAddr) (data rs2 : Word) : Option (Option Word) :=
  match kind with
  | .sb => some (some (spliced 0xff#32 addr data rs2))
  | .sh => if addr &&& 0x01#32 ≠ 0 then some none else some (some (spliced 0xffff#32 addr data rs2))
  | .sw => if addr &&& 0x03#32 ≠ 0 then some none else some (some rs2)
  | _ => none

end VerifiableCompute.Rv32im
