import VerifiableCompute.Rv32im.Instructions
import VerifiableCompute.Rv32im.Pager

/-! The executor: the emulator of the instructions over the paged memory, with its two
modes, its traps and its user calls. Only the calls to the host are left open, as
`machineEcall`; the emulator reaches them in machine mode only. -/

namespace VerifiableCompute.Rv32im

structure Executor where
  pc : ByteAddr
  userPc : ByteAddr
  machineMode : Word
  userCycles : ℕ
  pager : PagedMemory

/-- Why a step does not return. -/
inductive Fault where
  | memory (error : MemoryError)
  | invalidGuestAddress (addr : ByteAddr)
  | illegalTrap
  | illegalMret
  | invalidTrapAddress (addr : ByteAddr) (cause : Exception)
  | unalignedAddress (addr : ByteAddr)
  | bail (message : String)
  | panicked

abbrev Exec := StateT Executor (Except Fault)

inductive LoadOp where
  | peek
  | load
  | record

/-- The answer of the memory, and the executor with the memory after it. -/
def Executor.ofMemory {α : Type} (s : Executor) : Option (Except MemoryError α × PagedMemory) → Except Fault (α × Executor)
  | none => .error .panicked
  | some (.error e, _) => .error (.memory e)
  | some (.ok a, pager) => .ok (a, { s with pager := pager })

namespace Executor

def loadU32 (op : LoadOp) (addr : ℕ) : Exec Word := fun s =>
  match op with
  | .peek => s.ofMemory (s.pager.peek addr)
  | .load => s.ofMemory (s.pager.load addr)
  | .record => s.ofMemory (s.pager.load addr)

def storeU32 (addr : ℕ) (word : Word) : Exec Unit := fun s => s.ofMemory (s.pager.store addr word)

def loadRegister (base : ℕ) (idx : Fin 32) : Exec Word := fun s =>
  s.ofMemory ((s.pager.loadRegister base idx).map fun word => (.ok word, s.pager))

def storeRegister (base : ℕ) (idx : Fin 32) (word : Word) : Exec Unit := fun s =>
  s.ofMemory ((s.pager.storeRegister base idx word).map fun pager => (.ok (), pager))

def getPc : Exec ByteAddr := fun s => .ok (s.pc, s)

def setPc (addr : ByteAddr) : Exec Unit := fun s => .ok ((), { s with pc := addr })

def setUserPc (addr : ByteAddr) : Exec Unit := fun s => .ok ((), { s with userPc := addr })

def isMachineMode : Exec Bool := fun s => .ok (s.machineMode ≠ 0, s)

def setMachineMode (mode : Word) : Exec Unit := fun s => .ok ((), { s with machineMode := mode })

def incUserCycles (count : ℕ) : Exec Unit := fun s => .ok ((), { s with userCycles := s.userCycles + count })

def fault {α : Type} (f : Fault) : Exec α := fun _ => .error f

end Executor

def isUserMemory (addr : ByteAddr) : Bool := addr ≥ userStartAddr ∧ addr < userEndAddr

def isKernelMemory (addr : ByteAddr) : Bool := addr ≥ kernelStartAddr ∧ addr < kernelEndAddr

namespace Risc0Machine

open Executor

def guestAddr (word : Word) : Exec ByteAddr :=
  if word < zeroPageEndAddr then fault (.invalidGuestAddress word) else pure word

def regsBaseAddr : Exec ℕ := do
  if ← isMachineMode then pure machineRegs else pure userRegs

def loadRegister (idx : Fin 32) : Exec Word := do
  let base ← regsBaseAddr
  Executor.loadRegister base idx

/-- Writes to the zero register are shunted to a word that is never read from. -/
def storeRegister (idx : Fin 32) (word : Word) : Exec Unit := do
  let base ← regsBaseAddr
  if idx = 0 then storeU32 (base + regMax * 2) word else Executor.storeRegister base idx word

def loadMemory (addr : ℕ) : Exec Word := loadU32 .record addr

def storeMemory (addr : ℕ) (word : Word) : Exec Unit := storeU32 addr word

def checkInsnLoad (addr : ByteAddr) : Exec Bool := do
  let machineMode ← isMachineMode
  return !(addr < zeroPageEndAddr || (!machineMode && addr ≥ kernelStartAddr))

def checkDataLoad (addr : ByteAddr) : Exec Bool := do
  let machineMode ← isMachineMode
  return addr ≥ zeroPageEndAddr && machineMode || isUserMemory addr

def checkDataStore (addr : ByteAddr) : Exec Bool := checkDataLoad addr

/-- The registers are only logged. -/
def dumpRegisters (isMachineMode : Bool) : Exec Unit :=
  let base := if isMachineMode then machineRegs else userRegs
  (List.range regMax).forM fun i => do
    let _ ← loadU32 .peek (base + i)

def enterTrap (dispatchAddr : ByteAddr) : Exec Unit := do
  if ← isMachineMode then fault .illegalTrap
  else
    let pc ← getPc
    storeMemory (waddr mepcAddr) pc
    setPc dispatchAddr
    setUserPc pc
    setMachineMode 1

/-- The causes for which the registers are logged. -/
def logsRegisters : Exception → Bool
  | .breakpoint => true
  | .illegalInstruction _ _ => true
  | _ => false

def logTrap (cause : Exception) : Exec Unit :=
  if logsRegisters cause then do
    dumpRegisters true
    dumpRegisters false
  else pure ()

def trap (cause : Exception) : Exec Bool := do
  logTrap cause
  let dispatchAddr ← loadMemory (waddr trapDispatchAddr)
  if !isAligned dispatchAddr || !isKernelMemory dispatchAddr then fault (.invalidTrapAddress dispatchAddr cause)
  else
    enterTrap dispatchAddr
    incUserCycles 1
    return false

def userEcall : Exec Bool := do
  let word ← loadMemory (waddr ecallDispatchAddr)
  let dispatchAddr ← guestAddr word
  if !isAligned dispatchAddr || !isKernelMemory dispatchAddr then trap (.userEnvCall dispatchAddr)
  else
    enterTrap dispatchAddr
    return true

def ecall (machineEcall : Exec Bool) : Exec Bool := do
  if ← isMachineMode then machineEcall else userEcall

def mret : Exec Bool := do
  if ← isMachineMode then
    let word ← loadMemory (waddr mepcAddr)
    let dispatchAddr ← guestAddr word
    setPc (dispatchAddr + wordSize)
    setMachineMode 0
    return true
  else fault .illegalMret

def onNormalEnd (_ : InsnKind) : Exec Unit := incUserCycles 1

end Risc0Machine

def v2CircuitVersion : ℕ := 0

namespace Emulator

open Executor Risc0Machine

/-- A trap, after which the kind counts only when the trap says so. -/
def trapped (kind : InsnKind) (cause : Exception) : Exec (Option InsnKind) := do
  let normal ← trap cause
  return if normal then some kind else none

/-- A value that is missing only where the source is unreachable. -/
def reachable {α : Type} : Option α → Exec α
  | none => fault .panicked
  | some a => pure a

def loadRs2 (d : DecodedInstruction) (rs1 : Word) : Exec Word :=
  if d.rs1 = d.rs2 then pure rs1 else Risc0Machine.loadRegister (regIdx d.rs2)

def stepCompute (kind : InsnKind) (d : DecodedInstruction) : Exec (Option InsnKind) := do
  let pc ← getPc
  let rs1 ← Risc0Machine.loadRegister (regIdx d.rs1)
  let rs2 ← loadRs2 d rs1
  let (out, newPc) ← reachable (computeOut kind d pc rs1 rs2)
  if !isAligned newPc then trapped kind .instructionMisaligned
  else
    Risc0Machine.storeRegister (regIdx d.rd) out
    setPc newPc
    return some kind

def stepBranch (circuitVersion : ℕ) (kind : InsnKind) (d : DecodedInstruction) : Exec (Option InsnKind) := do
  let pc ← getPc
  let rs1 ← Risc0Machine.loadRegister (regIdx d.rs1)
  let rs2 ← loadRs2 d rs1
  let brCond ← reachable (branchCond kind rs1 rs2)
  let newPc := if brCond then pc + d.immB else pc + wordSize
  if !isAligned newPc then trapped kind .instructionMisaligned
  else
    if circuitVersion = v2CircuitVersion then Risc0Machine.storeRegister 0 0
    setPc newPc
    return some kind

def stepLoad (kind : InsnKind) (d : DecodedInstruction) : Exec (Option InsnKind) := do
  let rs1 ← Risc0Machine.loadRegister (regIdx d.rs1)
  let addr := rs1 + d.immI
  let allowed ← checkDataLoad addr
  if !allowed then trapped kind (.loadAccessFault addr)
  else
    let data ← loadMemory (waddr addr)
    let out ← reachable (loadOut kind addr data)
    match out with
    | none => trapped kind .loadAddressMisaligned
    | some out =>
      Risc0Machine.storeRegister (regIdx d.rd) out
      let pc ← getPc
      setPc (pc + wordSize)
      return some kind

def stepStore (kind : InsnKind) (d : DecodedInstruction) : Exec (Option InsnKind) := do
  let rs1 ← Risc0Machine.loadRegister (regIdx d.rs1)
  let rs2 ← loadRs2 d rs1
  let addr := rs1 + d.immS
  let allowed ← checkDataStore addr
  if !allowed then trapped kind .storeAccessFault
  else
    let data ← loadMemory (waddr addr)
    let out ← reachable (storeOut kind addr data rs2)
    match out with
    | none => trapped kind (.storeAddressMisaligned addr)
    | some out =>
      storeMemory (waddr addr) out
      let pc ← getPc
      setPc (pc + wordSize)
      return some kind

/-- The call, break or return that an instruction asks for. -/
def systemCall (machineEcall : Exec Bool) (kind : InsnKind) (d : DecodedInstruction) : Exec Bool :=
  match kind with
  | .eany =>
    if d.rs2 = 0 then ecall machineEcall
    else if d.rs2 = 1 then trap .breakpoint
    else trap (.illegalInstruction d.insn 2)
  | .mret => mret
  | _ => fault .panicked

def stepSystem (machineEcall : Exec Bool) (kind : InsnKind) (d : DecodedInstruction) : Exec (Option InsnKind) := do
  let normal ← systemCall machineEcall kind d
  return if normal then some kind else none

def execRv32im (circuitVersion : ℕ) (machineEcall : Exec Bool) (word : Word) : Exec (Option InsnKind) :=
  let d := DecodedInstruction.new word
  match entries.find? fun e => e.isFor d with
  | some e =>
    match e.step with
    | .compute => stepCompute e.kind d
    | .load => stepLoad e.kind d
    | .store => stepStore e.kind d
    | .branch => stepBranch circuitVersion e.kind d
    | .system => stepSystem machineEcall e.kind d
  | none => trapped .invalid (.illegalInstruction d.insn 293)

def step (circuitVersion : ℕ) (machineEcall : Exec Bool) : Exec Unit := do
  let pc ← getPc
  let allowed ← checkInsnLoad pc
  if !allowed then
    let _ ← trap .instructionFault
  else
    let word ← loadMemory (waddr pc)
    if word &&& 0x03#32 ≠ 0x03#32 then
      let _ ← trap (.illegalInstruction word 0)
    else
      match ← execRv32im circuitVersion machineEcall word with
      | some kind => onNormalEnd kind
      | none => pure ()

end Emulator

end VerifiableCompute.Rv32im
