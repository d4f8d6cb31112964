import VerifiableCompute.Rv32im.Executor
import VerifiableCompute.Rv32im.FlatMemory
import VerifiableCompute.Rv32im.SegmentReplay

/-! A session of the executor: segments that are run one after the other over one paged
memory, with the counters of the session. What an instruction does is any program over
the operations that the executor offers; the block tracker, which estimates the size of
a segment, and the handler of the host calls are parameters. -/

namespace VerifiableCompute.Rv32im

open Lib

inductive EcallKind where
  | bigInt
  | poseidon2
  | read
  | sha2
  | terminate
  | user
  | write
  deriving DecidableEq

structure EcallMetric where
  count : ℕ
  cycles : ℕ

inductive CycleLimit where
  | hard (maxCycles : ℕ)
  | soft (maxCycles : ℕ)
  | none

structure ExecutionLimit where
  segmentPo2 : ℕ
  maxInsnCycles : Option ℕ
  session : CycleLimit

namespace ExecutionLimit

def segmentLimit (limit : ExecutionLimit) : ℕ := 2 ^ limit.segmentPo2

def maxInsnCycles' (limit : ExecutionLimit) : ℕ :=
  limit.maxInsnCycles.getD (if limit.segmentPo2 ≥ 15 then 25000 else 2000)

def segmentThreshold (limit : ExecutionLimit) : ℕ := limit.segmentLimit - limit.maxInsnCycles'

end ExecutionLimit

structure TerminateState where
  a0 : Word
  a1 : Word

abbrev Digest := Fin 8 → Word

structure PovwJobId where
  log : BitVec 160
  job : BitVec 64

structure PovwNonce where
  log : BitVec 160
  job : BitVec 64
  segment : BitVec 32

def PovwJobId.nonce (id : PovwJobId) (segmentIndex : BitVec 32) : PovwNonce := ⟨id.log, id.job, segmentIndex⟩

structure SessionCycles where
  total : ℕ
  user : ℕ
  paging : ℕ
  reserved : ℕ

/-- What a handler of host calls can see of the executor. -/
structure HostView where
  cycle : ℕ
  pc : ByteAddr
  peek : ℕ → Word

/-- A handler of host calls with a state of its own; `none` is an error. A read answers
with the buffer and the number of bytes that it filled. -/
structure Syscall (H : Type) where
  hostRead : HostView → (fd : Word) → (buf : List UInt8) → H → Option ((List UInt8 × ℕ) × H)
  hostWrite : HostView → (fd : Word) → (buf : List UInt8) → H → Option (ℕ × H)

inductive TrackEvent where
  | pc (pc : ByteAddr)
  | instr (kind : InsnKind)
  | ecallWrite
  | ecallTerminate
  | ecallRead (readBytes readWords : ℕ)
  | ecallBigInt (verifyProgramSize : ℕ)
  | userEcall
  | trap
  | ecallPoseidon2 (blockCount : ℕ)

/-- The estimate of the size of a segment: rows for what was tracked, for a number of
cycles and for a number of pages touched. -/
structure BlockTracker (B : Type) where
  start : B
  track : TrackEvent → B → B
  rows : B → (cycles touchedPages : ℕ) → ℕ

/-- What is sent to the callback at every split. -/
structure SegmentUpdate where
  updatePartialImage : WorkingImage
  accessPageIndexes : List ℕ
  ioRecord : IoRecord
  inputDigest : Digest
  outputDigest : Option Digest
  terminateState : Option TerminateState
  userCycles : ℕ
  pagerCycles : ℕ
  insnCounter : ℕ
  segmentThreshold : ℕ
  po2 : ℕ
  index : ℕ
  povwNonce : Option PovwNonce

structure Session (H B : Type) where
  exec : Executor
  initialImage : MemoryImage
  terminateState : Option TerminateState
  ioRecord : IoRecord
  handler : H
  inputDigest : Digest
  outputDigest : Option Digest
  /-- The instructions that the trace callbacks are told of. -/
  instructions : List (ByteAddr × Word)
  cycles : SessionCycles
  ecallMetrics : EcallKind → EcallMetric
  povwJobId : Option PovwJobId
  segmentCounter : BitVec 32
  insnCounter : ℕ
  blockTracker : B

structure ExecutorResult where
  segments : ℕ
  preImage : MemoryImage
  postImage : WorkingImage
  userCycles : ℕ
  totalCycles : ℕ
  pagingCycles : ℕ
  reservedCycles : ℕ
  ecallMetrics : EcallKind → EcallMetric
  output : Option Digest
  terminateState : Option TerminateState
  po2 : ℕ

/-- Why an operation fails. -/
inductive StepError where
  | fault (fault : Fault)
  | host

/-- A failed execution also carries an update up to the error, which is left out. -/
inductive ExecutionError where
  | cycleLimitExceeded (limit cycle : ℕ)
  | executionFailed (error : StepError)
  | segmentTooSmall (limit : ℕ) (pc : ByteAddr)
  | other (error : StepError)
  | segmentCounterOverflow

inductive ContextOp where
  | getPc
  | setPc (addr : ByteAddr)
  | setUserPc (addr : ByteAddr)
  | getMachineMode
  | setMachineMode (mode : Word)
  | loadU32 (op : LoadOp) (addr : ℕ)
  | loadRegister (base : ℕ) (idx : Fin 32)
  | storeU32 (addr : ℕ) (word : Word)
  | storeRegister (base : ℕ) (idx : Fin 32) (word : Word)
  | hostRead (fd : Word) (buf : List UInt8)
  | hostWrite (fd : Word) (buf : List UInt8)
  | onTerminate (a0 a1 : Word)
  | onInsnStart (insn : Word)
  | onInsnEnd (kind : InsnKind)
  | onEcallStart (kind : EcallKind)
  | incUserCycles (count : ℕ) (ecall : Option EcallKind)
  | track (event : TrackEvent)
  | fail (fault : Fault)

/-- The operations of an executor, with their answers. -/
def context : Interface where
  Op := ContextOp
  Answer
    | .getPc => ByteAddr
    | .getMachineMode => Word
    | .loadU32 _ _ => Word
    | .loadRegister _ _ => Word
    | .hostRead _ _ => List UInt8 × ℕ
    | .hostWrite _ _ => ℕ
    | .fail _ => Empty
    | _ => Unit

namespace Session

variable {H B : Type}

def incUserCycles (count : ℕ) (ecall : Option EcallKind) (s : Session H B) : Session H B :=
  { s with
    cycles := { s.cycles with user := s.cycles.user + count }
    exec := { s.exec with userCycles := s.exec.userCycles + count }
    ecallMetrics := ecall.elim s.ecallMetrics fun kind =>
      Function.update s.ecallMetrics kind
        { s.ecallMetrics kind with cycles := (s.ecallMetrics kind).cycles + count } }

def track (tracker : BlockTracker B) (event : TrackEvent) (s : Session H B) : Session H B :=
  { s with blockTracker := tracker.track event s.blockTracker }

def view (s : Session H B) : HostView := ⟨s.cycles.user, s.exec.userPc, s.exec.pager.word⟩

/-- Run an operation of the memory. -/
def onExec {α : Type} (x : Exec α) (s : Session H B) : Except StepError (α × Session H B) :=
  match x s.exec with
  | .error f => .error (.fault f)
  | .ok (a, exec) => .ok (a, { s with exec := exec })

/-- The buffer keeps its length; what is recorded is what was filled. -/
def hostRead (syscall : Syscall H) (fd : Word) (buf : List UInt8) (s : Session H B) :
    Except StepError ((List UInt8 × ℕ) × Session H B) :=
  match syscall.hostRead s.view fd buf s.handler with
  | none => .error .host
  | some ((filled, rlen), handler) =>
    match s.ioRecord.hostRead filled rlen with
    | none => .error (.fault .panicked)
    | some ioRecord => .ok ((filled, rlen), { s with handler := handler, ioRecord := ioRecord })

def hostWrite (syscall : Syscall H) (fd : Word) (buf : List UInt8) (s : Session H B) :
    Except StepError (ℕ × Session H B) :=
  match syscall.hostWrite s.view fd buf s.handler with
  | none => .error .host
  | some (rlen, handler) => .ok (rlen, { s with handler := handler, ioRecord := s.ioRecord.hostWrite rlen })

def globalOutputAddr : ByteAddr := 0xffff0240
def globalInputAddr : ByteAddr := 0xffff0260
def suspendPcAddr : ByteAddr := 0xffff0210
def suspendModeAddr : ByteAddr := 0xffff0214
def rv32imVersionAddr : ByteAddr := 0xffff0300

/-- The words of a digest in memory. -/
def peekDigest (addr : ℕ) : Exec Digest := do
  let words ← (List.finRange 8).mapM fun (i : Fin 8) => Executor.loadU32 .peek (addr + i)
  return fun i => words.getD i 0

def onTerminate (tracker : BlockTracker B) (a0 a1 : Word) (s : Session H B) :
    Except StepError (Unit × Session H B) := do
  let s : Session H B := { s with terminateState := some ⟨a0, a1⟩ }
  let (output, s) ← s.onExec (peekDigest (waddr globalOutputAddr))
  return ((), { s with outputDigest := some output }.track tracker .ecallTerminate)

def onInsnStart (tracker : BlockTracker B) (insn : Word) (s : Session H B) : Session H B :=
  { s with instructions := s.instructions ++ [(s.exec.pc, insn)] }.track tracker (.pc s.exec.pc)

def onInsnEnd (tracker : BlockTracker B) (kind : InsnKind) (s : Session H B) : Session H B :=
  (s.track tracker (.instr kind)).incUserCycles 1 none

/-- The first cycle of a call to the host. -/
def onEcallStart (kind : EcallKind) (s : Session H B) : Session H B :=
  { s with
    ecallMetrics := Function.update s.ecallMetrics kind
      { s.ecallMetrics kind with count := (s.ecallMetrics kind).count + 1 } }.incUserCycles 1 (some kind)

/-- How the executor performs an operation. -/
def handle (syscall : Syscall H) (tracker : BlockTracker B) : Program.Handler context (Session H B) StepError
  | .getPc, s => .ok (s.exec.pc, s)
  | .setPc addr, s => .ok ((), { s with exec := { s.exec with pc := addr } })
  | .setUserPc addr, s => .ok ((), { s with exec := { s.exec with userPc := addr } })
  | .getMachineMode, s => .ok (s.exec.machineMode, s)
  | .setMachineMode mode, s => .ok ((), { s with exec := { s.exec with machineMode := mode } })
  | .loadU32 op addr, s => s.onExec (Executor.loadU32 op addr)
  | .loadRegister base idx, s => s.onExec (Executor.loadRegister base idx)
  | .storeU32 addr word, s => s.onExec (Executor.storeU32 addr word)
  | .storeRegister base idx word, s => s.onExec (Executor.storeRegister base idx word)
  | .hostRead fd buf, s => s.hostRead syscall fd buf
  | .hostWrite fd buf, s => s.hostWrite syscall fd buf
  | .onTerminate a0 a1, s => s.onTerminate tracker a0 a1
  | .onInsnStart insn, s => .ok ((), s.onInsnStart tracker insn)
  | .onInsnEnd kind, s => .ok ((), s.onInsnEnd tracker kind)
  | .onEcallStart kind, s => .ok ((), s.onEcallStart kind)
  | .incUserCycles count ecall, s => .ok ((), s.incUserCycles count ecall)
  | .track event, s => .ok ((), s.track tracker event)
  | .fail fault, _ => .error (.fault fault)

/-- What the executor is built with. -/
structure Setup (H B : Type) where
  syscall : Syscall H
  tracker : BlockTracker B
  /-- One step of the machine. -/
  step : Program context Unit
  circuitVersion : ℕ

def m3CircuitVersion : ℕ := 3

/-- A new executor; `none` when the image has no page of registers. -/
def new (setup : Setup H B) (image : MemoryImage) (handler : H) (inputDigest : Digest) (povwJobId : Option PovwJobId) :
    Option (Session H B) := do
  let pager ← PagedMemory.new image false
  return {
    exec := ⟨0, 0, 0, 0, pager⟩
    initialImage := image
    terminateState := none
    ioRecord := ⟨[], []⟩
    handler := handler
    inputDigest := inputDigest
    outputDigest := none
    instructions := []
    cycles := ⟨0, 0, 0, 0⟩
    ecallMetrics := fun _ => ⟨0, 0⟩
    povwJobId := povwJobId
    segmentCounter := 0
    insnCounter := 0
    blockTracker := setup.tracker.start }

/-- Continue where the memory says that the machine was suspended. -/
def resumeProgram (circuitVersion : ℕ) (inputDigest : Digest) : Exec Unit := do
  let word ← Executor.loadU32 .record (waddr suspendPcAddr)
  let pc ← Risc0Machine.guestAddr word
  let mode ← Executor.loadU32 .record (waddr suspendModeAddr)
  if circuitVersion = m3CircuitVersion then Executor.storeU32 (waddr rv32imVersionAddr) (BitVec.ofNat 32 m3CircuitVersion)
  Executor.setPc pc
  Executor.setMachineMode mode
  (List.finRange 8).forM fun (i : Fin 8) => Executor.storeU32 (waddr globalInputAddr + i) (inputDigest i)

def resume (setup : Setup H B) (s : Session H B) : Except StepError (Unit × Session H B) :=
  s.onExec (resumeProgram setup.circuitVersion s.inputDigest)

def suspendProgram (s : Executor) : Exec Unit := do
  Executor.storeU32 (waddr suspendPcAddr) s.pc
  Executor.storeU32 (waddr suspendModeAddr) s.machineMode

def suspend (s : Session H B) : Except StepError (Unit × Session H B) := s.onExec (suspendProgram s.exec)

def touchedPages (s : Session H B) : ℕ := s.exec.pager.pageCache.length + 2

def segmentCycles (setup : Setup H B) (s : Session H B) : ℕ := setup.tracker.rows s.blockTracker s.insnCounter s.touchedPages

def shouldSplit (setup : Setup H B) (segmentThreshold : ℕ) (s : Session H B) : Bool :=
  setup.tracker.rows s.blockTracker s.exec.userCycles s.touchedPages > segmentThreshold

def povwNonce (segmentIndex : BitVec 32) (s : Session H B) : Option PovwNonce :=
  s.povwJobId.map fun job => job.nonce segmentIndex

/-- Commit the memory, send the update, and count the segment. -/
def splitSegment (setup : Setup H B) (segmentPo2 segmentThreshold : ℕ) (s : Session H B) :
    Except ExecutionError (SegmentUpdate × Session H B) :=
  match s.exec.pager.commit with
  | none => .error (.other (.fault .panicked))
  | some (partialImage, pager) =>
    if s.segmentCounter = BitVec.allOnes 32 then .error .segmentCounterOverflow
    else .ok ({
        updatePartialImage := partialImage
        accessPageIndexes := pager.pageStates.indexes
        ioRecord := s.ioRecord
        inputDigest := s.inputDigest
        outputDigest := s.outputDigest
        terminateState := s.terminateState
        userCycles := s.exec.userCycles
        pagerCycles := pager.cycles
        insnCounter := s.insnCounter
        segmentThreshold := segmentThreshold
        po2 := segmentPo2
        index := s.segmentCounter.toNat
        povwNonce := s.povwNonce s.segmentCounter },
      { s with
        exec := { s.exec with userCycles := 0, pager := pager.reset }
        ioRecord := ⟨[], []⟩
        cycles := { s.cycles with
          total := s.cycles.total + 2 ^ segmentPo2
          paging := s.cycles.paging + pager.cycles }
        segmentCounter := s.segmentCounter + 1
        insnCounter := 0
        blockTracker := setup.tracker.start })

/-- Why the loop of a segment goes on or ends. -/
inductive LoopControl where
  | go
  | stop
  | fail (error : ExecutionError)

/-- The checks before every step. -/
def control (setup : Setup H B) (limit : ExecutionLimit) (s : Session H B) : LoopControl :=
  if s.terminateState.isSome then .stop
  else
    match limit.session with
    | .hard maxCycles =>
      if s.cycles.user ≥ maxCycles then .fail (.cycleLimitExceeded maxCycles s.cycles.user) else split
    | .soft maxCycles => if s.cycles.user ≥ maxCycles then .stop else split
    | .none => split
where
  split : LoopControl :=
    if s.shouldSplit setup limit.segmentThreshold then
      if s.segmentCycles setup > limit.segmentLimit then .fail (.segmentTooSmall limit.segmentLimit s.exec.pc) else .stop
    else .go

/-- One step of the machine, counted. -/
def step (setup : Setup H B) (s : Session H B) : Except ExecutionError (Session H B) :=
  match setup.step.run (handle setup.syscall setup.tracker) s with
  | .error e => .error (.executionFailed e)
  | .ok (_, s) => .ok { s with insnCounter := s.insnCounter + 1 }

/-- The loop of a segment; `none` when the fuel does not suffice. -/
def loop (setup : Setup H B) (limit : ExecutionLimit) : ℕ → Session H B → Option (Except ExecutionError (Session H B))
  | 0, _ => none
  | fuel + 1, s =>
    match s.control setup limit with
    | .stop => some (.ok s)
    | .fail e => some (.error e)
    | .go =>
      match s.step setup with
      | .error e => some (.error e)
      | .ok s => loop setup limit fuel s

/-- Whether there is nothing more to run. -/
def finished (limit : ExecutionLimit) (s : Session H B) : Bool :=
  s.terminateState.isSome ||
    match limit.session with
    | .soft softLimit => s.cycles.user ≥ softLimit
    | _ => false

def finishSegment (setup : Setup H B) (limit : ExecutionLimit) (s : Session H B) :
    Except ExecutionError (SegmentUpdate × Session H B) :=
  match s.suspend with
  | .error e => .error (.other e)
  | .ok (_, s) =>
    let po2 := Nat.clog 2 (s.segmentCycles setup)
    s.splitSegment setup po2 (min (s.segmentCycles setup) limit.segmentThreshold)

def runSegment (setup : Setup H B) (limit : ExecutionLimit) (fuel : ℕ) (s : Session H B) :
    Option (Except ExecutionError (Option SegmentUpdate × Session H B)) :=
  if s.finished limit then some (.ok (none, s))
  else
    match s.resume setup with
    | .error e => some (.error (.other e))
    | .ok (_, s) =>
      match s.loop setup limit fuel with
      | none => none
      | some (.error e) => some (.error e)
      | some (.ok s) => some ((s.finishSegment setup limit).map fun r => (some r.1, r.2))

/-- Segments until nothing is left, with the updates in their order. -/
def runSegments (setup : Setup H B) (limit : ExecutionLimit) :
    ℕ → Session H B → Option (Except ExecutionError (List SegmentUpdate × Session H B))
  | 0, _ => none
  | fuel + 1, s =>
    match s.runSegment setup limit fuel with
    | none => none
    | some (.error e) => some (.error e)
    | some (.ok (none, s)) => some (.ok ([], s))
    | some (.ok (some update, s)) =>
      match runSegments setup limit fuel s with
      | some (.ok (updates, s)) => some (.ok (update :: updates, s))
      | r => r

/-- The result from the initial to the current state. -/
def state (po2 : ℕ) (s : Session H B) : ExecutorResult where
  segments := s.segmentCounter.toNat + 1
  preImage := s.initialImage
  postImage := s.exec.pager.image
  userCycles := s.cycles.user
  totalCycles := s.cycles.total
  pagingCycles := s.cycles.paging
  reservedCycles := s.cycles.reserved
  ecallMetrics := s.ecallMetrics
  output := s.outputDigest
  terminateState := s.terminateState
  po2 := po2

end Session

end VerifiableCompute.Rv32im
