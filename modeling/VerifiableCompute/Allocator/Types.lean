import VerifiableCompute.Lib.Checked
import VerifiableCompute.Lib.OrderedMap

/-! The allocator keeps the books of the hardware that all workers share: which workers are
connected, which tasks run on them, and what every task holds of each GPU and of its
machine's cores. -/

namespace VerifiableCompute.Allocator

open Lib WordOrder

abbrev Uuid := BitVec 128

abbrev WorkerId := Uuid

abbrev GpuUuid := Uuid

structure GlobalId where
  jobId : Uuid
  taskId : BitVec 64
  deriving DecidableEq

instance : LinearOrder GlobalId :=
  LinearOrder.lift' (fun id : GlobalId => toLex (id.jobId, id.taskId)) fun a b h => by
    cases a
    cases b
    cases h
    rfl

inductive IpAddr
  | v4 (address : BitVec 32)
  | v6 (address : BitVec 128)
  deriving DecidableEq

structure SocketAddr where
  ip : IpAddr
  port : BitVec 16
  deriving DecidableEq

structure MachineId where
  ip : IpAddr
  deriving DecidableEq

def MachineId.newLocalhost : MachineId := ⟨.v4 0x7F000001⟩

structure Version where
  major : BitVec 64
  minor : BitVec 64
  patch : BitVec 64
  pre : String
  build : String
  deriving DecidableEq

structure DeploymentVersion where
  releaseChannel : String
  zkvmVersion : Version
  deriving DecidableEq

abbrev GpuTokens := BitVec 64

abbrev CpuCores := BitVec 64

structure GpuSpec where
  name : String
  uuid : GpuUuid
  tokens : GpuTokens

structure CpuSpec where
  cores : CpuCores

inductive HardwareResource
  | gpu (spec : GpuSpec)
  | cpu (spec : CpuSpec)

def HardwareResource.isCpu : HardwareResource → Bool
  | .gpu _ => false
  | .cpu _ => true

def HardwareResource.uuid? : HardwareResource → Option GpuUuid
  | .gpu spec => some spec.uuid
  | .cpu _ => none

inductive HardwareReservation
  | gpu (id : GpuUuid) (tokens : GpuTokens)
  | cpu (cores : CpuCores)

structure Gpu where
  maxTokens : GpuTokens
  freeTokens : GpuTokens

structure Cpu where
  totalCores : CpuCores
  freeCores : CpuCores

structure Task where
  description : String
  scheduledGpuTokens : GpuTokens
  scheduledCores : CpuCores
  usedGpuTokens : OrderedMap GpuUuid GpuTokens
  usedCores : CpuCores

def Task.cpuAllocated (task : Task) : Bool := 0 < task.usedCores

def Task.gpuAllocated (task : Task) : Bool := task.usedGpuTokens.entries.any fun e => 0 < e.2

def Task.hwAllocated (task : Task) : Bool := task.cpuAllocated || task.gpuAllocated

structure Worker where
  remoteAddress : Option SocketAddr
  machine : MachineId
  hardware : List HardwareResource
  tasks : OrderedMap GlobalId Task
  deploymentVersion : DeploymentVersion

structure Manager where
  remoteAddress : Option SocketAddr
  rpcPort : Option (BitVec 16)

/-- The ends of a program that does not return: an assertion, an `expect`, an overflow. -/
inductive Panic
  | expect (message : String)
  | assertion
  | overflow

inductive Error
  | unknownWorker (id : WorkerId)
  | unknownGpu (id : GpuUuid)
  | duplicateTaskId
  | twoCpus
  | duplicateRegistration (id : WorkerId) (ip : IpAddr)
  | noEligibleWorkers
  | taskNotOnWorker
  | workerNotRunning (id : GlobalId)
  | gpuTokensNotHeld
  | cpuCoresNotHeld
  | allocationPending
  | hardwareStillAllocated

structure RegisterWorker where
  remoteAddress : Option SocketAddr
  workerId : WorkerId
  hardware : List HardwareResource
  deploymentVersion : DeploymentVersion

structure ManagerAddress where
  ip : Option IpAddr
  port : BitVec 16

structure RegisterWorkerReply where
  managerAddress : Option ManagerAddress

structure ScheduleTask where
  candidates : List WorkerId
  taskId : GlobalId
  description : String
  cores : CpuCores
  gpuTokens : GpuTokens

structure ScheduleTaskReply where
  workerId : WorkerId

structure AllocateHardware where
  workerId : WorkerId
  taskId : GlobalId
  hardwareReservations : List HardwareReservation

structure DeallocateHardware where
  workerId : WorkerId
  taskId : GlobalId
  hardwareReservations : List HardwareReservation

structure EndTask where
  workerId : WorkerId
  taskId : GlobalId

structure RpcDisconnect where
  remoteAddress : SocketAddr

/-- The number of the message that waits for a reply. -/
abbrev ReplySender := ℕ

inductive Reply
  | registered (result : Except Error RegisterWorkerReply)
  | scheduled (result : Except Error ScheduleTaskReply)
  | done (result : Except Error Unit)

def Reply.error? : Reply → Option Error
  | .registered (.error e) => some e
  | .scheduled (.error e) => some e
  | .done (.error e) => some e
  | _ => none

structure PendingAllocation where
  request : AllocateHardware
  replySender : Option ReplySender

structure PendingTask where
  msg : ScheduleTask
  reply : Option ReplySender

structure AllocatorActor where
  workers : OrderedMap WorkerId Worker
  managers : DeploymentVersion → Option Manager
  gpus : GpuUuid → Option Gpu
  cpus : MachineId → Option Cpu
  pendingAllocations : List PendingAllocation
  pendingTasks : List PendingTask
  replies : List (ReplySender × Reply)

namespace AllocatorActor

def new (managers : DeploymentVersion → Option Manager) : AllocatorActor :=
  ⟨.empty, managers, fun _ => none, fun _ => none, [], [], []⟩

def send (sender : Option ReplySender) (reply : Reply) (s : AllocatorActor) : AllocatorActor :=
  match sender with
  | some sender => { s with replies := s.replies ++ [(sender, reply)] }
  | none => s

end AllocatorActor

/-- The value, or the panic where there is none. -/
def expect {α : Type} (message : String) : Option α → Except Panic α
  | some a => .ok a
  | none => .error (.expect message)

theorem expect_eq_ok {α : Type} {message : String} {o : Option α} {a : α} : expect message o = .ok a ↔ o = some a := by
  cases o <;> simp [expect]

/-- The value, or the error where there is none. -/
def okOr {α : Type} (e : Error) : Option α → Except Error α
  | some a => .ok a
  | none => .error e

end VerifiableCompute.Allocator
