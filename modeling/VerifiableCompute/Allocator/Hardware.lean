import VerifiableCompute.Allocator.Types

/-! Taking and giving back hardware. A request is checked reservation by reservation and then
taken reservation by reservation; one that has no room waits for hardware that is given back. -/

namespace VerifiableCompute.Allocator

open Lib WordOrder

namespace AllocatorActor

/-- Learn about a new GPU. -/
def addGpu (gpu : GpuSpec) (s : AllocatorActor) : AllocatorActor :=
  match s.gpus gpu.uuid with
  | some _ => s
  | none => { s with gpus := Function.update s.gpus gpu.uuid (some ⟨gpu.tokens, gpu.tokens⟩) }

/-- Learn about a new CPU. -/
def addCpu (machine : MachineId) (cpu : CpuSpec) (s : AllocatorActor) : AllocatorActor :=
  match s.cpus machine with
  | some _ => s
  | none => { s with cpus := Function.update s.cpus machine (some ⟨cpu.cores, cpu.cores⟩) }

def addResource (machine : MachineId) (s : AllocatorActor) : HardwareResource → AllocatorActor
  | .gpu gpu => s.addGpu gpu
  | .cpu cpu => s.addCpu machine cpu

/-- Learn about new hardware. -/
def addHardware (machine : MachineId) (hardware : List HardwareResource) (s : AllocatorActor) : AllocatorActor :=
  hardware.foldl (addResource machine) s

/-- A task of a worker in the place of the one of that name. -/
def setTask (workerId : WorkerId) (worker : Worker) (taskId : GlobalId) (task : Task) (s : AllocatorActor) : AllocatorActor :=
  { s with workers := s.workers.insert workerId { worker with tasks := worker.tasks.insert taskId task } }

end AllocatorActor

/-- What reservations change: the free hardware, and what one task holds. -/
structure Books where
  gpus : GpuUuid → Option Gpu
  cpus : MachineId → Option Cpu
  task : Task

/-- An error ends the loop, and what was done before it stays done. -/
def forReservations (step : HardwareReservation → Books → Except Panic (Books × Except Error Unit)) :
    List HardwareReservation → Books → Except Panic (Books × Except Error Unit)
  | [], books => .ok (books, .ok ())
  | res :: rest, books => do
    let (books, result) ← step res books
    match result with
    | .ok () => forReservations step rest books
    | .error e => return (books, .error e)

/-- Every reservation for itself fits what is free. -/
def hasRoom (gpus : GpuUuid → Option Gpu) (cpus : MachineId → Option Cpu) (machine : MachineId) :
    List HardwareReservation → Except Panic (Except Error Bool)
  | [] => .ok (.ok true)
  | .gpu id tokens :: rest =>
    match gpus id with
    | none => .ok (.error (.unknownGpu id))
    | some gpu => if gpu.freeTokens < tokens then .ok (.ok false) else hasRoom gpus cpus machine rest
  | .cpu cores :: rest =>
    match cpus machine with
    | none => .error (.expect "all worker CPUs should exist")
    | some cpu => if cpu.freeCores < cores then .ok (.ok false) else hasRoom gpus cpus machine rest

/-- One reservation is taken from what is free. -/
def take (machine : MachineId) : HardwareReservation → Books → Except Panic (Books × Except Error Unit)
  | .gpu id tokens, books =>
    match books.gpus id with
    | none => .ok (books, .error (.unknownGpu id))
    | some gpu => do
      let freeTokens ← checkedSub Panic.overflow gpu.freeTokens tokens
      let used ← checkedAdd Panic.overflow ((books.task.usedGpuTokens.get? id).getD 0) tokens
      return ({ books with
        gpus := Function.update books.gpus id (some { gpu with freeTokens })
        task := { books.task with usedGpuTokens := books.task.usedGpuTokens.insert id used } }, .ok ())
  | .cpu cores, books => do
    let cpu ← expect "all worker CPUs should exist" (books.cpus machine)
    let freeCores ← checkedSub Panic.overflow cpu.freeCores cores
    let usedCores ← checkedAdd Panic.overflow books.task.usedCores cores
    return ({ books with
      cpus := Function.update books.cpus machine (some { cpu with freeCores })
      task := { books.task with usedCores } }, .ok ())

/-- What a task holds without some tokens; with none left the GPU is dropped. -/
def Task.withoutTokens (id : GpuUuid) (held tokens : GpuTokens) (task : Task) : Task :=
  { task with usedGpuTokens :=
      if held - tokens = 0 then task.usedGpuTokens.erase id else task.usedGpuTokens.insert id (held - tokens) }

/-- Tokens added to a GPU that are not more than it has. -/
def giveTokens (id : GpuUuid) (tokens : GpuTokens) (gpus : GpuUuid → Option Gpu) (gpu : Gpu) :
    Except Panic (GpuUuid → Option Gpu) := do
  let freeTokens ← checkedAdd Panic.overflow gpu.freeTokens tokens
  require (freeTokens ≤ gpu.maxTokens) Panic.assertion
  return Function.update gpus id (some { gpu with freeTokens })

def giveCores (machine : MachineId) (cores : CpuCores) (cpus : MachineId → Option Cpu) (cpu : Cpu) :
    Except Panic (MachineId → Option Cpu) := do
  let freeCores ← checkedAdd Panic.overflow cpu.freeCores cores
  require (freeCores ≤ cpu.totalCores) Panic.assertion
  return Function.update cpus machine (some { cpu with freeCores })

def giveBack (machine : MachineId) : HardwareReservation → Books → Except Panic (Books × Except Error Unit)
  | .gpu id tokens, books =>
    match books.gpus id, books.task.usedGpuTokens.get? id with
    | none, _ => .ok (books, .error (.unknownGpu id))
    | some _, none => .ok (books, .error .gpuTokensNotHeld)
    | some gpu, some held =>
      if tokens ≤ held then do
        let gpus ← giveTokens id tokens books.gpus gpu
        return ({ books with gpus, task := books.task.withoutTokens id held tokens }, .ok ())
      else .ok (books, .error .gpuTokensNotHeld)
  | .cpu cores, books => do
    let cpu ← expect "all worker CPUs should exist" (books.cpus machine)
    if cores ≤ books.task.usedCores then
      let cpus ← giveCores machine cores books.cpus cpu
      return ({ books with cpus, task := { books.task with usedCores := books.task.usedCores - cores } }, .ok ())
    else return (books, .error .cpuCoresNotHeld)

namespace AllocatorActor

/-- The state with the books of a task put back. -/
def withBooks (workerId : WorkerId) (worker : Worker) (taskId : GlobalId) (books : Books) (s : AllocatorActor) : AllocatorActor :=
  setTask workerId worker taskId books.task { s with gpus := books.gpus, cpus := books.cpus }

def maybeAllocate (request : AllocateHardware) (s : AllocatorActor) : Except Panic (AllocatorActor × Except Error Bool) := do
  let worker ← expect "all pending requests should be for workers that are still connected" (s.workers.get? request.workerId)
  let task ← expect "all pending requests should be for tasks which are still scheduled" (worker.tasks.get? request.taskId)
  match ← hasRoom s.gpus s.cpus worker.machine request.hardwareReservations with
  | .error e => return (s, .error e)
  | .ok false => return (s, .ok false)
  | .ok true =>
    let (books, result) ← forReservations (take worker.machine) request.hardwareReservations ⟨s.gpus, s.cpus, task⟩
    return (s.withBooks request.workerId worker request.taskId books, result.map fun _ => true)

/-- One pending allocation: it is answered, or goes on waiting. -/
def considerAllocation (s : AllocatorActor) (p : PendingAllocation) : Except Panic AllocatorActor := do
  match ← s.maybeAllocate p.request with
  | (s, .ok true) => return s.send p.replySender (.done (.ok ()))
  | (s, .error e) => return s.send p.replySender (.done (.error e))
  | (s, .ok false) => return { s with pendingAllocations := s.pendingAllocations ++ [p] }

def maybeAllocateMany (s : AllocatorActor) : Except Panic AllocatorActor :=
  s.pendingAllocations.foldlM considerAllocation { s with pendingAllocations := [] }

def validateAllocationRequest (request : AllocateHardware) (s : AllocatorActor) : Except Error Unit := do
  let worker ← okOr (.unknownWorker request.workerId) (s.workers.get? request.workerId)
  require ((worker.tasks.get? request.taskId).isSome) .taskNotOnWorker

def allocateHardware (sender : Option ReplySender) (request : AllocateHardware) (s : AllocatorActor) : Except Panic AllocatorActor :=
  match s.validateAllocationRequest request with
  | .ok () => maybeAllocateMany { s with pendingAllocations := s.pendingAllocations ++ [⟨request, sender⟩] }
  | .error e => .ok (s.send sender (.done (.error e)))

def deallocateHardware (msg : DeallocateHardware) (s : AllocatorActor) : Except Panic (AllocatorActor × Except Error Unit) :=
  match s.workers.get? msg.workerId with
  | none => .ok (s, .error (.unknownWorker msg.workerId))
  | some worker =>
    match worker.tasks.get? msg.taskId with
    | none => .ok (s, .error (.workerNotRunning msg.taskId))
    | some task => do
      let (books, result) ← forReservations (giveBack worker.machine) msg.hardwareReservations ⟨s.gpus, s.cpus, task⟩
      let s := s.withBooks msg.workerId worker msg.taskId books
      match result with
      | .error e => return (s, .error e)
      | .ok () => return (← s.maybeAllocateMany, .ok ())

/-- What a task of a worker that is gone holds of one GPU. -/
def returnTokens (s : AllocatorActor) (used : GpuUuid × GpuTokens) : Except Panic AllocatorActor := do
  let gpu ← expect "all worker GPUs exist" (s.gpus used.1)
  return { s with gpus := ← giveTokens used.1 used.2 s.gpus gpu }

def returnTask (machine : MachineId) (s : AllocatorActor) (task : Task) : Except Panic AllocatorActor := do
  let s ← task.usedGpuTokens.entries.foldlM returnTokens s
  if 0 < task.usedCores then
    let cpu ← expect "all worker CPUs exist" (s.cpus machine)
    return { s with cpus := ← giveCores machine task.usedCores s.cpus cpu }
  else return s

/-- The pending requests of a worker that is gone are dropped, its hardware is free again. -/
def removeWorker (s : AllocatorActor) (entry : WorkerId × Worker) : Except Panic AllocatorActor :=
  (entry.2.tasks.entries.map Prod.snd).foldlM (returnTask entry.2.machine)
    { s with pendingAllocations := s.pendingAllocations.filter fun p => p.request.workerId ≠ entry.1 }

variable (msg : RpcDisconnect) (s : AllocatorActor)

/-- Workers with the address of the connection are taken out. -/
def takeOutWorkers : Except Panic AllocatorActor :=
  (s.workers.entries.filter fun e => e.2.remoteAddress = some msg.remoteAddress).foldlM removeWorker
    { s with workers := s.workers.retain fun _ w => w.remoteAddress ≠ some msg.remoteAddress }

def maybeRemoveWorkers : Except Panic AllocatorActor := do
  (← s.takeOutWorkers msg).maybeAllocateMany

def maybeRemoveManagers : AllocatorActor :=
  { s with managers := fun version => (s.managers version).filter fun m => m.remoteAddress ≠ some msg.remoteAddress }

end AllocatorActor

end VerifiableCompute.Allocator
