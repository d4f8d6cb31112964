import VerifiableCompute.Allocator.Hardware

/-! Choosing workers for tasks. A task goes to the least busy of its candidates that have
room for it; where none has room it waits. -/

namespace VerifiableCompute.Allocator

open Lib WordOrder

/-- A sum that aborts where it does not fit. -/
def checkedSum (l : List (BitVec 64)) : Except Panic (BitVec 64) := l.foldlM (checkedAdd Panic.overflow) 0

def saturatingSub (x y : BitVec 64) : BitVec 64 := if y ≤ x then x - y else 0

namespace Worker

def totalScheduledTokens (worker : Worker) : Except Panic GpuTokens :=
  checkedSum (worker.tasks.entries.map fun e => e.2.scheduledGpuTokens)

def totalScheduledCores (worker : Worker) : Except Panic CpuCores :=
  checkedSum (worker.tasks.entries.map fun e => e.2.scheduledCores)

/-- The GPUs of a worker in its own order. -/
def gpuUuids (worker : Worker) : List GpuUuid := worker.hardware.filterMap HardwareResource.uuid?

end Worker

/-- How busy a candidate is, with its id to break ties. -/
structure CandidateWorker where
  gpuTokens : GpuTokens
  usedCores : CpuCores
  workerTokens : GpuTokens
  id : WorkerId

/-- The order of the fields. -/
def CandidateWorker.lt (a b : CandidateWorker) : Bool :=
  a.gpuTokens < b.gpuTokens || a.gpuTokens = b.gpuTokens && (a.usedCores < b.usedCores ||
    a.usedCores = b.usedCores && (a.workerTokens < b.workerTokens || a.workerTokens = b.workerTokens && a.id < b.id))

/-- The first of the candidates in sorted order. -/
def leastBusy (first : CandidateWorker) (rest : List CandidateWorker) : CandidateWorker :=
  rest.foldl (fun least w => if w.lt least then w else least) first

namespace AllocatorActor

variable (queued : GpuTokens → GpuTokens)

section

variable (worker : Worker) (s : AllocatorActor)

def getAssociatedWorkers : List Worker :=
  (s.workers.entries.filter fun e => worker.gpuUuids.any fun id => id ∈ e.2.gpuUuids).map Prod.snd

def getWorkerGpuScheduledTokens : Except Panic GpuTokens := do
  checkedSum (← (s.getAssociatedWorkers worker).mapM (·.totalScheduledTokens))

def getMachineScheduledCores : Except Panic CpuCores := do
  checkedSum (← ((s.workers.entries.map Prod.snd).filter fun w => w.machine = worker.machine).mapM (·.totalScheduledCores))

end

/-- A candidate that is connected. The others are not selected. -/
def candidate (s : AllocatorActor) (id : WorkerId) : Except Panic (Option CandidateWorker) :=
  match s.workers.get? id with
  | none => .ok none
  | some worker => do
    let gpuTokens ← s.getWorkerGpuScheduledTokens worker
    let usedCores ← s.getMachineScheduledCores worker
    let workerTokens ← worker.totalScheduledTokens
    return some { gpuTokens, usedCores, workerTokens, id }

/-- What a GPU has left for the tasks of one worker, where `queued` is the number of tokens that
may be queued for a GPU. -/
def gpuRemainingWorkerCapacity (gpu : Gpu) (worker : Worker) : GpuTokens :=
  worker.tasks.entries.foldl (fun capacity e => saturatingSub capacity e.2.scheduledGpuTokens) (queued gpu.maxTokens)

/-- What all GPUs of a worker have left. -/
def workerRemainingCapacity (id : WorkerId) (s : AllocatorActor) : Except Panic GpuTokens := do
  let worker ← expect "worker should still exist" (s.workers.get? id)
  worker.gpuUuids.foldlM (fun total uuid => do
    let gpu ← expect "worker should still exist and have valid GPU" (s.gpus uuid)
    checkedAdd Panic.overflow total (gpuRemainingWorkerCapacity queued gpu worker)) 0

def withRoom (tokens : GpuTokens) (s : AllocatorActor) : List CandidateWorker → Except Panic (List CandidateWorker)
  | [] => .ok []
  | w :: rest => do
    let room ← s.workerRemainingCapacity queued w.id
    let rest ← withRoom tokens s rest
    return if tokens ≤ room then w :: rest else rest

def Task.ofMsg (msg : ScheduleTask) : Task := ⟨msg.description, msg.gpuTokens, msg.cores, .empty, 0⟩

def addWorkerTask (id : WorkerId) (msg : ScheduleTask) (s : AllocatorActor) : AllocatorActor × Except Error Unit :=
  match s.workers.get? id with
  | none => (s, .error (.unknownWorker id))
  | some worker =>
    match worker.tasks.get? msg.taskId with
    | some _ => (s, .error .duplicateTaskId)
    | none => (s.setTask id worker msg.taskId (Task.ofMsg msg), .ok ())

/-- The first of the candidates with room gets the task. -/
def chooseWorker (msg : ScheduleTask) (s : AllocatorActor) :
    List CandidateWorker → AllocatorActor × Option (Except Error ScheduleTaskReply)
  | [] => (s, none)
  | first :: rest =>
    let chosen := (leastBusy first rest).id
    let (s, result) := s.addWorkerTask chosen msg
    (s, some (result.map fun _ => ⟨chosen⟩))

/-- The answer to a request, and none while all candidates are full. -/
def maybeScheduleTask (msg : ScheduleTask) (s : AllocatorActor) :
    Except Panic (AllocatorActor × Option (Except Error ScheduleTaskReply)) := do
  let workers ← msg.candidates.mapM s.candidate
  if workers.reduceOption = [] then return (s, some (.error .noEligibleWorkers))
  else return s.chooseWorker msg (← s.withRoom queued msg.gpuTokens workers.reduceOption)

/-- One pending task: it is answered, or skipped. -/
def considerTask (s : AllocatorActor) (task : PendingTask) : Except Panic AllocatorActor := do
  match ← s.maybeScheduleTask queued task.msg with
  | (s, some reply) => return s.send task.reply (.scheduled reply)
  | (s, none) => return { s with pendingTasks := s.pendingTasks ++ [task] }

def maybeScheduleTasks (s : AllocatorActor) : Except Panic AllocatorActor :=
  s.pendingTasks.foldlM (considerTask queued) { s with pendingTasks := [] }

def scheduleTask (sender : Option ReplySender) (msg : ScheduleTask) (s : AllocatorActor) : Except Panic AllocatorActor :=
  maybeScheduleTasks queued { s with pendingTasks := s.pendingTasks ++ [⟨msg, sender⟩] }

def endTask (msg : EndTask) (s : AllocatorActor) : Except Panic (AllocatorActor × Except Error Unit) :=
  match s.workers.get? msg.workerId with
  | none => .ok (s, .error (.unknownWorker msg.workerId))
  | some worker =>
    if s.pendingAllocations.any fun p => p.request.taskId = msg.taskId then .ok (s, .error .allocationPending)
    else
      match worker.tasks.get? msg.taskId with
      | none => .ok (s, .error (.workerNotRunning msg.taskId))
      | some task =>
        if task.hwAllocated then .ok (s, .error .hardwareStillAllocated)
        else do
          let worker := { worker with tasks := worker.tasks.erase msg.taskId }
          let s ← maybeScheduleTasks queued { s with workers := s.workers.insert msg.workerId worker }
          return (s, .ok ())

def registerWorker (msg : RegisterWorker) (s : AllocatorActor) : AllocatorActor × Except Error RegisterWorkerReply :=
  let machine := match msg.remoteAddress with
    | some addr => ⟨addr.ip⟩
    | none => MachineId.newLocalhost
  match s.workers.get? msg.workerId with
  | some _ => (s, .error (.duplicateRegistration msg.workerId machine.ip))
  | none =>
    let worker : Worker := ⟨msg.remoteAddress, machine, msg.hardware, .empty, msg.deploymentVersion⟩
    let s := { s with workers := s.workers.insert msg.workerId worker }
    if 1 < msg.hardware.countP HardwareResource.isCpu then (s, .error .twoCpus)
    else
      let s := s.addHardware machine msg.hardware
      let managerAddress := do
        let manager ← s.managers msg.deploymentVersion
        let port ← manager.rpcPort
        return { ip := manager.remoteAddress.map (·.ip), port }
      (s, .ok { managerAddress })

end AllocatorActor

inductive Message
  | registerWorker (msg : RegisterWorker)
  | scheduleTask (msg : ScheduleTask)
  | allocateHardware (msg : AllocateHardware)
  | deallocateHardware (msg : DeallocateHardware)
  | endTask (msg : EndTask)
  | rpcDisconnect (msg : RpcDisconnect)

/-- What the actor does with a message and the sender of it who waits for a reply. -/
def handle (queued : GpuTokens → GpuTokens) (sender : Option ReplySender) (msg : Message) (s : AllocatorActor) :
    Except Panic AllocatorActor :=
  match msg with
  | .registerWorker msg =>
    let (s, result) := s.registerWorker msg
    .ok (s.send sender (.registered result))
  | .scheduleTask msg => s.scheduleTask queued sender msg
  | .allocateHardware msg => s.allocateHardware sender msg
  | .deallocateHardware msg => do
    let (s, result) ← s.deallocateHardware msg
    return s.send sender (.done result)
  | .endTask msg => do
    let (s, result) ← s.endTask queued msg
    return s.send sender (.done result)
  | .rpcDisconnect msg => do return (← s.maybeRemoveWorkers msg).maybeRemoveManagers msg

end VerifiableCompute.Allocator
