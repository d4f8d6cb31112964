import VerifiableCompute.Allocator.Scheduling

/-! What is free and what tasks hold is all the hardware there is. -/

namespace VerifiableCompute.Allocator

open Lib WordOrder OrderedMap Option Function

def Task.held (task : Task) (g : GpuUuid) : ℕ := ((task.usedGpuTokens.get? g).getD 0).toNat

namespace AllocatorActor

/-- A quantity of tasks and the machines they run on, over all tasks of all workers. -/
def tally (f : MachineId → Task → ℕ) (s : AllocatorActor) : ℕ :=
  s.workers.total fun _ worker => worker.tasks.total fun _ task => f worker.machine task

def tokensUsed (s : AllocatorActor) (g : GpuUuid) : ℕ := s.tally fun _ task => task.held g

def coresUsed (s : AllocatorActor) (m : MachineId) : ℕ := s.tally fun machine task => if m = machine then task.usedCores.toNat else 0

/-- A worker that is connected and runs the task. -/
def Running (s : AllocatorActor) (request : AllocateHardware) : Prop :=
  ∃ worker task, s.workers.get? request.workerId = some worker ∧ worker.tasks.get? request.taskId = some task

end AllocatorActor

/-- Free and held hardware make up the whole of it, and nothing is held of a CPU that is not known. -/
structure Covers (gpus : GpuUuid → Option Gpu) (cpus : MachineId → Option Cpu) (tokens : GpuUuid → ℕ) (cores : MachineId → ℕ) :
    Prop where
  gpu : ∀ g gpu, gpus g = some gpu → gpu.freeTokens.toNat + tokens g = gpu.maxTokens.toNat
  cpu : ∀ m cpu, cpus m = some cpu → cpu.freeCores.toNat + cores m = cpu.totalCores.toNat
  cpu_known : ∀ m, cpus m = none → cores m = 0

/-- A task holds tokens of known GPUs only. -/
def KeysKnown (gpus : GpuUuid → Option Gpu) (task : Task) : Prop := ∀ g, (task.usedGpuTokens.get? g).isSome → (gpus g).isSome

/-- The invariant. -/
structure Kept (s : AllocatorActor) : Prop where
  covers : Covers s.gpus s.cpus s.tokensUsed s.coresUsed
  keys : ∀ id worker taskId task, s.workers.get? id = some worker → worker.tasks.get? taskId = some task → KeysKnown s.gpus task
  hardware : ∀ id worker, s.workers.get? id = some worker → ∀ uuid ∈ worker.gpuUuids, (s.gpus uuid).isSome
  pending : ∀ p ∈ s.pendingAllocations, s.Running p.request

/-- The same GPUs and CPUs are known, of the same size. -/
structure SameHardware (gpus gpus' : GpuUuid → Option Gpu) (cpus cpus' : MachineId → Option Cpu) : Prop where
  gpu : ∀ g, (gpus' g).map (·.maxTokens) = (gpus g).map (·.maxTokens)
  cpu : ∀ m, (cpus' m).map (·.totalCores) = (cpus m).map (·.totalCores)

theorem SameHardware.refl (gpus : GpuUuid → Option Gpu) (cpus : MachineId → Option Cpu) : SameHardware gpus gpus cpus cpus :=
  ⟨fun _ => rfl, fun _ => rfl⟩

variable {gpus gpus' : GpuUuid → Option Gpu} {cpus cpus' : MachineId → Option Cpu} {id : GpuUuid} {task : Task} {amount : GpuTokens}

theorem SameHardware.symm (h : SameHardware gpus gpus' cpus cpus') : SameHardware gpus' gpus cpus' cpus :=
  ⟨fun g => (h.gpu g).symm, fun m => (h.cpu m).symm⟩

theorem SameHardware.trans {gpus'' : GpuUuid → Option Gpu} {cpus'' : MachineId → Option Cpu}
    (h : SameHardware gpus gpus' cpus cpus') (h' : SameHardware gpus' gpus'' cpus' cpus'') :
    SameHardware gpus gpus'' cpus cpus'' :=
  ⟨fun g => (h'.gpu g).trans (h.gpu g), fun m => (h'.cpu m).trans (h.cpu m)⟩

theorem SameHardware.gpu_known
    (h : SameHardware gpus gpus' cpus cpus') (g : GpuUuid) : (gpus' g).isSome = (gpus g).isSome := by
  have := congrArg isSome (h.gpu g)
  rwa [isSome_map, isSome_map] at this

theorem SameHardware.cpu_known
    (h : SameHardware gpus gpus' cpus cpus') (m : MachineId) : (cpus' m).isSome = (cpus m).isSome := by
  have := congrArg isSome (h.cpu m)
  rwa [isSome_map, isSome_map] at this

theorem sameHardware_updateGpu (cpus : MachineId → Option Cpu) {gpu : Gpu}
    (h : gpus id = some gpu) (freeTokens : GpuTokens) :
    SameHardware gpus (update gpus id (some { gpu with freeTokens })) cpus cpus := by
  refine ⟨fun g => ?_, fun _ => rfl⟩
  by_cases hg : g = id
  · rw [hg, update_self, h]
    rfl
  · rw [update_of_ne hg]

theorem sameHardware_updateCpu (gpus : GpuUuid → Option Gpu) {m : MachineId} {cpu : Cpu}
    (h : cpus m = some cpu) (freeCores : CpuCores) :
    SameHardware gpus gpus cpus (update cpus m (some { cpu with freeCores })) := by
  refine ⟨fun _ => rfl, fun m' => ?_⟩
  by_cases hm : m' = m
  · rw [hm, update_self, h]
    rfl
  · rw [update_of_ne hm]

namespace AllocatorActor

variable {s : AllocatorActor} {id : WorkerId} {worker : Worker}

theorem tally_setTask (f : MachineId → Task → ℕ)
    (hworker : s.workers.get? id = some worker) (taskId : GlobalId) (task : Task) :
    (s.setTask id worker taskId task).tally f + (worker.tasks.get? taskId).elim 0 (f worker.machine) =
      s.tally f + f worker.machine task := by
  have hworkers := total_insert (fun _ (w : Worker) => w.tasks.total fun _ task => f w.machine task) id
    { worker with tasks := worker.tasks.insert taskId task } s.workers
  have htasks : (worker.tasks.insert taskId task).total (fun _ task => f worker.machine task) +
      (worker.tasks.get? taskId).elim 0 (f worker.machine) = worker.tasks.total (fun _ task => f worker.machine task) +
      f worker.machine task := total_insert (fun _ task => f worker.machine task) taskId task worker.tasks
  rw [hworker, elim_some] at hworkers
  have hchange : (s.setTask id worker taskId task).tally f + worker.tasks.total (fun _ task => f worker.machine task) =
      s.tally f + (worker.tasks.insert taskId task).total fun _ task => f worker.machine task := hworkers
  omega

theorem get?_setTask {taskId : GlobalId} {task : Task} (id' : WorkerId) :
    (s.setTask id worker taskId task).workers.get? id' =
      if id' = id then some { worker with tasks := worker.tasks.insert taskId task } else s.workers.get? id' := by
  rw [setTask, get?_insert]
  split <;> rfl

theorem Running.setTask (hworker : s.workers.get? id = some worker)
    {request : AllocateHardware} (h : s.Running request) (taskId : GlobalId) (task : Task) :
    (s.setTask id worker taskId task).Running request := by
  obtain ⟨w, t, hw, ht⟩ := h
  by_cases hid : request.workerId = id
  · rw [hid, hworker] at hw
    cases hw
    refine ⟨{ worker with tasks := worker.tasks.insert taskId task }, if request.taskId = taskId then task else t, ?_, ?_⟩
    · rw [get?_setTask, if_pos hid]
    · rw [get?_insert]
      split
      · rfl
      · exact ht
  · exact ⟨w, t, by rw [get?_setTask, if_neg hid, hw], ht⟩

end AllocatorActor

namespace Covers

variable {gpus : GpuUuid → Option Gpu} {cpus : MachineId → Option Cpu} {tokens tokens' : GpuUuid → ℕ} {cores cores' : MachineId → ℕ}
variable {id : GpuUuid} {gpu : Gpu} {amount : GpuTokens} {m : MachineId} {cpu : Cpu}

variable (h : Covers gpus cpus tokens cores)

include h

theorem takeTokens (hgpu : gpus id = some gpu) {freeTokens : GpuTokens}
    (hfree : checkedSub Panic.overflow gpu.freeTokens amount = .ok freeTokens)
    (htokens : ∀ g, tokens' g = tokens g + if g = id then amount.toNat else 0) :
    Covers (update gpus id (some { gpu with freeTokens })) cpus tokens' cores where
  gpu g gpu' hget := by
    have hsub := checkedSub_ok hfree
    by_cases hg : g = id
    · subst hg
      rw [update_self] at hget
      cases hget
      have := h.gpu g gpu hgpu
      rw [htokens, if_pos rfl]
      simp only
      omega
    · rw [update_of_ne hg] at hget
      rw [htokens, if_neg hg, Nat.add_zero, h.gpu g gpu' hget]
  cpu := h.cpu
  cpu_known := h.cpu_known

theorem takeCores (hcpu : cpus m = some cpu) {amount freeCores : CpuCores}
    (hfree : checkedSub Panic.overflow cpu.freeCores amount = .ok freeCores)
    (hcores : ∀ m', cores' m' = cores m' + if m' = m then amount.toNat else 0) :
    Covers gpus (update cpus m (some { cpu with freeCores })) tokens cores' where
  gpu := h.gpu
  cpu m' cpu' hget := by
    have hsub := checkedSub_ok hfree
    by_cases hm : m' = m
    · subst hm
      rw [update_self] at hget
      cases hget
      have := h.cpu m' cpu hcpu
      rw [hcores, if_pos rfl]
      simp only
      omega
    · rw [update_of_ne hm] at hget
      rw [hcores, if_neg hm, Nat.add_zero, h.cpu m' cpu' hget]
  cpu_known m' hnone := by
    by_cases hm : m' = m
    · rw [hm, update_self] at hnone
      cases hnone
    · rw [update_of_ne hm] at hnone
      rw [hcores, if_neg hm, h.cpu_known m' hnone]

theorem giveTokens (hgpu : gpus id = some gpu)
    (htokens : ∀ g, tokens g = tokens' g + if g = id then amount.toNat else 0) :
    ∃ gpus', Allocator.giveTokens id amount gpus gpu = .ok gpus' ∧ Covers gpus' cpus tokens' cores ∧ SameHardware gpus gpus' cpus cpus := by
  have hall := h.gpu id gpu hgpu
  rw [htokens, if_pos rfl] at hall
  have hadd : gpu.freeTokens.toNat + amount.toNat < 2 ^ 64 := by omega
  have hsum : (gpu.freeTokens + amount).toNat = gpu.freeTokens.toNat + amount.toNat := BitVec.toNat_add_of_lt hadd
  refine ⟨_, bind_ok_iff.mpr ⟨_, checkedAdd_eq_ok hadd, bind_ok_iff.mpr ⟨(), require_ok_iff.mpr ?_, rfl⟩⟩,
    ⟨fun g gpu' hget => ?_, h.cpu, h.cpu_known⟩, sameHardware_updateGpu cpus hgpu _⟩
  · rw [BitVec.le_def]
    omega
  · by_cases hg : g = id
    · subst hg
      rw [update_self] at hget
      cases hget
      simp only
      omega
    · rw [update_of_ne hg] at hget
      have := h.gpu g gpu' hget
      rw [htokens, if_neg hg, Nat.add_zero] at this
      exact this

theorem giveCores (hcpu : cpus m = some cpu) {amount : CpuCores}
    (hcores : ∀ m', cores m' = cores' m' + if m' = m then amount.toNat else 0) :
    ∃ cpus', Allocator.giveCores m amount cpus cpu = .ok cpus' ∧ Covers gpus cpus' tokens cores' ∧ SameHardware gpus gpus cpus cpus' := by
  have hall := h.cpu m cpu hcpu
  rw [hcores, if_pos rfl] at hall
  have hadd : cpu.freeCores.toNat + amount.toNat < 2 ^ 64 := by omega
  have hsum : (cpu.freeCores + amount).toNat = cpu.freeCores.toNat + amount.toNat := BitVec.toNat_add_of_lt hadd
  refine ⟨_, bind_ok_iff.mpr ⟨_, checkedAdd_eq_ok hadd, bind_ok_iff.mpr ⟨(), require_ok_iff.mpr ?_, rfl⟩⟩,
    ⟨h.gpu, fun m' cpu' hget => ?_, fun m' hnone => ?_⟩, sameHardware_updateCpu gpus hcpu _⟩
  · rw [BitVec.le_def]
    omega
  · by_cases hm : m' = m
    · subst hm
      rw [update_self] at hget
      cases hget
      simp only
      omega
    · rw [update_of_ne hm] at hget
      have := h.cpu m' cpu' hget
      rw [hcores, if_neg hm, Nat.add_zero] at this
      exact this
  · by_cases hm : m' = m
    · rw [hm, update_self] at hnone
      cases hnone
    · rw [update_of_ne hm] at hnone
      have := h.cpu_known m' hnone
      rw [hcores] at this
      omega

end Covers

/-- The books of a task on a machine, where the other tasks hold `rest`. -/
structure Balanced (machine : MachineId) (rest : GpuUuid → ℕ) (restCores : MachineId → ℕ) (books : Books) : Prop where
  covers : Covers books.gpus books.cpus (fun g => books.task.held g + rest g)
    fun m => (if m = machine then books.task.usedCores.toNat else 0) + restCores m
  keys : KeysKnown books.gpus books.task

theorem held_insert (task : Task) (id : GpuUuid) (amount : GpuTokens) (g : GpuUuid) :
    Task.held { task with usedGpuTokens := task.usedGpuTokens.insert id amount } g =
      if g = id then amount.toNat else task.held g := by
  rw [Task.held, get?_insert]
  by_cases hg : g = id
  · rw [if_pos hg, if_pos hg, getD_some]
  · rw [if_neg hg, if_neg hg, Task.held]

theorem held_withoutTokens {tokens : GpuTokens} (hheld : task.usedGpuTokens.get? id = some amount)
    (hle : tokens ≤ amount) (g : GpuUuid) :
    (task.withoutTokens id amount tokens).held g + (if g = id then tokens.toNat else 0) = task.held g := by
  have hsub := sub_add_toNat hle
  by_cases hg : g = id
  · subst hg
    rw [if_pos rfl, Task.held, Task.held, hheld, getD_some, Task.withoutTokens]
    split
    next hzero =>
      rw [get?_erase, if_pos rfl, getD_none]
      rw [hzero] at hsub
      exact hsub
    next => rw [get?_insert, if_pos rfl, getD_some, hsub]
  · rw [if_neg hg, Nat.add_zero, Task.held, Task.held, Task.withoutTokens]
    split
    · rw [get?_erase, if_neg hg]
    · rw [get?_insert, if_neg hg]

theorem keys_withoutTokens (h : KeysKnown gpus task)
    (hheld : task.usedGpuTokens.get? id = some amount) (tokens : GpuTokens) : KeysKnown gpus (task.withoutTokens id amount tokens) := by
  intro g hg
  apply h
  rw [Task.withoutTokens] at hg
  by_cases hid : g = id
  · rw [hid, hheld, isSome_some]
  · split at hg
    · rwa [get?_erase, if_neg hid] at hg
    · rwa [get?_insert, if_neg hid] at hg

theorem KeysKnown.same
    (h : KeysKnown gpus task) (hsame : SameHardware gpus gpus' cpus cpus') : KeysKnown gpus' task := by
  intro g hg
  rw [hsame.gpu_known]
  exact h g hg

end VerifiableCompute.Allocator
