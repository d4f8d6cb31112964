import VerifiableCompute.Allocator.Membership

/-! The hardware accounts of the allocator add up after every message, and no message stops
the allocator, as long as requests do not meet the cases that it does not check. -/

namespace VerifiableCompute.Allocator

open Lib WordOrder AllocatorActor List Option

/-- Nothing is over-committed, nothing leaks, and whoever waits is there. -/
structure Accounted (s : AllocatorActor) : Prop where
  gpu : ∀ g gpu, s.gpus g = some gpu → gpu.freeTokens.toNat + s.tokensUsed g = gpu.maxTokens.toNat
  cpu : ∀ m cpu, s.cpus m = some cpu → cpu.freeCores.toNat + s.coresUsed m = cpu.totalCores.toNat
  pending : ∀ p ∈ s.pendingAllocations, s.Running p.request

theorem Kept.accounted {s : AllocatorActor} (h : Kept s) : Accounted s := ⟨h.covers.gpu, h.covers.cpu, h.pending⟩

/-- All hardware that is known. -/
def AllocatorActor.size (s : AllocatorActor) : Amounts :=
  (fun g => (s.gpus g).elim 0 fun gpu => gpu.maxTokens.toNat, fun m => (s.cpus m).elim 0 fun cpu => cpu.totalCores.toNat)

/-- What the tasks of connected workers hold. -/
def AllocatorActor.held (s : AllocatorActor) : Amounts := (s.tokensUsed, s.coresUsed)

/-- What a message needs in the state before it. The requests that it wakes have their turns
where what is free before and what the message frees is free, or less by what the requests ahead
of them ask for. -/
def Clear (queued : GpuTokens → GpuTokens) (s : AllocatorActor) (sender : Option ReplySender) : Message → Prop
  | .registerWorker msg => RegistrationClear s msg
  | .scheduleTask msg => TasksClear queued s 0 0 (s.pendingTasks ++ [⟨msg, sender⟩])
  | .allocateHardware msg => s.Running msg → s.QueueClear s.free s.free (s.pendingAllocations ++ [⟨msg, sender⟩])
  | .deallocateHardware msg => ∀ worker task, s.workers.get? msg.workerId = some worker →
      worker.tasks.get? msg.taskId = some task →
        (s.cpus worker.machine = none → ¬ ReturnsCores s.gpus task msg.hardwareReservations) ∧
        (AllHeld s.gpus task msg.hardwareReservations →
          let free := s.free + demand worker.machine msg.hardwareReservations
          s.QueueClear free free s.pendingAllocations)
  | .endTask msg => ∀ worker task, s.workers.get? msg.workerId = some worker → worker.tasks.get? msg.taskId = some task →
      task.hwAllocated = false → (∀ p ∈ s.pendingAllocations, p.request.taskId ≠ msg.taskId) →
        TasksClear queued { s with workers := s.workers.insert msg.workerId { worker with tasks := worker.tasks.erase msg.taskId } }
          0 0 s.pendingTasks
  | .rpcDisconnect msg =>
      let free := s.size - (s.disconnected msg).held
      (s.disconnected msg).QueueClear free free (s.disconnected msg).pendingAllocations

variable {queued : GpuTokens → GpuTokens} {managers : DeploymentVersion → Option Manager} {s : AllocatorActor}

theorem Kept.free_add_held (h : Kept s) : s.free + s.held = s.size := by
  refine Prod.ext (funext fun g => ?_) (funext fun m => ?_)
  · show (freeOf s.gpus s.cpus).1 g + s.tokensUsed g = _
    cases hgpu : s.gpus g with
    | none => simp only [freeOf, size, hgpu, elim_none, tokensUsed_unknown h hgpu]
    | some gpu => simp only [freeOf, size, hgpu, elim_some, h.covers.gpu g gpu hgpu]
  · show (freeOf s.gpus s.cpus).2 m + s.coresUsed m = _
    cases hcpu : s.cpus m with
    | none => simp only [freeOf, size, hcpu, elim_none, h.covers.cpu_known m hcpu]
    | some cpu => simp only [freeOf, size, hcpu, elim_some, h.covers.cpu m cpu hcpu]

theorem validateAllocationRequest_cases (s : AllocatorActor) (request : AllocateHardware) :
    s.validateAllocationRequest request = .ok () ∧ s.Running request ∨ ∃ e, s.validateAllocationRequest request = .error e := by
  unfold AllocatorActor.validateAllocationRequest
  cases hworker : s.workers.get? request.workerId with
  | none => exact .inr ⟨_, rfl⟩
  | some worker =>
    cases htask : worker.tasks.get? request.taskId with
    | none =>
      right
      refine ⟨.taskNotOnWorker, ?_⟩
      show require ((worker.tasks.get? request.taskId).isSome) _ = _
      rw [htask]
      rfl
    | some task =>
      left
      refine ⟨?_, worker, task, hworker, htask⟩
      show require ((worker.tasks.get? request.taskId).isSome) _ = _
      rw [htask]
      rfl

variable {sender : Option ReplySender}

theorem allocateHardware_spec {msg : AllocateHardware} (h : Kept s)
    (hclear : Clear queued s sender (.allocateHardware msg)) : ∃ s', s.allocateHardware sender msg = .ok s' ∧ Kept s' := by
  unfold AllocatorActor.allocateHardware
  obtain ⟨hvalid, hrunning⟩ | ⟨e, hinvalid⟩ := validateAllocationRequest_cases s msg
  · rw [hvalid]
    have hkept : Kept { s with pendingAllocations := s.pendingAllocations ++ [⟨msg, sender⟩] } := by
      refine ⟨h.covers, h.keys, h.hardware, fun p hp => ?_⟩
      obtain hp | hp := mem_append.mp hp
      · exact h.pending p hp
      · rw [mem_singleton.mp hp]
        exact hrunning
    exact maybeAllocateMany_spec hkept (hclear hrunning) ⟨.refl _ _, fun _ => rfl, fun _ hr => hr⟩ le_rfl le_rfl
  · rw [hinvalid]
    exact ⟨_, rfl, h.send ..⟩

theorem deallocateHardware_spec {msg : DeallocateHardware} (h : Kept s)
    (hclear : Clear queued s sender (.deallocateHardware msg)) :
    ∃ s' result, s.deallocateHardware msg = .ok (s', result) ∧ Kept s' := by
  unfold AllocatorActor.deallocateHardware
  cases hworker : s.workers.get? msg.workerId with
  | none => exact ⟨s, _, rfl, h⟩
  | some worker =>
    simp only
    cases htask : worker.tasks.get? msg.taskId with
    | none => exact ⟨s, _, rfl, h⟩
    | some task =>
      obtain ⟨hcpu, hqueue⟩ := hclear worker task hworker htask
      obtain ⟨books, result, hloop, hbalanced, hsame⟩ := giveAll_spec (h.balanced hworker htask) hcpu
      have hkept := h.withBooks hworker htask hbalanced hsame
      cases result with
      | error e => exact ⟨_, .error e, bind_ok_iff.mpr ⟨_, hloop, rfl⟩, hkept⟩
      | ok _ =>
        obtain ⟨-, -, -, hgiven, -⟩ := @giveAll_cases _ _ s.gpus _ _ _ hloop fun _ => rfl
        obtain ⟨hheld, hfree⟩ := hgiven rfl
        obtain ⟨s', hmany, hkept'⟩ := maybeAllocateMany_spec hkept (hqueue hheld) (sameTasks_withBooks hworker hsame) hfree.ge hfree.le
        exact ⟨s', .ok (), bind_ok_iff.mpr ⟨_, hloop, bind_ok_iff.mpr ⟨s', hmany, rfl⟩⟩, hkept'⟩

theorem endTask_spec {msg : EndTask} (h : Kept s) (hclear : Clear queued s sender (.endTask msg)) :
    ∃ s' result, s.endTask queued msg = .ok (s', result) ∧ Kept s' := by
  unfold AllocatorActor.endTask
  cases hworker : s.workers.get? msg.workerId with
  | none => exact ⟨s, _, rfl, h⟩
  | some worker =>
    simp only
    by_cases hpending : s.pendingAllocations.any fun p => p.request.taskId = msg.taskId
    · rw [if_pos hpending]
      exact ⟨s, _, rfl, h⟩
    · have hnone : ∀ p ∈ s.pendingAllocations, p.request.taskId ≠ msg.taskId := by
        intro p hp heq
        exact hpending (List.any_eq_true.mpr ⟨p, hp, decide_eq_true heq⟩)
      rw [if_neg hpending]
      cases htask : worker.tasks.get? msg.taskId with
      | none => exact ⟨s, _, rfl, h⟩
      | some task =>
        simp only
        by_cases hhw : task.hwAllocated
        · rw [if_pos hhw]
          exact ⟨s, _, rfl, h⟩
        · rw [if_neg hhw]
          have hfree : task.hwAllocated = false := Bool.eq_false_iff.mpr hhw
          obtain ⟨s', htasks, hkept⟩ := maybeScheduleTasks_spec (h.eraseTask hworker htask hfree hnone)
            (hclear worker task hworker htask hfree hnone) rfl rfl
          exact ⟨s', .ok (), bind_ok_iff.mpr ⟨s', htasks, rfl⟩, hkept⟩

theorem handle_spec {msg : Message} (h : Kept s) (hclear : Clear queued s sender msg) :
    ∃ s', handle queued sender msg s = .ok s' ∧ Kept s' := by
  cases msg with
  | registerWorker msg => exact ⟨_, rfl, (h.registerWorker hclear).send ..⟩
  | scheduleTask msg =>
    have hkept : Kept { s with pendingTasks := s.pendingTasks ++ [⟨msg, sender⟩] } := ⟨h.covers, h.keys, h.hardware, h.pending⟩
    exact maybeScheduleTasks_spec hkept hclear rfl rfl
  | allocateHardware msg => exact allocateHardware_spec h hclear
  | deallocateHardware msg =>
    obtain ⟨s', result, hdeallocate, hkept⟩ := deallocateHardware_spec h hclear
    exact ⟨_, bind_ok_iff.mpr ⟨_, hdeallocate, rfl⟩, hkept.send ..⟩
  | endTask msg =>
    obtain ⟨s', result, hend, hkept⟩ := endTask_spec h hclear
    exact ⟨_, bind_ok_iff.mpr ⟨_, hend, rfl⟩, hkept.send ..⟩
  | rpcDisconnect msg =>
    obtain ⟨gpus, cpus, hout, hkept, hsame⟩ := takeOutWorkers_spec h msg
    -- Hardware that no worker holds who stays is free.
    have hfree : freeOf gpus cpus + (s.disconnected msg).held = s.size := by
      refine hkept.free_add_held.trans (Prod.ext (funext fun g => ?_) (funext fun m => ?_))
      · simpa only [size, elim_map, Function.comp_def] using congrArg (fun max => max.elim 0 BitVec.toNat) (hsame.gpu g)
      · simpa only [size, elim_map, Function.comp_def] using congrArg (fun total => total.elim 0 BitVec.toNat) (hsame.cpu m)
    have heq := eq_tsub_of_add_eq hfree
    obtain ⟨s₂, hmany, hkept2⟩ := maybeAllocateMany_spec hkept hclear ⟨hsame, fun _ => rfl, fun _ hr => hr⟩ heq.ge heq.le
    refine ⟨_, bind_ok_iff.mpr ⟨s₂, bind_ok_iff.mpr ⟨_, hout, hmany⟩, rfl⟩, ?_⟩
    exact ⟨hkept2.covers, hkept2.keys, hkept2.hardware, hkept2.pending⟩

/-- The states after messages that meet the conditions. -/
inductive ClearRun (queued : GpuTokens → GpuTokens) (managers : DeploymentVersion → Option Manager) : AllocatorActor → Prop
  | init : ClearRun queued managers (.new managers)
  | step {s s' : AllocatorActor} {sender : Option ReplySender} {msg : Message} (run : ClearRun queued managers s)
      (clear : Clear queued s sender msg) (step : handle queued sender msg s = .ok s') : ClearRun queued managers s'

theorem kept_new (managers : DeploymentVersion → Option Manager) : Kept (.new managers) where
  covers := by
    refine ⟨fun _ _ h => ?_, fun _ _ h => ?_, fun _ _ => rfl⟩
    · cases h
    · cases h
  keys _ _ _ _ h := by cases h
  hardware _ _ h := by cases h
  pending _ h := absurd h not_mem_nil

theorem ClearRun.kept (h : ClearRun queued managers s) : Kept s := by
  induction h with
  | init => exact kept_new managers
  | step _ hclear hstep ih =>
    obtain ⟨s', hhandle, hkept⟩ := handle_spec ih hclear
    rw [hstep] at hhandle
    cases hhandle
    exact hkept

/-- After any messages that meet the conditions the accounts add up, and another one is
handled without a panic, and the accounts add up again. -/
theorem hardware_accounting (hrun : ClearRun queued managers s) : Accounted s ∧
    ∀ sender msg, Clear queued s sender msg → ∃ s', handle queued sender msg s = .ok s' ∧ Accounted s' := by
  refine ⟨hrun.kept.accounted, fun sender msg hclear => ?_⟩
  obtain ⟨s', hhandle, hkept⟩ := handle_spec hrun.kept hclear
  exact ⟨s', hhandle, hkept.accounted⟩

def sampleVersion : DeploymentVersion := ⟨"default", ⟨1, 0, 0, "", ""⟩⟩

def sampleGpu : HardwareResource := .gpu ⟨"GPU", 7, 3⟩

/-- A worker of a port with a GPU of three tokens and four cores. -/
def sampleWorker (id : WorkerId) (port : BitVec 16) (gpu : GpuUuid) : Message :=
  .registerWorker ⟨some ⟨.v4 1, port⟩, id, [.gpu ⟨"GPU", gpu, 3⟩, .cpu ⟨4⟩], sampleVersion⟩

def sampleTask (candidates : List WorkerId) (taskId : BitVec 64) (gpuTokens : GpuTokens) : Message :=
  .scheduleTask ⟨candidates, ⟨0, taskId⟩, "task", 1, gpuTokens⟩

def sampleRequest (reservations : List HardwareReservation) : AllocateHardware := ⟨1, ⟨0, 0⟩, reservations⟩

def sampleReturn (reservations : List HardwareReservation) : Message := .deallocateHardware ⟨1, ⟨0, 0⟩, reservations⟩

/-- The worker runs a task that holds hardware, where its GPU and its machine had some free
tokens and cores one after the other. -/
def sampleState (used : List (GpuUuid × GpuTokens)) (usedCores : CpuCores) (tokens : List GpuTokens) (cores : List CpuCores)
    (allocations : List PendingAllocation) (tasks : List PendingTask) (replies : List (ReplySender × Reply)) : AllocatorActor where
  workers := OrderedMap.empty.insert 1 ⟨some ⟨.v4 1, 80⟩, ⟨.v4 1⟩, [.gpu ⟨"GPU", 7, 3⟩, .cpu ⟨4⟩],
    OrderedMap.empty.insert ⟨0, 0⟩ ⟨"task", 3, 1, .ofList used, usedCores⟩, sampleVersion⟩
  managers _ := none
  gpus := tokens.foldl (fun gpus free => Function.update gpus 7 (some ⟨3, free⟩)) fun _ => none
  cpus := cores.foldl (fun cpus free => Function.update cpus ⟨.v4 1⟩ (some ⟨4, free⟩)) fun _ => none
  pendingAllocations := allocations
  pendingTasks := tasks
  replies := [(0, .registered (.ok ⟨none⟩)), (1, .scheduled (.ok ⟨1⟩))] ++ replies

def sampleWaiting : List PendingTask := [⟨⟨[1], ⟨0, 1⟩, "task", 1, 1⟩, some 2⟩]

def sampleQueue : List PendingAllocation := [⟨sampleRequest [.gpu 7 2], some 4⟩]

/-- A second task waits for the worker, and the first one waits for tokens that it holds itself. -/
def sampleFull : AllocatorActor :=
  sampleState [(7, 2)] 1 [3, 1] [4, 3] sampleQueue sampleWaiting [(3, .done (.ok ()))]

theorem sampleFull_steps : ∃ s, handle id (some 0) (sampleWorker 1 80 7) (.new fun _ => none) = .ok s ∧
    handle id (some 1) (sampleTask [1] 0 3) s = .ok (sampleState [] 0 [3] [4] [] [] []) ∧
    handle id (some 2) (sampleTask [1] 1 1) (sampleState [] 0 [3] [4] [] [] []) = .ok (sampleState [] 0 [3] [4] [] sampleWaiting []) ∧
    handle id (some 3) (.allocateHardware (sampleRequest [.gpu 7 2, .cpu 1])) (sampleState [] 0 [3] [4] [] sampleWaiting []) =
      .ok (sampleState [(7, 2)] 1 [3, 1] [4, 3] [] sampleWaiting [(3, .done (.ok ()))]) ∧
    handle id (some 4) (.allocateHardware (sampleRequest [.gpu 7 2]))
      (sampleState [(7, 2)] 1 [3, 1] [4, 3] [] sampleWaiting [(3, .done (.ok ()))]) = .ok sampleFull :=
  ⟨_, rfl, rfl, rfl, rfl, rfl⟩

/-- A request to give back more than is held is refused, one to give back what is held is not and
lets the request that waits have it, and the connection of the worker ends. -/
theorem hardware_accounting_sample :
    let s := sampleState [(7, 2)] 1 [3, 1, 3, 1] [4, 3] [] sampleWaiting
      [(3, .done (.ok ())), (5, .done (.error .gpuTokensNotHeld)), (4, .done (.ok ())), (6, .done (.ok ()))]
    ClearRun id (fun _ => none) s ∧ s.tokensUsed 7 = 2 ∧ s.coresUsed ⟨.v4 1⟩ = 1 ∧ Accounted s ∧
      ∃ s', handle id none (.rpcDisconnect ⟨⟨.v4 1, 80⟩⟩) s = .ok s' ∧ Accounted s' := by
  have hsingle {free : Amounts} {machine : MachineId} {res : HardwareReservation} (h : ∀ r ∈ [res], asks machine r ≤ free) :
      demand machine [res] ≤ free := by
    simpa [demand] using h
  obtain ⟨s, h₀, h₁, h₂, h₃, h₄⟩ := sampleFull_steps
  have hregistered : ClearRun id (fun _ => none) s := .step .init (fun _ => .inl (by decide)) h₀
  have hfirst := hregistered.step (by
    cases h₀
    refine ⟨fun id hid worker hworker => ?_, trivial⟩
    cases mem_singleton.mp hid
    cases hworker
    exact ⟨by decide, by decide, by decide, by decide⟩) h₁
  have hsecond := hfirst.step (by
    refine ⟨fun id hid worker hworker => ?_, trivial⟩
    cases mem_singleton.mp hid
    cases hworker
    exact ⟨by decide, by decide, by decide, by decide⟩) h₂
  have hgranted := hsecond.step (by
    refine fun _ => ⟨fun free _ _ worker hworker => ?_, trivial⟩
    cases hworker
    refine ⟨fun hnone => (by cases hnone), fun hall => ?_⟩
    have hgpu := (hall _ mem_cons_self).2
    have hcpu := (hall _ (mem_cons_of_mem _ mem_cons_self)).2
    exact ⟨fun g => by simpa [sampleRequest, demand, asks] using hgpu.1 g, fun m => by simpa [sampleRequest, demand, asks] using hcpu.2 m⟩) h₃
  have hwaits := hgranted.step (by
    refine fun _ => ⟨fun free _ _ worker hworker => ?_, trivial⟩
    cases hworker
    exact ⟨fun hnone => (by cases hnone), fun hall => hsingle fun r hr => (hall r hr).2⟩) h₄
  have hrefused := @ClearRun.step _ _ _
    (sampleState [(7, 2)] 1 [3, 1] [4, 3] sampleQueue sampleWaiting [(3, .done (.ok ())), (5, .done (.error .gpuTokensNotHeld))])
    (some 5) (sampleReturn [.gpu 7 3]) hwaits (by
    intro worker task hworker htask
    cases hworker
    cases htask
    refine ⟨fun hnone => (by cases hnone), fun hheld => ?_⟩
    obtain ⟨held, hget, hle⟩ := hheld.1.2
    cases hget
    exact absurd hle (by decide)) rfl
  have hgiven := @ClearRun.step _ _ _ (sampleState [(7, 2)] 1 [3, 1, 3, 1] [4, 3] [] sampleWaiting
      [(3, .done (.ok ())), (5, .done (.error .gpuTokensNotHeld)), (4, .done (.ok ())), (6, .done (.ok ()))])
    (some 6) (sampleReturn [.gpu 7 2]) hrefused (by
    intro worker task hworker htask
    cases hworker
    cases htask
    refine ⟨fun hnone => (by cases hnone), fun _ => ⟨fun free _ _ worker hworker => ?_, trivial⟩⟩
    cases hworker
    exact ⟨fun hnone => (by cases hnone), fun hall => hsingle fun r hr => (hall r hr).2⟩) rfl
  obtain ⟨haccounted, hnext⟩ := hardware_accounting hgiven
  exact ⟨hgiven, rfl, rfl, haccounted, hnext none (.rpcDisconnect ⟨⟨.v4 1, 80⟩⟩) trivial⟩

def handleAll (queued : GpuTokens → GpuTokens) (msgs : List Message) (s : AllocatorActor) : Except Panic AllocatorActor :=
  msgs.foldlM (fun s msg => handle queued none msg s) s

/-- A worker registers, and gets a task. -/
def sampleStart (hardware : List HardwareResource) : List Message :=
  [.registerWorker ⟨some ⟨.v4 1, 80⟩, 1, hardware, sampleVersion⟩, .scheduleTask ⟨[1], ⟨0, 0⟩, "task", 1, 0⟩]

/-- Two reservations that fit one by one, cores of a machine without a known CPU, and a task for
a worker whose registration was refused. -/
theorem unchecked_messages_panic :
    handleAll id (sampleStart [sampleGpu, .cpu ⟨4⟩] ++ [.allocateHardware ⟨1, ⟨0, 0⟩, [.gpu 7 2, .gpu 7 2]⟩]) (.new fun _ => none) =
      .error .overflow ∧
    handleAll id (sampleStart [sampleGpu] ++ [.allocateHardware ⟨1, ⟨0, 0⟩, [.cpu 1]⟩]) (.new fun _ => none) =
      .error (.expect "all worker CPUs should exist") ∧
    handleAll id (sampleStart [sampleGpu, .cpu ⟨4⟩, .cpu ⟨4⟩]) (.new fun _ => none) =
      .error (.expect "worker should still exist and have valid GPU") := by
  refine ⟨rfl, rfl, rfl⟩

end VerifiableCompute.Allocator
