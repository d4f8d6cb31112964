import VerifiableCompute.Allocator.Waiting

/-! Every message keeps the books, under the conditions in which the allocator does not abort. -/

namespace VerifiableCompute.Allocator

open Lib WordOrder OrderedMap List Option

variable {s : AllocatorActor}

namespace AllocatorActor

theorem le_tally (f : MachineId → Task → ℕ) {id : WorkerId} {worker : Worker} {taskId : GlobalId} {task : Task}
    (hworker : s.workers.get? id = some worker) (htask : worker.tasks.get? taskId = some task) :
    f worker.machine task ≤ s.tally f :=
  calc f worker.machine task ≤ worker.tasks.total fun _ task => f worker.machine task :=
        @le_total _ _ _ (fun _ task => f worker.machine task) _ _ _ htask
    _ ≤ s.tally f := @le_total _ _ _ (fun _ (w : Worker) => w.tasks.total fun _ task => f w.machine task) _ _ _ hworker

theorem tally_eq_zero {f : MachineId → Task → ℕ} (h : ∀ id worker taskId task, s.workers.get? id = some worker →
    worker.tasks.get? taskId = some task → f worker.machine task = 0) : s.tally f = 0 :=
  total_eq_zero fun id worker hworker => total_eq_zero fun taskId task htask =>
    h id worker taskId task hworker htask

/-- What the other tasks hold. -/
def othersTokens (s : AllocatorActor) (task : Task) (g : GpuUuid) : ℕ := s.tokensUsed g - task.held g

def othersCores (s : AllocatorActor) (machine : MachineId) (task : Task) (m : MachineId) : ℕ :=
  s.coresUsed m - if m = machine then task.usedCores.toNat else 0

end AllocatorActor

open AllocatorActor

variable {id : WorkerId} {worker : Worker} {taskId : GlobalId} {task : Task}

theorem Kept.balanced (h : Kept s) (hworker : s.workers.get? id = some worker) (htask : worker.tasks.get? taskId = some task) :
    Balanced worker.machine (s.othersTokens task) (s.othersCores worker.machine task) ⟨s.gpus, s.cpus, task⟩ := by
  have htokens : (fun g => task.held g + s.othersTokens task g) = s.tokensUsed := by
    funext g
    exact Nat.add_sub_of_le (le_tally (fun _ task => task.held g) hworker htask)
  have hcores : (fun m => (if m = worker.machine then task.usedCores.toNat else 0) + s.othersCores worker.machine task m) =
      s.coresUsed := by
    funext m
    exact Nat.add_sub_of_le (le_tally (fun machine task => if m = machine then task.usedCores.toNat else 0) hworker htask)
  refine ⟨?_, h.keys id worker taskId task hworker htask⟩
  rw [htokens, hcores]
  exact h.covers

theorem Kept.of_setTask {s' : AllocatorActor} (h : Kept s) (hworker : s.workers.get? id = some worker)
    (hworkers : s'.workers = (s.setTask id worker taskId task).workers) (hpending : s'.pendingAllocations = s.pendingAllocations)
    (hsame : SameHardware s.gpus s'.gpus s.cpus s'.cpus) (hcovers : Covers s'.gpus s'.cpus s'.tokensUsed s'.coresUsed)
    (hkeys : KeysKnown s'.gpus task) : Kept s' where
  covers := hcovers
  keys id' worker' taskId' task' hworker' htask' := by
    rw [hworkers, get?_setTask] at hworker'
    split at hworker'
    next hid =>
      cases hworker'
      rw [get?_insert] at htask'
      split at htask'
      · cases htask'
        exact hkeys
      · exact (h.keys id worker taskId' task' hworker htask').same hsame
    next => exact (h.keys id' worker' taskId' task' hworker' htask').same hsame
  hardware id' worker' hworker' uuid huuid := by
    rw [hsame.gpu_known]
    rw [hworkers, get?_setTask] at hworker'
    split at hworker'
    next hid =>
      cases hworker'
      exact h.hardware id worker hworker uuid huuid
    next => exact h.hardware id' worker' hworker' uuid huuid
  pending p hp := by
    rw [hpending] at hp
    obtain ⟨w, t, hw, ht⟩ := (h.pending p hp).setTask hworker taskId task
    exact ⟨w, t, hworkers ▸ hw, ht⟩

theorem Kept.withBooks (h : Kept s) (hworker : s.workers.get? id = some worker) (htask : worker.tasks.get? taskId = some task)
    {books : Books} (hbooks : Balanced worker.machine (s.othersTokens task) (s.othersCores worker.machine task) books)
    (hsame : SameHardware s.gpus books.gpus s.cpus books.cpus) : Kept (s.withBooks id worker taskId books) := by
  have hchange (f : MachineId → Task → ℕ) : (s.withBooks id worker taskId books).tally f =
      f worker.machine books.task + (s.tally f - f worker.machine task) := by
    have hset := tally_setTask f hworker taskId books.task
    rw [htask, elim_some] at hset
    have hle := le_tally f hworker htask
    have hsame : (s.withBooks id worker taskId books).tally f = (s.setTask id worker taskId books.task).tally f := rfl
    omega
  have htokens : (s.withBooks id worker taskId books).tokensUsed = fun g => books.task.held g + s.othersTokens task g := by
    funext g
    exact hchange fun _ task => task.held g
  have hcores : (s.withBooks id worker taskId books).coresUsed =
      fun m => (if m = worker.machine then books.task.usedCores.toNat else 0) + s.othersCores worker.machine task m := by
    funext m
    exact hchange fun machine task => if m = machine then task.usedCores.toNat else 0
  refine h.of_setTask hworker rfl rfl hsame ?_ hbooks.keys
  rw [htokens, hcores]
  exact hbooks.covers

namespace AllocatorActor

def free (s : AllocatorActor) : Amounts := freeOf s.gpus s.cpus

/-- What a request needs where some hardware is free: no reservation of cores of an unknown CPU
comes up, and reservations of known hardware that fit one by one fit together. -/
def AllocationClear (s : AllocatorActor) (free : Amounts) (request : AllocateHardware) : Prop :=
  ∀ worker, s.workers.get? request.workerId = some worker →
    (s.cpus worker.machine = none → ¬ ReachesCores s.gpus free request.hardwareReservations) ∧
    ((∀ res ∈ request.hardwareReservations, Known s.gpus s.cpus worker.machine res ∧ asks worker.machine res ≤ free) →
      demand worker.machine request.hardwareReservations ≤ free)

/-- What a request asks for, on the machine of its worker. -/
def demandOf (s : AllocatorActor) (request : AllocateHardware) : Amounts :=
  (s.workers.get? request.workerId).elim 0 fun worker => demand worker.machine request.hardwareReservations

/-- Every request of a queue is clear, whatever the requests before it take of what is free. -/
def QueueClear (s : AllocatorActor) : Amounts → Amounts → List PendingAllocation → Prop
  | _, _, [] => True
  | low, high, p :: rest => (∀ free, low ≤ free → free ≤ high → s.AllocationClear free p.request) ∧
      QueueClear s (low - s.demandOf p.request) high rest

end AllocatorActor

/-- What a pass over the queues leaves as it was. -/
structure SameTasks (s s' : AllocatorActor) : Prop where
  hardware : SameHardware s.gpus s'.gpus s.cpus s'.cpus
  machine : ∀ id, (s'.workers.get? id).map (·.machine) = (s.workers.get? id).map (·.machine)
  running : ∀ request, s.Running request → s'.Running request

theorem SameTasks.refl (s : AllocatorActor) : SameTasks s s := ⟨.refl _ _, fun _ => rfl, fun _ h => h⟩

theorem SameTasks.trans {s' s'' : AllocatorActor} (h : SameTasks s s') (h' : SameTasks s' s'') : SameTasks s s'' :=
  ⟨h.hardware.trans h'.hardware, fun id => (h'.machine id).trans (h.machine id), fun r hr => h'.running r (h.running r hr)⟩

theorem sameTasks_withBooks (hworker : s.workers.get? id = some worker) {books : Books} (hsame : SameHardware s.gpus books.gpus s.cpus books.cpus) :
    SameTasks s (s.withBooks id worker taskId books) := by
  refine ⟨hsame, fun id' => ?_, fun r hr => hr.setTask hworker taskId books.task⟩
  rw [AllocatorActor.withBooks, get?_setTask]
  split
  next hid => rw [hid, hworker]; rfl
  next => rfl

variable {request : AllocateHardware}

theorem SameTasks.reachesCores {s' : AllocatorActor} (h : SameTasks s s') {free : Amounts} {reservations : List HardwareReservation}
    (hreaches : ReachesCores s'.gpus free reservations) : ReachesCores s.gpus free reservations := by
  induction reservations with
  | nil => exact hreaches
  | cons res reservations ih =>
    cases res with
    | gpu id tokens => exact ⟨h.hardware.gpu_known id ▸ hreaches.1, hreaches.2.1, ih hreaches.2.2⟩
    | cpu cores => trivial

theorem SameTasks.allocationClear {s' : AllocatorActor} (h : SameTasks s s') {free : Amounts} (hclear : s.AllocationClear free request) :
    s'.AllocationClear free request := by
  intro worker' hworker'
  have hmachine := h.machine request.workerId
  rw [hworker', map_some, eq_comm, map_eq_some_iff] at hmachine
  obtain ⟨worker, hworker, hmachine⟩ := hmachine
  obtain ⟨hcores, hfits⟩ := hclear worker hworker
  rw [hmachine] at hcores hfits
  refine ⟨fun hnone hreaches => hcores ?_ (h.reachesCores hreaches), fun hall => hfits fun res hres => ?_⟩
  · have hcpu := h.hardware.cpu worker'.machine
    rw [hnone, map_none, eq_comm, map_eq_none_iff] at hcpu
    exact hcpu
  · exact ⟨(hall res hres).1.same h.hardware.symm, (hall res hres).2⟩

theorem maybeAllocate_spec (h : Kept s) (hrunning : s.Running request)
    (hclear : s.AllocationClear s.free request) : ∃ s' result, s.maybeAllocate request = .ok (s', result) ∧ Kept s' ∧ SameTasks s s' ∧
      s'.free ≤ s.free ∧ s.free ≤ s'.free + s.demandOf request := by
  obtain ⟨worker, task, hworker, htask⟩ := hrunning
  obtain ⟨hcores, hfits⟩ := hclear worker hworker
  obtain ⟨result, hroom, hknown⟩ := hasRoom_returns hcores
  unfold AllocatorActor.maybeAllocate
  rw [hworker]
  show ∃ s' result, ((expect _ (worker.tasks.get? request.taskId)) >>= _) = _ ∧ _
  rw [htask]
  show ∃ s' result, ((hasRoom s.gpus s.cpus worker.machine request.hardwareReservations) >>= _) = _ ∧ _
  rw [hroom]
  rcases result with e | _ | _
  · exact ⟨s, _, rfl, h, .refl s, le_rfl, le_self_add⟩
  · exact ⟨s, _, rfl, h, .refl s, le_rfl, le_self_add⟩
  · obtain ⟨books, htake, hbalanced, hsame, hfree⟩ := takeAll_spec (h.balanced hworker htask) (fun res hres => (hknown rfl res hres).1)
      (hfits (hknown rfl))
    refine ⟨s.withBooks request.workerId worker request.taskId books, .ok true, ?_, h.withBooks hworker htask hbalanced hsame,
      sameTasks_withBooks hworker hsame, ?_, ?_⟩
    · show (forReservations (take worker.machine) request.hardwareReservations ⟨s.gpus, s.cpus, task⟩ >>= _) = _
      rw [htake]
      rfl
    · exact le_of_le_of_eq le_self_add hfree
    · rw [AllocatorActor.demandOf, hworker]
      exact hfree.ge

theorem Kept.send (h : Kept s) (sender : Option ReplySender) (reply : Reply) : Kept (s.send sender reply) := by
  cases sender with
  | none => exact h
  | some _ => exact ⟨h.covers, h.keys, h.hardware, h.pending⟩

theorem send_free (s : AllocatorActor) (sender : Option ReplySender) (reply : Reply) :
    SameTasks s (s.send sender reply) ∧ (s.send sender reply).free = s.free := by
  cases sender <;> exact ⟨⟨.refl _ _, fun _ => rfl, fun _ h => h⟩, rfl⟩

theorem considerAllocation_spec {p : PendingAllocation} (h : Kept s) (hrunning : s.Running p.request)
    (hclear : s.AllocationClear s.free p.request) : ∃ s', s.considerAllocation p = .ok s' ∧ Kept s' ∧ SameTasks s s' ∧
      s'.free ≤ s.free ∧ s.free ≤ s'.free + s.demandOf p.request := by
  obtain ⟨s₁, result, hallocate, hkept, hsame, hfree⟩ := maybeAllocate_spec h hrunning hclear
  unfold AllocatorActor.considerAllocation
  rw [hallocate]
  have hsent (reply : Reply) : SameTasks s (s₁.send p.replySender reply) ∧ (s₁.send p.replySender reply).free ≤ s.free ∧
      s.free ≤ (s₁.send p.replySender reply).free + s.demandOf p.request := by
    obtain ⟨hsend, heq⟩ := send_free s₁ p.replySender reply
    rw [heq]
    exact ⟨hsame.trans hsend, hfree⟩
  rcases result with e | _ | _
  · exact ⟨_, rfl, hkept.send .., hsent _⟩
  · refine ⟨_, rfl, ⟨hkept.covers, hkept.keys, hkept.hardware, fun q hq => ?_⟩, ⟨hsame.hardware, hsame.machine, hsame.running⟩, hfree⟩
    obtain hq | hq := mem_append.mp hq
    · exact hkept.pending q hq
    · rw [mem_singleton.mp hq]
      exact hsame.running _ hrunning
  · exact ⟨_, rfl, hkept.send .., hsent _⟩

/-- A pass from a state with the hardware and the tasks of another one. -/
theorem allocations_spec {base : AllocatorActor} {low high : Amounts} {queue : List PendingAllocation} (h : Kept s)
    (hrunning : ∀ p ∈ queue, s.Running p.request) (hclear : base.QueueClear low high queue) (hsame : SameTasks base s)
    (hlow : low ≤ s.free) (hhigh : s.free ≤ high) : ∃ s', queue.foldlM considerAllocation s = .ok s' ∧ Kept s' := by
  induction queue generalizing s low with
  | nil => exact ⟨s, rfl, h⟩
  | cons p queue ih =>
    obtain ⟨hhead, htail⟩ := forall_mem_cons.mp hrunning
    obtain ⟨s₁, hconsider, hkept, hsame1, hless, hdemand⟩ :=
      considerAllocation_spec h hhead (hsame.allocationClear (hclear.1 s.free hlow hhigh))
    have hdemandOf : s.demandOf p.request = base.demandOf p.request := by
      have hmachine := congrArg (fun m => m.elim 0 fun machine => demand machine p.request.hardwareReservations) (hsame.machine p.request.workerId)
      simpa only [AllocatorActor.demandOf, elim_map, Function.comp_def] using hmachine
    rw [hdemandOf] at hdemand
    obtain ⟨s₂, hfold, hkept2⟩ := ih hkept (fun q hq => hsame1.running _ (htail q hq)) hclear.2 (hsame.trans hsame1)
      (tsub_le_iff_right.mpr (hlow.trans hdemand)) (hless.trans hhigh)
    refine ⟨s₂, ?_, hkept2⟩
    rw [foldlM_cons]
    exact bind_ok_iff.mpr ⟨_, hconsider, hfold⟩

theorem maybeAllocateMany_spec {base : AllocatorActor} {low high : Amounts} (h : Kept s) (hclear : base.QueueClear low high s.pendingAllocations)
    (hsame : SameTasks base s) (hlow : low ≤ s.free) (hhigh : s.free ≤ high) : ∃ s', s.maybeAllocateMany = .ok s' ∧ Kept s' := by
  have hstart : Kept { s with pendingAllocations := [] } :=
    ⟨h.covers, h.keys, h.hardware, fun p hp => absurd hp not_mem_nil⟩
  exact allocations_spec hstart (fun p hp => h.pending p hp) hclear ⟨hsame.hardware, hsame.machine, hsame.running⟩ hlow hhigh

variable {queued : GpuTokens → GpuTokens}

theorem Kept.scheduled {s' : AllocatorActor} {msg : ScheduleTask} (h : Kept s) (hscheduled : s.Scheduled queued s' msg id worker) :
    Kept s' := by
  have hchange (f : MachineId → Task → ℕ) (hf : f worker.machine (Task.ofMsg msg) = 0) : s'.tally f = s.tally f := by
    have hset := tally_setTask f hscheduled.connected msg.taskId (Task.ofMsg msg)
    rw [hscheduled.fresh, elim_none, Nat.add_zero, hf, Nat.add_zero] at hset
    rw [hscheduled.after, hset]
  have htokens : s'.tokensUsed = s.tokensUsed := by
    funext g
    exact hchange (fun _ task => task.held g) rfl
  have hcores : s'.coresUsed = s.coresUsed := by
    funext m
    exact hchange (fun machine task => if m = machine then task.usedCores.toNat else 0) (ite_self 0)
  have hafter := hscheduled.after
  have hgpus : s'.gpus = s.gpus := by rw [hafter]; rfl
  have hcpus : s'.cpus = s.cpus := by rw [hafter]; rfl
  refine h.of_setTask hscheduled.connected (by rw [hafter]) (by rw [hafter]; rfl) ?_ ?_ fun g hg => ?_
  · rw [hgpus, hcpus]
    exact .refl _ _
  · rw [hgpus, hcpus, htokens, hcores]
    exact h.covers
  · cases hg

/-- Every task of a queue is clear, wherever the tasks before it are scheduled. -/
def TasksClear (queued : GpuTokens → GpuTokens) (s : AllocatorActor) : ℕ → ℕ → List PendingTask → Prop
  | _, _, [] => True
  | tokens, cores, t :: rest => s.ScheduleClear queued tokens cores t.msg ∧
      TasksClear queued s (tokens + t.msg.gpuTokens.toNat) (cores + t.msg.cores.toNat) rest

/-- Every candidate was there before, and at most some tokens and cores were scheduled since. -/
def Loads (queued : GpuTokens → GpuTokens) (s s' : AllocatorActor) (tokens cores : ℕ) : Prop :=
  ∀ id worker', s'.workers.get? id = some worker' → ∃ worker, s.workers.get? id = some worker ∧
    ∀ t c, s.SumsFit queued (t + tokens) (c + cores) worker → s'.SumsFit queued t c worker'

theorem Loads.tasksClear {s' : AllocatorActor} {tokens cores : ℕ} (h : Loads queued s s' tokens cores) {queue : List PendingTask} {t c : ℕ}
    (hclear : TasksClear queued s (t + tokens) (c + cores) queue) : TasksClear queued s' t c queue := by
  induction queue generalizing t c with
  | nil => trivial
  | cons task queue ih =>
    refine ⟨fun id hid worker' hworker' => ?_, ih ?_⟩
    · obtain ⟨worker, hworker, hfits⟩ := h id worker' hworker'
      exact hfits t c (hclear.1 id hid worker hworker)
    · rw [Nat.add_right_comm t, Nat.add_right_comm c]
      exact hclear.2

theorem Loads.same {s' s'' : AllocatorActor} {tokens cores : ℕ} (h : Loads queued s s' tokens cores) (hworkers : s''.workers = s'.workers)
    (hgpus : s''.gpus = s'.gpus) : Loads queued s s'' tokens cores := by
  intro id worker' hworker'
  rw [hworkers] at hworker'
  obtain ⟨worker, hworker, hfits⟩ := h id worker' hworker'
  refine ⟨worker, hworker, fun t c hclear => ⟨?_, ?_, (hfits t c hclear).own, ?_⟩⟩
  · rw [load, hworkers]
    exact (hfits t c hclear).gpu
  · rw [load, hworkers]
    exact (hfits t c hclear).machine
  · rw [capacity, hgpus]
    exact (hfits t c hclear).room

/-- A quantity of some workers grows by no more than what one of them gets. -/
theorem load_scheduled {s' : AllocatorActor} {msg : ScheduleTask} (h : s.Scheduled queued s' msg id worker) {kind : Worker → Bool}
    {f : Worker → ℕ} {n : ℕ} (hkind : kind { worker with tasks := worker.tasks.insert msg.taskId (Task.ofMsg msg) } = kind worker)
    (hf : f { worker with tasks := worker.tasks.insert msg.taskId (Task.ofMsg msg) } = f worker + n) :
    s'.load kind f ≤ s.load kind f + n := by
  have htotal := total_insert (fun _ w => if kind w then f w else 0) id
    { worker with tasks := worker.tasks.insert msg.taskId (Task.ofMsg msg) } s.workers
  rw [h.connected, elim_some, hf, hkind] at htotal
  rw [h.after]
  change (s.setTask id worker msg.taskId (Task.ofMsg msg)).load kind f + _ = s.load kind f + _ at htotal
  split at htotal <;> omega

theorem loads_scheduled {s' : AllocatorActor} {msg : ScheduleTask} (h : s.Scheduled queued s' msg id worker) :
    Loads queued s s' msg.gpuTokens.toNat msg.cores.toNat := by
  have hinsert (f : Task → ℕ) : ((worker.tasks.insert msg.taskId (Task.ofMsg msg)).total fun _ => f) =
      (worker.tasks.total fun _ => f) + f (Task.ofMsg msg) := by
    have htotal := total_insert (fun _ => f) msg.taskId (Task.ofMsg msg) worker.tasks
    rwa [h.fresh, elim_none, Nat.add_zero] at htotal
  have hfuller : Fuller s s' := by
    rw [h.after]
    exact @fuller_setTask _ _ s _ _ h.connected _ _ (by rw [h.fresh]; exact Nat.zero_le _) fun _ => rfl
  intro id' worker' hworker'
  obtain ⟨w, hw, hhardware, hle⟩ := hfuller.workers id' worker' hworker'
  have hstays : worker'.machine = w.machine ∧ worker'.scheduledTokens ≤ w.scheduledTokens + msg.gpuTokens.toNat := by
    rw [h.after, get?_setTask] at hworker'
    split at hworker'
    next hid =>
      rw [hid, h.connected] at hw
      cases hw
      cases hworker'
      exact ⟨rfl, (hinsert fun task => task.scheduledGpuTokens.toNat).le⟩
    next =>
      rw [hw] at hworker'
      cases hworker'
      exact ⟨rfl, Nat.le_add_right _ _⟩
  refine ⟨w, hw, fun t c hfits => ⟨?_, ?_, ?_, lt_of_le_of_lt (capacity_le hfuller.max hhardware hle) hfits.room⟩⟩
  · have hgpu := hfits.gpu
    have huuids : worker'.gpuUuids = w.gpuUuids := congrArg (filterMap HardwareResource.uuid?) hhardware
    rw [← huuids] at hgpu
    have hload := @load_scheduled _ _ _ _ _ _ h (fun w => worker'.gpuUuids.any fun id => id ∈ w.gpuUuids) Worker.scheduledTokens msg.gpuTokens.toNat
      rfl (hinsert fun task => task.scheduledGpuTokens.toNat)
    omega
  · have hmachine := hfits.machine
    rw [← hstays.1] at hmachine
    have hload := @load_scheduled _ _ _ _ _ _ h (fun w => w.machine = worker'.machine) Worker.scheduledCores msg.cores.toNat
      rfl (hinsert fun task => task.scheduledCores.toNat)
    omega
  · have := hfits.own
    omega

theorem maybeScheduleTask_spec {msg : ScheduleTask} {tokens cores : ℕ} (h : Kept s) (hclear : s.ScheduleClear queued tokens cores msg) :
    ∃ s' answer, s.maybeScheduleTask queued msg = .ok (s', answer) ∧ Kept s' ∧ Loads queued s s' msg.gpuTokens.toNat msg.cores.toNat := by
  obtain ⟨⟨s', answer⟩, hresult⟩ := maybeScheduleTask_returns hclear h.hardware
  have hnothing : Loads queued s s msg.gpuTokens.toNat msg.cores.toNat := fun id worker hworker =>
    ⟨worker, hworker, fun t c hfits => ⟨by have := hfits.gpu; omega, by have := hfits.machine; omega, by have := hfits.own; omega, hfits.room⟩⟩
  refine ⟨s', answer, hresult, ?_⟩
  obtain ⟨rfl, -⟩ | ⟨rfl, -⟩ | ⟨id, worker, -, hscheduled⟩ := maybeScheduleTask_cases hresult
  · exact ⟨h, hnothing⟩
  · exact ⟨h, hnothing⟩
  · exact ⟨h.scheduled hscheduled, loads_scheduled hscheduled⟩

theorem considerTask_spec {t : PendingTask} {tokens cores : ℕ} (h : Kept s) (hclear : s.ScheduleClear queued tokens cores t.msg) :
    ∃ s', s.considerTask queued t = .ok s' ∧ Kept s' ∧ Loads queued s s' t.msg.gpuTokens.toNat t.msg.cores.toNat := by
  obtain ⟨s₁, answer, hschedule, hkept, hloads⟩ := maybeScheduleTask_spec h hclear
  unfold AllocatorActor.considerTask
  rw [hschedule]
  cases answer with
  | none => exact ⟨_, rfl, ⟨hkept.covers, hkept.keys, hkept.hardware, hkept.pending⟩, hloads.same rfl rfl⟩
  | some reply => exact ⟨_, rfl, hkept.send .., hloads.same (send_same ..).1 (send_same ..).2.1⟩

theorem tasks_spec {queue : List PendingTask} (h : Kept s) (hclear : TasksClear queued s 0 0 queue) :
    ∃ s', queue.foldlM (considerTask queued) s = .ok s' ∧ Kept s' := by
  induction queue generalizing s with
  | nil => exact ⟨s, rfl, h⟩
  | cons t queue ih =>
    obtain ⟨s₁, hconsider, hkept, hloads⟩ := considerTask_spec h hclear.1
    obtain ⟨s₂, hfold, hkept2⟩ := ih hkept (hloads.tasksClear hclear.2)
    refine ⟨s₂, ?_, hkept2⟩
    rw [foldlM_cons]
    exact bind_ok_iff.mpr ⟨_, hconsider, hfold⟩

/-- A pass from a state with the workers and the GPUs of another one. -/
theorem maybeScheduleTasks_spec {base : AllocatorActor} (h : Kept s) (hclear : TasksClear queued base 0 0 s.pendingTasks)
    (hworkers : s.workers = base.workers) (hgpus : s.gpus = base.gpus) : ∃ s', s.maybeScheduleTasks queued = .ok s' ∧ Kept s' := by
  have hstart : Kept { s with pendingTasks := [] } := ⟨h.covers, h.keys, h.hardware, h.pending⟩
  have hloads : Loads queued base base 0 0 := fun id worker hworker => ⟨worker, hworker, fun t c hfits => hfits⟩
  exact tasks_spec hstart ((hloads.same hworkers hgpus : Loads queued base { s with pendingTasks := [] } 0 0).tasksClear hclear)

theorem held_eq_zero {task : Task} (h : task.hwAllocated = false) (g : GpuUuid) : task.held g = 0 ∧ task.usedCores.toNat = 0 := by
  rw [Task.hwAllocated, Bool.or_eq_false_iff] at h
  obtain ⟨hcores, htokens⟩ := h
  constructor
  · rw [Task.held]
    cases hget : task.usedGpuTokens.get? g with
    | none => rfl
    | some tokens =>
      rw [Task.gpuAllocated, List.any_eq_false] at htokens
      have hzero := htokens (g, tokens) (mem_entries_iff.mpr hget)
      rw [decide_eq_true_iff, BitVec.lt_def] at hzero
      rw [getD_some]
      exact Nat.eq_zero_of_not_pos hzero
  · have hzero := of_decide_eq_false hcores
    rw [BitVec.lt_def] at hzero
    exact Nat.eq_zero_of_not_pos hzero

theorem Kept.eraseTask (h : Kept s) (hworker : s.workers.get? id = some worker) (htask : worker.tasks.get? taskId = some task)
    (hfree : task.hwAllocated = false) (hpending : ∀ p ∈ s.pendingAllocations, p.request.taskId ≠ taskId) :
    Kept { s with workers := s.workers.insert id { worker with tasks := worker.tasks.erase taskId } } := by
  have hchange (f : MachineId → Task → ℕ) (hf : f worker.machine task = 0) :
      ({ s with workers := s.workers.insert id { worker with tasks := worker.tasks.erase taskId } } : AllocatorActor).tally f =
        s.tally f := by
    have htasks : (worker.tasks.erase taskId).total (fun _ task => f worker.machine task) +
        (worker.tasks.get? taskId).elim 0 (f worker.machine) = worker.tasks.total fun _ task => f worker.machine task :=
      total_erase (fun _ task => f worker.machine task) taskId worker.tasks
    have hworkers := total_insert (fun _ (w : Worker) => w.tasks.total fun _ task => f w.machine task) id
      { worker with tasks := worker.tasks.erase taskId } s.workers
    rw [hworker, elim_some] at hworkers
    have hset : ({ s with workers := s.workers.insert id { worker with tasks := worker.tasks.erase taskId } } :
        AllocatorActor).tally f + worker.tasks.total (fun _ task => f worker.machine task) =
          s.tally f + (worker.tasks.erase taskId).total fun _ task => f worker.machine task := hworkers
    rw [htask, elim_some, hf, Nat.add_zero] at htasks
    omega
  have hget (id' : WorkerId) : (s.workers.insert id { worker with tasks := worker.tasks.erase taskId }).get? id' =
      if id' = id then some { worker with tasks := worker.tasks.erase taskId } else s.workers.get? id' := by
    rw [get?_insert]
    split <;> rfl
  refine ⟨?_, fun id' worker' taskId' task' hworker' htask' => ?_, fun id' worker' hworker' => ?_, fun p hp => ?_⟩
  · have htokens : ({ s with workers := s.workers.insert id { worker with tasks := worker.tasks.erase taskId } } :
        AllocatorActor).tokensUsed = s.tokensUsed := by
      funext g
      exact hchange (fun _ task => task.held g) (held_eq_zero hfree g).1
    have hcores : ({ s with workers := s.workers.insert id { worker with tasks := worker.tasks.erase taskId } } :
        AllocatorActor).coresUsed = s.coresUsed := by
      funext m
      refine hchange (fun machine task => if m = machine then task.usedCores.toNat else 0) ?_
      rw [(held_eq_zero hfree 0).2, ite_self]
    rw [htokens, hcores]
    exact h.covers
  · simp only [hget] at hworker'
    split at hworker'
    next =>
      cases hworker'
      rw [get?_erase] at htask'
      split at htask'
      · cases htask'
      · exact h.keys id worker taskId' task' hworker htask'
    next => exact h.keys id' worker' taskId' task' hworker' htask'
  · simp only [hget] at hworker'
    split at hworker'
    next =>
      cases hworker'
      exact h.hardware id worker hworker
    next => exact h.hardware id' worker' hworker'
  · obtain ⟨w, t, hw, ht⟩ := h.pending p hp
    by_cases hid : p.request.workerId = id
    · rw [hid, hworker] at hw
      cases hw
      refine ⟨{ worker with tasks := worker.tasks.erase taskId }, t, ?_, ?_⟩
      · simp only [hget, if_pos hid]
      · rw [get?_erase, if_neg (hpending p hp), ht]
    · refine ⟨w, t, ?_, ht⟩
      simp only [hget, if_neg hid, hw]

end VerifiableCompute.Allocator
