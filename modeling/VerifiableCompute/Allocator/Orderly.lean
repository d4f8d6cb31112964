import VerifiableCompute.Allocator.Safety

/-! A message that is refused changes nothing, and what waits cannot be answered: this holds as
long as no message meets one of the cases that the allocator handles in the wrong order or
without a pass over its queues. -/

namespace VerifiableCompute.Allocator

open Lib WordOrder AllocatorActor List Nat Option

/-- Workers with their tasks, the hardware and the queues are as they were. -/
structure Unchanged (s s' : AllocatorActor) : Prop where
  workers : s'.workers = s.workers
  gpus : s'.gpus = s.gpus
  cpus : s'.cpus = s.cpus
  pendingAllocations : s'.pendingAllocations = s.pendingAllocations
  pendingTasks : s'.pendingTasks = s.pendingTasks

/-- The messages that are answered with a result of their own. -/
def Message.isRequest : Message → Bool
  | .registerWorker _ => true
  | .scheduleTask _ => false
  | .allocateHardware _ => true
  | .deallocateHardware _ => true
  | .endTask _ => true
  | .rpcDisconnect _ => false

/-- The message of a number was answered with an error. -/
def Refused (n : ReplySender) (s : AllocatorActor) : Prop := ∃ reply e, (n, reply) ∈ s.replies ∧ reply.error? = some e

/-- No task that waits would be answered, and no allocation that waits would be granted or refused. -/
structure Quiet (queued : GpuTokens → GpuTokens) (s : AllocatorActor) : Prop where
  tasks : ∀ t ∈ s.pendingTasks, ∀ s' reply, s.maybeScheduleTask queued t.msg ≠ .ok (s', some reply)
  allocations : ∀ p ∈ s.pendingAllocations, ∀ s' result, s.maybeAllocate p.request = .ok (s', result) → result = .ok false

def AllocatorActor.registerManager (version : DeploymentVersion) (manager : Manager) (s : AllocatorActor) : AllocatorActor :=
  match s.managers version with
  | some _ => s
  | none => { s with managers := Function.update s.managers version (some manager) }

/-- The states after a number of messages of some kind. A sender that waits is known by the
number of its message. -/
inductive NumberedRun (allowed : AllocatorActor → Message → Prop) (queued : GpuTokens → GpuTokens) : ℕ → AllocatorActor → Prop
  | init : NumberedRun allowed queued 0 (.new fun _ => none)
  | manager {n : ℕ} {s : AllocatorActor} (run : NumberedRun allowed queued n s) (version : DeploymentVersion) (manager : Manager) :
      NumberedRun allowed queued (n + 1) (s.registerManager version manager)
  | step {n : ℕ} {s s' : AllocatorActor} {sender : Option ReplySender} {msg : Message} (run : NumberedRun allowed queued n s)
      (number : ∀ k, sender = some k → k = n) (ok : allowed s msg) (step : handle queued sender msg s = .ok s') :
      NumberedRun allowed queued (n + 1) s'

/-- Nothing waits that could be answered, and the next message, if it is refused, changes nothing. -/
structure Orderly (allowed : AllocatorActor → Message → Prop) (queued : GpuTokens → GpuTokens) (n : ℕ) (s : AllocatorActor) : Prop where
  quiet : Quiet queued s
  atomic : ∀ msg s', allowed s msg → msg.isRequest → handle queued (some n) msg s = .ok s' → Refused n s' → Unchanged s s'

/-- The size of a GPU after a registration: the known one, or the one that is listed first. -/
def AllocatorActor.maxTokensWith (s : AllocatorActor) (hardware : List HardwareResource) (uuid : GpuUuid) : Option GpuTokens :=
  ((s.gpus uuid).map (·.maxTokens)).or (hardware.findSome? fun
    | .gpu spec => if spec.uuid = uuid then some spec.tokens else none
    | .cpu _ => none)

/-- The room for tasks that a new worker has. -/
def AllocatorActor.offer (queued : GpuTokens → GpuTokens) (s : AllocatorActor) (hardware : List HardwareResource) : ℕ :=
  ((hardware.filterMap HardwareResource.uuid?).map fun uuid => (s.maxTokensWith hardware uuid).elim 0 fun max => (queued max).toNat).sum

/-- A new worker lists at most one CPU and has no room for any task that waits for it, a request
to give hardware back is held as a whole or refused before it changes anything, and a
connection that ends leaves every task that waits a candidate. -/
def Careful (queued : GpuTokens → GpuTokens) (s : AllocatorActor) : Message → Prop
  | .registerWorker msg => s.workers.get? msg.workerId = none → msg.hardware.countP HardwareResource.isCpu ≤ 1 ∧
      ∀ t ∈ s.pendingTasks, msg.workerId ∈ t.msg.candidates → s.offer queued msg.hardware < t.msg.gpuTokens.toNat
  | .scheduleTask _ => True
  | .allocateHardware _ => True
  | .deallocateHardware msg => ∀ worker task, s.workers.get? msg.workerId = some worker →
      worker.tasks.get? msg.taskId = some task →
        AllHeld s.gpus task msg.hardwareReservations ∨ NothingFirst s.gpus task msg.hardwareReservations
  | .endTask _ => True
  | .rpcDisconnect msg => ∀ t ∈ s.pendingTasks, ∃ id ∈ t.msg.candidates, ∃ worker, s.workers.get? id = some worker ∧
      worker.remoteAddress ≠ some msg.remoteAddress

/-- What every careful run keeps. -/
structure Tidy (queued : GpuTokens → GpuTokens) (n : ℕ) (s : AllocatorActor) : Prop where
  tasks : ∀ t ∈ s.pendingTasks, s.AllFull queued t.msg
  allocations : ∀ p ∈ s.pendingAllocations, s.Blocked p.request
  known : ∀ id worker, s.workers.get? id = some worker → ∀ uuid ∈ worker.gpuUuids, (s.gpus uuid).isSome
  numbers : ∀ k, s.Uses k → k < n

variable {queued : GpuTokens → GpuTokens} {s s' : AllocatorActor} {n : ℕ}

theorem Tidy.quiet (h : Tidy queued n s) : Quiet queued s := by
  refine ⟨fun t ht s' reply hschedule => ?_, fun p hp s' result hallocate => ?_⟩
  · have hfull := h.tasks t ht
    obtain ⟨-, e, -, hnot⟩ | ⟨-, hnone, -⟩ | ⟨id, worker, -, hscheduled⟩ := maybeScheduleTask_cases hschedule
    · exact hnot hfull
    · cases hnone
    · have hlt := hfull.full id hscheduled.candidate worker hscheduled.connected
      have hle := hscheduled.room
      omega
  · rw [maybeAllocate_blocked (h.allocations p hp)] at hallocate
    cases hallocate
    rfl

theorem Tidy.mono {m : ℕ} (h : Tidy queued n s) (hle : n ≤ m) : Tidy queued m s :=
  ⟨h.tasks, h.allocations, h.known, fun k hk => lt_of_lt_of_le (h.numbers k hk) hle⟩

variable {sender : Option ReplySender} {msg : RegisterWorker} {result : Except Error Unit}

theorem Tidy.send (h : Tidy queued n s) (hsender : ∀ k, sender = some k → k < n) (reply : Reply) :
    Tidy queued n (s.send sender reply) := by
  have hsame := send_same sender reply s
  refine ⟨fun t ht => ?_, fun p hp => ?_, fun id worker hworker uuid huuid => ?_, fun k hk => ?_⟩
  · rw [hsame.2.2.2.2] at ht
    exact (h.tasks t ht).busier (busier_send ..)
  · rw [hsame.2.2.2.1] at hp
    exact (h.allocations p hp).busier (busier_send ..)
  · rw [hsame.1] at hworker
    rw [hsame.2.1]
    exact h.known id worker hworker uuid huuid
  · obtain ⟨r, hr, rfl⟩ | hallocation | htask := hk
    · obtain hr | ⟨hk, -⟩ := mem_send.mp hr
      · exact h.numbers _ (.inl ⟨r, hr, rfl⟩)
      · exact hsender _ hk
    · rw [hsame.2.2.2.1] at hallocation
      exact h.numbers k (.inr (.inl hallocation))
    · rw [hsame.2.2.2.2] at htask
      exact h.numbers k (.inr (.inr htask))

theorem unchanged_send (s : AllocatorActor) (sender : Option ReplySender) (reply : Reply) : Unchanged s (s.send sender reply) := by
  obtain ⟨hworkers, hgpus, hcpus, hallocations, htasks⟩ := send_same sender reply s
  exact ⟨hworkers, hgpus, hcpus, hallocations, htasks⟩

theorem refused_send {sent : Reply} (h : ∀ k, s.Uses k → k < n) (hrefused : Refused n (s.send (some n) sent)) : ∃ e, sent.error? = some e := by
  obtain ⟨reply, e, hmem, herror⟩ := hrefused
  obtain hmem | ⟨-, heq⟩ := mem_send.mp hmem
  · exact absurd (h n (.inl ⟨_, hmem, rfl⟩)) (lt_irrefl _)
  · exact ⟨e, heq ▸ herror⟩

theorem Unchanged.trans {s₁ s₂ : AllocatorActor} (h : Unchanged s s₁) (h' : Unchanged s₁ s₂) : Unchanged s s₂ :=
  ⟨h'.workers.trans h.workers, h'.gpus.trans h.gpus, h'.cpus.trans h.cpus, h'.pendingAllocations.trans h.pendingAllocations,
    h'.pendingTasks.trans h.pendingTasks⟩

/-- A message that is answered at once leaves all as it was, where this is so before an answer that is an error. -/
theorem Tidy.answered {s₁ : AllocatorActor} {reply : Reply} (h : Tidy queued n s₁) (hsender : ∀ k, sender = some k → k = n)
    (hunchanged : ∀ e, reply.error? = some e → Unchanged s s₁) : Tidy queued (n + 1) (s₁.send sender reply) ∧
      (sender = some n → Refused n (s₁.send sender reply) → Unchanged s (s₁.send sender reply)) := by
  refine ⟨(h.mono (le_succ n)).send (fun k hk => (hsender k hk).trans_lt (lt_succ_self n)) _, fun heq hrefused => ?_⟩
  rw [heq] at hrefused
  obtain ⟨e, herror⟩ := refused_send h.numbers hrefused
  exact (hunchanged e herror).trans (unchanged_send ..)

theorem Reply.done_error {e : Error} (h : (Reply.done result).error? = some e) : result = .error e := by
  cases result with
  | ok _ => cases h
  | error e' => exact congrArg _ (Option.some.inj h)

theorem Reply.registered_error {result : Except Error RegisterWorkerReply} {e : Error} (h : (Reply.registered result).error? = some e) :
    result = .error e := by
  cases result with
  | ok _ => cases h
  | error e' => exact congrArg _ (Option.some.inj h)

/-- Hardware is known that was known before, as long as workers list what they listed. -/
theorem known_of_fuller (h : ∀ id worker, s.workers.get? id = some worker → ∀ uuid ∈ worker.gpuUuids, (s.gpus uuid).isSome)
    (hfuller : Fuller s s') : ∀ id worker, s'.workers.get? id = some worker → ∀ uuid ∈ worker.gpuUuids, (s'.gpus uuid).isSome := by
  intro id worker' hworker' uuid huuid
  obtain ⟨worker, hworker, hhardware, -⟩ := hfuller.workers id worker' hworker'
  rw [Worker.gpuUuids, hhardware] at huuid
  have hmax := congrArg isSome (hfuller.max uuid)
  rw [isSome_map, isSome_map] at hmax
  rw [hmax]
  exact h id worker hworker uuid huuid

theorem maxTokensWith_cons (machine : MachineId) (res : HardwareResource) (hardware : List HardwareResource) (uuid : GpuUuid) :
    (s.addResource machine res).maxTokensWith hardware uuid = s.maxTokensWith (res :: hardware) uuid := by
  cases res with
  | gpu spec =>
    rw [maxTokensWith, maxTokensWith, findSome?_cons, addResource, addGpu]
    cases hgpu : s.gpus spec.uuid with
    | some gpu =>
      by_cases huuid : spec.uuid = uuid
      · rw [← huuid, hgpu]
        rfl
      · simp only [if_neg huuid]
    | none =>
      by_cases huuid : spec.uuid = uuid
      · simp only [← huuid, Function.update_self, hgpu, if_pos]
        rfl
      · simp only [if_neg huuid, Function.update_of_ne (Ne.symm huuid)]
  | cpu spec =>
    rw [maxTokensWith, maxTokensWith, findSome?_cons, addResource, addCpu]
    cases s.cpus machine <;> rfl

theorem addHardware_spec (machine : MachineId) (hardware : List HardwareResource) :
    (∀ uuid, ((s.addHardware machine hardware).gpus uuid).map (·.maxTokens) = s.maxTokensWith hardware uuid) ∧
      Scarcer s.gpus (s.addHardware machine hardware).gpus s.cpus (s.addHardware machine hardware).cpus ∧
      (s.addHardware machine hardware).pendingAllocations = s.pendingAllocations ∧
      (s.addHardware machine hardware).pendingTasks = s.pendingTasks ∧ (s.addHardware machine hardware).replies = s.replies := by
  unfold AllocatorActor.addHardware
  induction hardware generalizing s with
  | nil =>
    refine ⟨fun uuid => ?_, .refl _ _, rfl, rfl, rfl⟩
    rw [maxTokensWith, findSome?_nil, or_none]
    rfl
  | cons res hardware ih =>
    rw [foldl_cons]
    obtain ⟨hmax, hscarcer, hallocations, htasks, hreplies⟩ := @ih (s.addResource machine res)
    have hstep : Scarcer s.gpus (s.addResource machine res).gpus s.cpus (s.addResource machine res).cpus ∧
        (s.addResource machine res).pendingAllocations = s.pendingAllocations ∧
        (s.addResource machine res).pendingTasks = s.pendingTasks ∧ (s.addResource machine res).replies = s.replies := by
      cases res with
      | gpu spec =>
        rw [addResource, addGpu]
        cases hgpu : s.gpus spec.uuid with
        | some gpu => exact ⟨.refl _ _, rfl, rfl, rfl⟩
        | none =>
          refine ⟨⟨fun g gpu hget => ⟨gpu, ?_, le_refl _⟩, fun m cpu hcpu => ⟨cpu, hcpu, le_refl _⟩⟩, rfl, rfl, rfl⟩
          have hne : g ≠ spec.uuid := fun heq => by
            rw [heq, hgpu] at hget
            cases hget
          simp only [Function.update_of_ne hne, hget]
      | cpu spec =>
        rw [addResource, addCpu]
        cases hcpu : s.cpus machine with
        | some cpu => exact ⟨.refl _ _, rfl, rfl, rfl⟩
        | none =>
          refine ⟨⟨fun g gpu hget => ⟨gpu, hget, le_refl _⟩, fun m cpu hget => ⟨cpu, ?_, le_refl _⟩⟩, rfl, rfl, rfl⟩
          have hne : m ≠ machine := fun heq => by
            rw [heq, hcpu] at hget
            cases hget
          simp only [Function.update_of_ne hne, hget]
    obtain ⟨hscarcer1, hallocations1, htasks1, hreplies1⟩ := hstep
    exact ⟨fun uuid => (hmax uuid).trans (maxTokensWith_cons ..), hscarcer1.trans hscarcer, hallocations.trans hallocations1,
      htasks.trans htasks1, hreplies.trans hreplies1⟩

theorem maxTokensWith_isSome {hardware : List HardwareResource} {uuid : GpuUuid} (h : uuid ∈ hardware.filterMap HardwareResource.uuid?) :
    (s.maxTokensWith hardware uuid).isSome := by
  obtain ⟨res, hres, huuid⟩ := mem_filterMap.mp h
  rw [maxTokensWith, isSome_or, Bool.or_eq_true, findSome?_isSome_iff]
  refine .inr ⟨res, hres, ?_⟩
  cases res with
  | gpu spec =>
    cases huuid
    simp
  | cpu spec => cases huuid

theorem registerWorker_new (hnew : s.workers.get? msg.workerId = none)
    (hcpus : msg.hardware.countP HardwareResource.isCpu ≤ 1) : ∃ machine worker reply, worker.hardware = msg.hardware ∧
      worker.tasks = .empty ∧ s.registerWorker msg =
        ({ s.addHardware machine msg.hardware with workers := s.workers.insert msg.workerId worker }, .ok reply) := by
  unfold AllocatorActor.registerWorker
  simp only [hnew, if_neg (not_lt.mpr hcpus), addHardware_workers]
  exact ⟨_, _, _, rfl, rfl, rfl⟩

theorem Tidy.registerWorker (h : Tidy queued n s) (hcareful : Careful queued s (.registerWorker msg)) :
    Tidy queued n (s.registerWorker msg).1 ∧ ∀ e, (s.registerWorker msg).2 = .error e → Unchanged s (s.registerWorker msg).1 := by
  cases hget : s.workers.get? msg.workerId with
  | some worker =>
    have hrefused : (s.registerWorker msg).1 = s := by
      unfold AllocatorActor.registerWorker
      simp only [hget]
    rw [hrefused]
    exact ⟨h, fun _ _ => ⟨rfl, rfl, rfl, rfl, rfl⟩⟩
  | none =>
    obtain ⟨hcpus, hoffer⟩ := hcareful hget
    obtain ⟨machine, worker, reply, hhardware, htasks, hregister⟩ := registerWorker_new hget hcpus
    rw [hregister]
    refine ⟨?_, fun e he => nomatch he⟩
    obtain ⟨hmax, hscarcer, hallocations, htasks', hreplies⟩ := @addHardware_spec s machine msg.hardware
    have hworkers (id : WorkerId) : (s.workers.insert msg.workerId worker).get? id =
        if id = msg.workerId then some worker else s.workers.get? id := by
      rw [OrderedMap.get?_insert]
      split <;> rfl
    have hold (uuid : GpuUuid) (hknown : (s.gpus uuid).isSome) :
        ((s.addHardware machine msg.hardware).gpus uuid).map (·.maxTokens) = (s.gpus uuid).map (·.maxTokens) := by
      obtain ⟨gpu, hgpu⟩ := isSome_iff_exists.mp hknown
      rw [hmax, maxTokensWith, hgpu]
      rfl
    refine ⟨fun t ht => ⟨?_, fun id hid worker' hworker' => ?_⟩, fun p hp => ?_, fun id worker' hworker' uuid huuid => ?_, fun k hk => ?_⟩
    · obtain ⟨id, hid, worker', hworker'⟩ := (h.tasks t (htasks' ▸ ht)).connected
      refine ⟨id, hid, ?_⟩
      rw [hworkers]
      split
      · exact ⟨worker, rfl⟩
      · exact ⟨worker', hworker'⟩
    · rw [hworkers] at hworker'
      split at hworker'
      next hnew =>
        cases hworker'
        have hroom := hoffer t (htasks' ▸ ht) (hnew ▸ hid)
        have hzero : worker.scheduledTokens = 0 := by
          rw [Worker.scheduledTokens, htasks]
          rfl
        refine lt_of_le_of_lt (le_of_eq ?_) hroom
        rw [capacity, AllocatorActor.offer, Worker.gpuUuids, hhardware]
        refine congrArg sum (map_congr_left fun uuid _ => ?_)
        rw [← hmax, hzero]
        cases (s.addHardware machine msg.hardware).gpus uuid <;> rfl
      next =>
        have hfull := (h.tasks t (htasks' ▸ ht)).full id hid worker' hworker'
        refine lt_of_le_of_lt (le_of_eq ?_) hfull
        refine congrArg sum (map_congr_left fun uuid huuid => ?_)
        have hsame := hold uuid (h.known id worker' hworker' uuid huuid)
        obtain ⟨gpu, hgpu⟩ := isSome_iff_exists.mp (h.known id worker' hworker' uuid huuid)
        rw [hgpu, map_some, map_eq_some_iff] at hsame
        obtain ⟨gpu', hgpu', htokens⟩ := hsame
        rw [hgpu, hgpu', elim_some, elim_some, htokens]
    · obtain ⟨worker', task, hworker', htask, hroom⟩ := h.allocations p (hallocations ▸ hp)
      refine ⟨worker', task, ?_, htask, hasRoom_scarcer hscarcer hroom⟩
      rw [hworkers, if_neg, hworker']
      intro heq
      rw [heq, hget] at hworker'
      cases hworker'
    · rw [hworkers] at hworker'
      have hsome : (s.maxTokensWith msg.hardware uuid).isSome := by
        split at hworker'
        next =>
          cases hworker'
          rw [Worker.gpuUuids, hhardware] at huuid
          exact maxTokensWith_isSome huuid
        next =>
          obtain ⟨gpu, hgpu⟩ := isSome_iff_exists.mp (h.known id worker' hworker' uuid huuid)
          rw [maxTokensWith, hgpu]
          rfl
      rw [← hmax, isSome_map] at hsome
      exact hsome
    · refine h.numbers k ?_
      obtain ⟨r, hr, hk⟩ | ⟨p, hp, hk⟩ | ⟨t, ht, hk⟩ := hk
      · exact .inl ⟨r, hreplies ▸ hr, hk⟩
      · exact .inr (.inl ⟨p, hallocations ▸ hp, hk⟩)
      · exact .inr (.inr ⟨t, htasks' ▸ ht, hk⟩)

/-- After a pass over the allocations everything is tidy, where the tasks that wait were full before. -/
theorem Tidy.allocateMany (h : s.maybeAllocateMany = .ok s') (htasks : ∀ t ∈ s.pendingTasks, s.AllFull queued t.msg)
    (hknown : ∀ id worker, s.workers.get? id = some worker → ∀ uuid ∈ worker.gpuUuids, (s.gpus uuid).isSome)
    (hnumbers : ∀ k, s.Uses k → k < n) : Tidy queued n s' := by
  obtain ⟨hbusier, hblocked, hsame, huses⟩ := maybeAllocateMany_waits h
  refine ⟨fun t ht => ?_, hblocked, known_of_fuller hknown hbusier.fuller, fun k hk => hnumbers k (huses k hk)⟩
  rw [hsame] at ht
  exact (htasks t ht).busier hbusier

theorem Tidy.scheduleTasks (h : s.maybeScheduleTasks queued = .ok s') (hallocations : ∀ p ∈ s.pendingAllocations, s.Blocked p.request)
    (hknown : ∀ id worker, s.workers.get? id = some worker → ∀ uuid ∈ worker.gpuUuids, (s.gpus uuid).isSome)
    (hnumbers : ∀ k, s.Uses k → k < n) : Tidy queued n s' := by
  obtain ⟨hbusier, hfull, hsame, huses⟩ := maybeScheduleTasks_waits h
  refine ⟨hfull, fun p hp => ?_, known_of_fuller hknown hbusier.fuller, fun k hk => hnumbers k (huses k hk)⟩
  rw [hsame] at hp
  exact (hallocations p hp).busier hbusier

theorem uses_allocation {request : AllocateHardware} (h : ∀ k, s.Uses k → k < n)
    (hsender : ∀ k, sender = some k → k = n) :
    ∀ k, ({ s with pendingAllocations := s.pendingAllocations ++ [⟨request, sender⟩] } : AllocatorActor).Uses k → k < n + 1 := by
  rintro k (hreply | ⟨p, hp, hk⟩ | htask)
  · exact (h k (.inl hreply)).trans (lt_succ_self n)
  · obtain hp | hp := mem_append.mp hp
    · exact (h k (.inr (.inl ⟨p, hp, hk⟩))).trans (lt_succ_self n)
    · rw [mem_singleton.mp hp] at hk
      rw [hsender k hk]
      exact lt_succ_self n
  · exact (h k (.inr (.inr htask))).trans (lt_succ_self n)

theorem uses_task {msg : ScheduleTask} (h : ∀ k, s.Uses k → k < n) (hsender : ∀ k, sender = some k → k = n) :
    ∀ k, ({ s with pendingTasks := s.pendingTasks ++ [⟨msg, sender⟩] } : AllocatorActor).Uses k → k < n + 1 := by
  rintro k (hreply | hallocation | ⟨t, ht, hk⟩)
  · exact (h k (.inl hreply)).trans (lt_succ_self n)
  · exact (h k (.inr (.inl hallocation))).trans (lt_succ_self n)
  · obtain ht | ht := mem_append.mp ht
    · exact (h k (.inr (.inr ⟨t, ht, hk⟩))).trans (lt_succ_self n)
    · rw [mem_singleton.mp ht] at hk
      rw [hsender k hk]
      exact lt_succ_self n

theorem Tidy.allocateHardware {msg : AllocateHardware} (h : Tidy queued n s)
    (hsender : ∀ k, sender = some k → k = n) (hstep : s.allocateHardware sender msg = .ok s') :
    Tidy queued (n + 1) s' ∧ (sender = some n → Refused n s' → Unchanged s s') := by
  unfold AllocatorActor.allocateHardware at hstep
  have hlt : ∀ k, sender = some k → k < n + 1 := fun k hk => by
    rw [hsender k hk]
    exact lt_succ_self n
  obtain ⟨hvalid, -⟩ | ⟨e, hinvalid⟩ := validateAllocationRequest_cases s msg
  · rw [hvalid] at hstep
    have hbusier : Busier s { s with pendingAllocations := s.pendingAllocations ++ [⟨msg, sender⟩] } := busier_of_eq rfl rfl rfl
    refine ⟨Tidy.allocateMany hstep (fun t ht => (h.tasks t ht).busier hbusier) h.known (uses_allocation h.numbers hsender), ?_⟩
    rintro rfl ⟨reply, e, hmem, herror⟩
    -- The earlier requests wait again, so only the new one has its turn.
    have hstart : Busier s { s with pendingAllocations := [] } := busier_of_eq rfl rfl rfl
    have hearlier := @allocations_blocked { s with pendingAllocations := [] } s.pendingAllocations fun p hp => (h.allocations p hp).busier hstart
    change (s.pendingAllocations ++ [(⟨msg, some n⟩ : PendingAllocation)]).foldlM considerAllocation { s with pendingAllocations := [] } = .ok s' at hstep
    rw [foldlM_append, hearlier] at hstep
    obtain ⟨s₁, hconsider, hdone⟩ := bind_ok_iff.mp ((foldlM_cons ..).symm.trans hstep)
    obtain rfl : s₁ = s' := Except.ok.inj hdone
    obtain ⟨-, rfl⟩ | ⟨e', rfl⟩ | ⟨granted, -, -, -, hreplies, rfl⟩ := considerAllocation_cases hconsider
    · exact absurd (h.numbers n (.inl ⟨_, hmem, rfl⟩)) (lt_irrefl n)
    · exact unchanged_send s _ _
    · obtain hmem | ⟨-, rfl⟩ := mem_send.mp hmem
      · rw [hreplies] at hmem
        exact absurd (h.numbers n (.inl ⟨_, hmem, rfl⟩)) (lt_irrefl n)
      · cases herror
  · rw [hinvalid] at hstep
    cases hstep
    exact ⟨(h.mono (le_succ n)).send hlt _, fun _ _ => unchanged_send ..⟩

theorem Tidy.deallocateHardware {msg : DeallocateHardware} (h : Tidy queued n s)
    (hcareful : Careful queued s (.deallocateHardware msg)) (hstep : s.deallocateHardware msg = .ok (s', result)) :
    Tidy queued n s' ∧ ∀ e, result = .error e → s' = s := by
  unfold AllocatorActor.deallocateHardware at hstep
  cases hworker : s.workers.get? msg.workerId with
  | none =>
    rw [hworker] at hstep
    cases hstep
    exact ⟨h, fun _ _ => rfl⟩
  | some worker =>
    cases htask : worker.tasks.get? msg.taskId with
    | none =>
      simp only [hworker, htask] at hstep
      cases hstep
      exact ⟨h, fun _ _ => rfl⟩
    | some task =>
      simp only [hworker, htask] at hstep
      obtain ⟨⟨books, given⟩, hgive, hrest⟩ := bind_ok_iff.mp hstep
      obtain ⟨hmax, hscheduled, hall, -, hnothing⟩ := @giveAll_cases worker.machine _ s.gpus _ _ _ hgive fun _ => rfl
      obtain hheld | hfirst := hcareful worker task hworker htask
      · rw [hall hheld] at hrest
        obtain ⟨s₁, hmany, hdone⟩ := bind_ok_iff.mp hrest
        cases hdone
        refine ⟨?_, fun e he => nomatch he⟩
        have hfuller : Fuller s (s.withBooks msg.workerId worker msg.taskId books) := by
          refine fuller_setTask hworker ?_ hmax
          rw [htask, elim_some, hscheduled]
        refine Tidy.allocateMany hmany (fun t ht => (h.tasks t ht).fuller hfuller ?_) (known_of_fuller h.known hfuller) h.numbers
        obtain ⟨id, hid, worker', hworker'⟩ := (h.tasks t ht).connected
        refine ⟨id, hid, ?_⟩
        rw [AllocatorActor.withBooks, get?_setTask]
        split
        · exact ⟨_, rfl⟩
        · exact ⟨worker', hworker'⟩
      · obtain ⟨rfl, e, rfl⟩ := hnothing hfirst
        cases hrest
        have hsame : s.withBooks msg.workerId worker msg.taskId ⟨s.gpus, s.cpus, task⟩ = s := by
          have hinsert : ({ worker with tasks := worker.tasks.insert msg.taskId task } : Worker) = worker := by
            rw [OrderedMap.insert_get? htask]
          rw [AllocatorActor.withBooks, setTask, hinsert, OrderedMap.insert_get? hworker]
        rw [hsame]
        exact ⟨h, fun _ _ => rfl⟩

theorem Tidy.endTask {msg : EndTask} (h : Tidy queued n s)
    (hstep : s.endTask queued msg = .ok (s', result)) : Tidy queued n s' ∧ ∀ e, result = .error e → s' = s := by
  unfold AllocatorActor.endTask at hstep
  cases hworker : s.workers.get? msg.workerId with
  | none =>
    rw [hworker] at hstep
    cases hstep
    exact ⟨h, fun _ _ => rfl⟩
  | some worker =>
    simp only [hworker] at hstep
    split at hstep
    next =>
      cases hstep
      exact ⟨h, fun _ _ => rfl⟩
    next hnone =>
      cases htask : worker.tasks.get? msg.taskId with
      | none =>
        simp only [htask] at hstep
        cases hstep
        exact ⟨h, fun _ _ => rfl⟩
      | some task =>
        simp only [htask] at hstep
        split at hstep
        next =>
          cases hstep
          exact ⟨h, fun _ _ => rfl⟩
        next =>
          obtain ⟨s₁, htasks, hdone⟩ := bind_ok_iff.mp hstep
          cases hdone
          refine ⟨?_, fun e he => nomatch he⟩
          have hget (id : WorkerId) : (s.workers.insert msg.workerId { worker with tasks := worker.tasks.erase msg.taskId }).get? id =
              if id = msg.workerId then some { worker with tasks := worker.tasks.erase msg.taskId } else s.workers.get? id := by
            rw [OrderedMap.get?_insert]
            split <;> rfl
          refine Tidy.scheduleTasks htasks (fun p hp => ?_) (fun id worker' hworker' uuid huuid => ?_) h.numbers
          · obtain ⟨worker', task', hworker', htask', hroom⟩ := h.allocations p hp
            have hother : p.request.taskId ≠ msg.taskId := fun heq =>
              hnone (List.any_eq_true.mpr (Exists.intro p (And.intro hp (decide_eq_true heq))))
            by_cases hid : p.request.workerId = msg.workerId
            · rw [hid, hworker] at hworker'
              cases hworker'
              refine ⟨{ worker with tasks := worker.tasks.erase msg.taskId }, task', ?_, ?_, hroom⟩
              · show (s.workers.insert _ _).get? _ = _
                rw [hget, if_pos hid]
              · show (worker.tasks.erase msg.taskId).get? p.request.taskId = some task'
                rw [OrderedMap.get?_erase, if_neg hother, htask']
            · refine ⟨worker', task', ?_, htask', hroom⟩
              show (s.workers.insert _ _).get? _ = _
              rw [hget, if_neg hid, hworker']
          · change (s.workers.insert _ _).get? id = some worker' at hworker'
            rw [hget] at hworker'
            split at hworker'
            next =>
              cases hworker'
              exact h.known _ worker hworker uuid huuid
            next => exact h.known id worker' hworker' uuid huuid

/-- What giving back the hardware of a worker leaves as it was. -/
structure Restored (s s' : AllocatorActor) : Prop where
  max : ∀ g, (s'.gpus g).map (·.maxTokens) = (s.gpus g).map (·.maxTokens)
  workers : s'.workers = s.workers
  allocations : ∀ p ∈ s'.pendingAllocations, p ∈ s.pendingAllocations
  tasks : s'.pendingTasks = s.pendingTasks
  replies : s'.replies = s.replies

theorem Restored.refl (s : AllocatorActor) : Restored s s := ⟨fun _ => rfl, rfl, fun _ h => h, rfl, rfl⟩

theorem Restored.trans {s'' : AllocatorActor} (h : Restored s s') (h' : Restored s' s'') : Restored s s'' :=
  ⟨fun g => (h'.max g).trans (h.max g), h'.workers.trans h.workers, fun p hp => h.allocations p (h'.allocations p hp),
    h'.tasks.trans h.tasks, h'.replies.trans h.replies⟩

/-- What every step of a loop leaves as it was, the loop does. -/
theorem Restored.foldlM {α : Type} {f : AllocatorActor → α → Except Panic AllocatorActor}
    (hf : ∀ s a s', f s a = .ok s' → Restored s s') {l : List α} (h : l.foldlM f s = .ok s') : Restored s s' := by
  induction l generalizing s with
  | nil =>
    cases h
    exact .refl _
  | cons a l ih =>
    rw [foldlM_cons] at h
    obtain ⟨s₁, hstep, hrest⟩ := bind_ok_iff.mp h
    exact (hf s a s₁ hstep).trans (ih hrest)

theorem returnTokens_restored (s : AllocatorActor) (used : GpuUuid × GpuTokens) (s' : AllocatorActor)
    (h : s.returnTokens used = .ok s') : Restored s s' := by
  obtain ⟨gpu, hgpu, h1⟩ := bind_ok_iff.mp h
  obtain ⟨gpus, hgive, h2⟩ := bind_ok_iff.mp h1
  obtain ⟨freeTokens, -, h3⟩ := bind_ok_iff.mp hgive
  obtain ⟨-, -, h4⟩ := bind_ok_iff.mp h3
  cases h2
  cases h4
  rw [expect_eq_ok] at hgpu
  exact ⟨(sameHardware_updateGpu s.cpus hgpu freeTokens).gpu, rfl, fun _ hp => hp, rfl, rfl⟩

theorem returnTask_restored (machine : MachineId) (s : AllocatorActor) (task : Task) (s' : AllocatorActor)
    (h : s.returnTask machine task = .ok s') : Restored s s' := by
  obtain ⟨s₁, htokens, hcores⟩ := bind_ok_iff.mp h
  refine (Restored.foldlM returnTokens_restored htokens).trans ?_
  split at hcores
  next =>
    obtain ⟨cpu, -, h1⟩ := bind_ok_iff.mp hcores
    obtain ⟨cpus, -, h2⟩ := bind_ok_iff.mp h1
    cases h2
    exact ⟨fun _ => rfl, rfl, fun _ hp => hp, rfl, rfl⟩
  next =>
    cases hcores
    exact .refl _

theorem removeWorker_restored (s : AllocatorActor) (entry : WorkerId × Worker) (s' : AllocatorActor)
    (h : s.removeWorker entry = .ok s') : Restored s s' := by
  have hfilter : Restored s { s with pendingAllocations := s.pendingAllocations.filter fun p => p.request.workerId ≠ entry.1 } :=
    ⟨fun _ => rfl, rfl, fun p hp => (mem_filter.mp hp).1, rfl, rfl⟩
  exact hfilter.trans (Restored.foldlM (returnTask_restored entry.2.machine) h)

theorem Tidy.rpcDisconnect {msg : RpcDisconnect} (h : Tidy queued n s) (hcareful : Careful queued s (.rpcDisconnect msg))
    (hstep : s.maybeRemoveWorkers msg = .ok s') : Tidy queued n s' := by
  obtain ⟨s₁, hout, hmany⟩ := bind_ok_iff.mp hstep
  have hrestored := Restored.foldlM removeWorker_restored hout
  have hget (id : WorkerId) (worker : Worker) : s₁.workers.get? id = some worker ↔
      s.workers.get? id = some worker ∧ worker.remoteAddress ≠ some msg.remoteAddress := by
    rw [hrestored.workers, OrderedMap.get?_retain, filter_eq_some_iff, decide_eq_true_iff]
  have hfuller : Fuller s s₁ := by
    refine ⟨hrestored.max, fun id worker hworker => ⟨worker, ((hget id worker).mp hworker).1, rfl, le_refl _⟩⟩
  refine Tidy.allocateMany hmany (fun t ht => ?_) (known_of_fuller h.known hfuller) fun k hk => h.numbers k ?_
  · rw [hrestored.tasks] at ht
    obtain ⟨id, hid, worker, hworker, hother⟩ := hcareful t ht
    exact (h.tasks t ht).fuller hfuller ⟨id, hid, worker, (hget id worker).mpr ⟨hworker, hother⟩⟩
  · obtain ⟨r, hr, hk⟩ | ⟨p, hp, hk⟩ | ⟨t, ht, hk⟩ := hk
    · rw [hrestored.replies] at hr
      exact .inl ⟨r, hr, hk⟩
    · exact .inr (.inl ⟨p, hrestored.allocations p hp, hk⟩)
    · rw [hrestored.tasks] at ht
      exact .inr (.inr ⟨t, ht, hk⟩)

/-- A message keeps what a careful run keeps, and where it is refused it changes nothing. -/
theorem Tidy.handle {msg : Message} (h : Tidy queued n s) (hcareful : Careful queued s msg)
    (hsender : ∀ k, sender = some k → k = n) (hstep : handle queued sender msg s = .ok s') :
    Tidy queued (n + 1) s' ∧ (msg.isRequest → sender = some n → Refused n s' → Unchanged s s') := by
  cases msg with
  | registerWorker msg =>
    obtain rfl : (s.registerWorker msg).1.send sender (.registered (s.registerWorker msg).2) = s' := Except.ok.inj hstep
    obtain ⟨htidy, hunchanged⟩ := h.registerWorker hcareful
    exact (htidy.answered hsender fun e herror => hunchanged e (Reply.registered_error herror)).imp_right fun hatomic _ => hatomic
  | scheduleTask msg =>
    have hbusier : Busier s { s with pendingTasks := s.pendingTasks ++ [⟨msg, sender⟩] } := busier_of_eq rfl rfl rfl
    refine ⟨Tidy.scheduleTasks hstep (fun p hp => (h.allocations p hp).busier hbusier) h.known (uses_task h.numbers hsender), ?_⟩
    exact fun hrequest => nomatch hrequest
  | allocateHardware msg =>
    obtain ⟨htidy, hunchanged⟩ := h.allocateHardware hsender hstep
    exact ⟨htidy, fun _ => hunchanged⟩
  | deallocateHardware msg =>
    obtain ⟨⟨s₁, result⟩, hdeallocate, hdone⟩ := bind_ok_iff.mp hstep
    cases hdone
    obtain ⟨htidy, hunchanged⟩ := h.deallocateHardware hcareful hdeallocate
    refine (htidy.answered hsender fun e herror => ?_).imp_right fun hatomic _ => hatomic
    rw [hunchanged e (Reply.done_error herror)]
    exact ⟨rfl, rfl, rfl, rfl, rfl⟩
  | endTask msg =>
    obtain ⟨⟨s₁, result⟩, hend, hdone⟩ := bind_ok_iff.mp hstep
    cases hdone
    obtain ⟨htidy, hunchanged⟩ := h.endTask hend
    refine (htidy.answered hsender fun e herror => ?_).imp_right fun hatomic _ => hatomic
    rw [hunchanged e (Reply.done_error herror)]
    exact ⟨rfl, rfl, rfl, rfl, rfl⟩
  | rpcDisconnect msg =>
    obtain ⟨s₁, hremove, hdone⟩ := bind_ok_iff.mp hstep
    cases hdone
    have htidy := (h.rpcDisconnect hcareful hremove).mono (le_succ n)
    refine ⟨⟨fun t ht => ?_, fun p hp => ?_, htidy.known, htidy.numbers⟩, fun hrequest => nomatch hrequest⟩
    · exact (htidy.tasks t ht).busier (busier_of_eq rfl rfl rfl)
    · exact (htidy.allocations p hp).busier (busier_of_eq rfl rfl rfl)

theorem NumberedRun.tidy (h : NumberedRun (Careful queued) queued n s) : Tidy queued n s := by
  induction h with
  | init =>
    refine ⟨fun _ ht => absurd ht not_mem_nil, fun _ hp => absurd hp not_mem_nil, fun _ _ h => ?_, ?_⟩
    · cases h
    rintro k (⟨r, hr, -⟩ | ⟨p, hp, -⟩ | ⟨t, ht, -⟩)
    · exact absurd hr not_mem_nil
    · exact absurd hp not_mem_nil
    · exact absurd ht not_mem_nil
  | @manager n s _ version manager ih =>
    have hsame : ∃ managers, s.registerManager version manager = { s with managers } := by
      unfold AllocatorActor.registerManager
      cases s.managers version <;> exact ⟨_, rfl⟩
    obtain ⟨managers, hsame⟩ := hsame
    rw [hsame]
    have htidy := ih.mono (le_succ n)
    refine ⟨fun t ht => ?_, fun p hp => ?_, htidy.known, htidy.numbers⟩
    · exact (htidy.tasks t ht).busier (busier_of_eq rfl rfl rfl)
    · exact (htidy.allocations p hp).busier (busier_of_eq rfl rfl rfl)
  | step _ hnumber hcareful hstep ih => exact (ih.handle hcareful hnumber hstep).1

/-- After any careful messages nothing waits that could be answered, and the next message, if it
is refused, changes nothing. -/
theorem refusals_are_atomic (hrun : NumberedRun (Careful queued) queued n s) : Orderly (Careful queued) queued n s := by
  refine ⟨hrun.tidy.quiet, fun msg s' hcareful hrequest hstep hrefused => ?_⟩
  exact (hrun.tidy.handle hcareful (fun k hk => (Option.some_inj.mp hk).symm) hstep).2 hrequest rfl hrefused

/-- A task and an allocation wait, and a request to give back more than is held is refused. -/
theorem refusals_are_atomic_sample : NumberedRun (Careful id) id 5 sampleFull ∧ Orderly (Careful id) id 5 sampleFull ∧
    ∃ s', handle id (some 5) (sampleReturn [.gpu 7 3]) sampleFull = .ok s' ∧ Refused 5 s' ∧ Unchanged sampleFull s' := by
  obtain ⟨s, h₀, h₁, h₂, h₃, h₄⟩ := sampleFull_steps
  have hnumber (n k : ℕ) (hk : some n = some k) : k = n := (some_inj.mp hk).symm
  have hregistered : NumberedRun (Careful id) id 1 s := .step .init (hnumber 0)
    (fun _ => ⟨by decide, fun t ht => absurd ht not_mem_nil⟩) h₀
  have hfirst := hregistered.step (hnumber _) (by trivial) h₁
  have hsecond := hfirst.step (hnumber _) (by trivial) h₂
  have hgranted := hsecond.step (hnumber _) (by trivial) h₃
  have hfull := hgranted.step (hnumber _) (by trivial) h₄
  have horderly := refusals_are_atomic hfull
  have hrefused : Refused 5 (sampleState [(7, 2)] 1 [3, 1] [4, 3] sampleQueue sampleWaiting
      [(3, .done (.ok ())), (5, .done (.error .gpuTokensNotHeld))]) :=
    ⟨.done (.error .gpuTokensNotHeld), .gpuTokensNotHeld, by simp [sampleState], rfl⟩
  refine ⟨hfull, horderly, _, rfl, hrefused, horderly.atomic (sampleReturn [.gpu 7 3]) _ (fun worker task hworker htask => ?_) rfl rfl hrefused⟩
  cases hworker
  cases htask
  -- The task holds two tokens.
  refine .inr (.inl fun hheld => ?_)
  obtain ⟨-, held, hget, hle⟩ := hheld
  cases hget
  exact absurd hle (by decide)

theorem numberedRun_handleAll {msgs : List Message} (h : handleAll queued msgs s = .ok s') (hrun : NumberedRun (fun _ _ => True) queued n s) :
    NumberedRun (fun _ _ => True) queued (n + msgs.length) s' := by
  induction msgs generalizing s n with
  | nil =>
    cases h
    exact hrun
  | cons msg msgs ih =>
    obtain ⟨s₁, hstep, hrest⟩ := bind_ok_iff.mp ((foldlM_cons ..).symm.trans h)
    have hrun1 := ih hrest (hrun.step (fun k hk => absurd hk (by simp)) trivial hstep)
    rwa [Nat.add_assoc, Nat.add_comm 1] at hrun1

/-- A registration with two CPUs is refused and leaves a worker, a request to give back more
than is held is refused after its first reservation, a task waits after its last candidate is
gone, and another one waits while a new candidate has room. -/
theorem careless_messages :
    (∃ s', handle id (some 0) (.registerWorker ⟨none, 1, [.cpu ⟨4⟩, .cpu ⟨4⟩], sampleVersion⟩) (.new fun _ => none) = .ok s' ∧
      Refused 0 s' ∧ ¬ Unchanged (.new fun _ => none) s') ∧
    (∃ s s', NumberedRun (fun _ _ => True) id 3 s ∧
      handle id (some 3) (.deallocateHardware ⟨1, ⟨0, 0⟩, [.gpu 7 1, .gpu 7 2]⟩) s = .ok s' ∧ Refused 3 s' ∧ ¬ Unchanged s s') ∧
    (∃ s, NumberedRun (fun _ _ => True) id 4 s ∧ ¬ Quiet id s ∧ s.workers = .empty) ∧
    ∃ s, NumberedRun (fun _ _ => True) id 4 s ∧ ¬ Quiet id s ∧ s.pendingTasks.map (fun t => t.msg.candidates) = [[1, 2]] := by
  refine ⟨⟨_, rfl, ⟨_, .twoCpus, List.mem_singleton.mpr rfl, rfl⟩, fun h => ?_⟩, ⟨_, _,
      @numberedRun_handleAll _ _ _ 0 [sampleWorker 1 80 7, sampleTask [1] 0 1, .allocateHardware ⟨1, ⟨0, 0⟩, [.gpu 7 2]⟩] rfl .init,
      rfl, ⟨_, .gpuTokensNotHeld, List.mem_singleton.mpr rfl, rfl⟩, fun h => ?_⟩, ⟨_,
      @numberedRun_handleAll _ _ _ 0 [sampleWorker 1 80 7, sampleTask [1] 0 3, sampleTask [1] 1 1, .rpcDisconnect ⟨⟨.v4 1, 80⟩⟩] rfl .init,
      fun h => ?_, rfl⟩, _,
      @numberedRun_handleAll _ _ _ 0 [sampleWorker 1 80 7, sampleTask [1, 2] 0 3, sampleTask [1, 2] 1 1, sampleWorker 2 81 8] rfl .init,
      fun h => ?_, rfl⟩
  · have hworker := congrArg (fun workers => (OrderedMap.get? workers 1).isSome) h.workers
    exact absurd hworker (by decide)
  · have hgpu := congrArg (fun gpus => (gpus 7).map Gpu.freeTokens) h.gpus
    exact absurd hgpu (by decide)
  · exact h.tasks _ (List.mem_singleton.mpr rfl) _ (.error .noEligibleWorkers) rfl
  · exact h.tasks _ (List.mem_singleton.mpr rfl) _ (.ok ⟨2⟩) rfl

end VerifiableCompute.Allocator
