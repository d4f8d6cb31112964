import VerifiableCompute.Allocator.Capacity
import VerifiableCompute.Allocator.Reservations

/-! Passes over the queues. A request that waits after its turn cannot be answered then, and
what the rest of the pass gives to others does not change that. -/

namespace VerifiableCompute.Allocator

open Lib WordOrder List Option Function

/-- Hardware stays known, and none of it has more to give. -/
structure Scarcer (gpus gpus' : GpuUuid → Option Gpu) (cpus cpus' : MachineId → Option Cpu) : Prop where
  gpu : ∀ g gpu, gpus g = some gpu → ∃ gpu', gpus' g = some gpu' ∧ gpu'.freeTokens ≤ gpu.freeTokens
  cpu : ∀ m cpu, cpus m = some cpu → ∃ cpu', cpus' m = some cpu' ∧ cpu'.freeCores ≤ cpu.freeCores

variable {gpus gpus' gpus'' : GpuUuid → Option Gpu} {cpus cpus' cpus'' : MachineId → Option Cpu} {machine : MachineId}

theorem Scarcer.refl (gpus : GpuUuid → Option Gpu) (cpus : MachineId → Option Cpu) : Scarcer gpus gpus cpus cpus :=
  ⟨fun _ gpu h => ⟨gpu, h, le_refl _⟩, fun _ cpu h => ⟨cpu, h, le_refl _⟩⟩

theorem Scarcer.trans (h : Scarcer gpus gpus' cpus cpus') (h' : Scarcer gpus' gpus'' cpus' cpus'') :
    Scarcer gpus gpus'' cpus cpus'' := by
  constructor
  · intro g gpu hgpu
    obtain ⟨gpu₁, hgpu1, hle1⟩ := h.gpu g gpu hgpu
    obtain ⟨gpu₂, hgpu2, hle2⟩ := h'.gpu g gpu₁ hgpu1
    exact ⟨gpu₂, hgpu2, le_trans hle2 hle1⟩
  · intro m cpu hcpu
    obtain ⟨cpu₁, hcpu1, hle1⟩ := h.cpu m cpu hcpu
    obtain ⟨cpu₂, hcpu2, hle2⟩ := h'.cpu m cpu₁ hcpu1
    exact ⟨cpu₂, hcpu2, le_trans hle2 hle1⟩

theorem scarcer_updateGpu (cpus : MachineId → Option Cpu) {id : GpuUuid} {gpu : Gpu} (hgpu : gpus id = some gpu) {freeTokens : GpuTokens}
    (hle : freeTokens ≤ gpu.freeTokens) : Scarcer gpus (update gpus id (some { gpu with freeTokens })) cpus cpus := by
  refine ⟨fun g gpu' hget => ?_, fun m cpu hcpu => ⟨cpu, hcpu, le_refl _⟩⟩
  by_cases hg : g = id
  · rw [hg, hgpu] at hget
    cases hget
    exact ⟨_, by rw [hg, update_self], hle⟩
  · exact ⟨gpu', by rw [update_of_ne hg, hget], le_refl _⟩

theorem scarcer_updateCpu (gpus : GpuUuid → Option Gpu) {m : MachineId} {cpu : Cpu} (hcpu : cpus m = some cpu) {freeCores : CpuCores}
    (hle : freeCores ≤ cpu.freeCores) : Scarcer gpus gpus cpus (update cpus m (some { cpu with freeCores })) := by
  refine ⟨fun g gpu hgpu => ⟨gpu, hgpu, le_refl _⟩, fun m' cpu' hget => ?_⟩
  by_cases hm : m' = m
  · rw [hm, hcpu] at hget
    cases hget
    exact ⟨_, by rw [hm, update_self], hle⟩
  · exact ⟨cpu', by rw [update_of_ne hm, hget], le_refl _⟩

variable {reservations : List HardwareReservation} {res : HardwareReservation} {books books' : Books} {result : Except Error Unit}

/-- Where a reservation of known hardware does not fit, less free hardware does not help. -/
theorem hasRoom_scarcer (h : Scarcer gpus gpus' cpus cpus')
    (hroom : hasRoom gpus cpus machine reservations = .ok (.ok false)) :
    hasRoom gpus' cpus' machine reservations = .ok (.ok false) := by
  induction reservations with
  | nil => cases hroom
  | cons res reservations ih =>
    cases res with
    | gpu id tokens =>
      rw [hasRoom] at hroom ⊢
      cases hgpu : gpus id with
      | none =>
        rw [hgpu] at hroom
        cases hroom
      | some gpu =>
        obtain ⟨gpu', hgpu', hle⟩ := h.gpu id gpu hgpu
        rw [hgpu] at hroom
        rw [hgpu']
        simp only at hroom ⊢
        by_cases hlt : gpu.freeTokens < tokens
        · rw [if_pos (lt_of_le_of_lt hle hlt)]
        · rw [if_neg hlt] at hroom
          split
          · rfl
          · exact ih hroom
    | cpu cores =>
      rw [hasRoom] at hroom ⊢
      cases hcpu : cpus machine with
      | none =>
        rw [hcpu] at hroom
        cases hroom
      | some cpu =>
        obtain ⟨cpu', hcpu', hle⟩ := h.cpu machine cpu hcpu
        rw [hcpu] at hroom
        rw [hcpu']
        simp only at hroom ⊢
        by_cases hlt : cpu.freeCores < cores
        · rw [if_pos (lt_of_le_of_lt hle hlt)]
        · rw [if_neg hlt] at hroom
          split
          · rfl
          · exact ih hroom

theorem known_of_hasRoom (h : hasRoom gpus cpus machine reservations = .ok (.ok true)) :
    ∀ res ∈ reservations, Known gpus cpus machine res := by
  obtain ⟨result, hresult, hknown⟩ := @hasRoom_returns machine gpus cpus reservations fun hnone hreaches => by
    induction reservations with
    | nil => exact hreaches
    | cons res reservations ih =>
      cases res with
      | gpu id tokens =>
        obtain ⟨hsome, hle, hrest⟩ := hreaches
        obtain ⟨gpu, hgpu⟩ := isSome_iff_exists.mp hsome
        rw [freeOf_gpu hgpu, ← BitVec.le_def] at hle
        rw [hasRoom, hgpu] at h
        simp only [if_neg (not_lt.mpr hle)] at h
        exact ih h hrest
      | cpu cores =>
        rw [hasRoom, hnone] at h
        cases h
  rw [h] at hresult
  cases hresult
  exact fun res hres => (hknown rfl res hres).1

structure Takes (books books' : Books) : Prop where
  hardware : SameHardware books.gpus books'.gpus books.cpus books'.cpus
  scarcer : Scarcer books.gpus books'.gpus books.cpus books'.cpus
  scheduled : books'.task.scheduledGpuTokens = books.task.scheduledGpuTokens

theorem take_takes
    (h : take machine res books = .ok (books', result)) (hknown : Known books.gpus books.cpus machine res) :
    result = .ok () ∧ Takes books books' := by
  cases res with
  | gpu id tokens =>
    obtain ⟨gpu, hgpu⟩ := isSome_iff_exists.mp hknown
    simp only [take, hgpu] at h
    obtain ⟨freeTokens, hfree, h1⟩ := bind_ok_iff.mp h
    obtain ⟨used, -, h2⟩ := bind_ok_iff.mp h1
    cases h2
    have hle : freeTokens ≤ gpu.freeTokens := by
      have := checkedSub_ok hfree
      rw [BitVec.le_def]
      omega
    exact ⟨rfl, sameHardware_updateGpu books.cpus hgpu freeTokens, scarcer_updateGpu books.cpus hgpu hle, rfl⟩
  | cpu cores =>
    obtain ⟨cpu, hcpu⟩ := isSome_iff_exists.mp hknown
    obtain ⟨cpu', hget, h1⟩ := bind_ok_iff.mp h
    rw [hcpu] at hget
    cases hget
    obtain ⟨freeCores, hfree, h2⟩ := bind_ok_iff.mp h1
    obtain ⟨used, -, h3⟩ := bind_ok_iff.mp h2
    cases h3
    have hle : freeCores ≤ cpu.freeCores := by
      have := checkedSub_ok hfree
      rw [BitVec.le_def]
      omega
    exact ⟨rfl, sameHardware_updateCpu books.gpus hcpu freeCores, scarcer_updateCpu books.gpus hcpu hle, rfl⟩

theorem takeAll_takes (h : forReservations (take machine) reservations books = .ok (books', result))
    (hknown : ∀ res ∈ reservations, Known books.gpus books.cpus machine res) : result = .ok () ∧ Takes books books' := by
  induction reservations generalizing books with
  | nil =>
    cases h
    exact ⟨rfl, .refl _ _, .refl _ _, rfl⟩
  | cons res reservations ih =>
    obtain ⟨hhead, htail⟩ := forall_mem_cons.mp hknown
    obtain ⟨⟨books₁, result₁⟩, htake, hrest⟩ := bind_ok_iff.mp h
    obtain ⟨rfl, htakes⟩ := take_takes htake hhead
    obtain ⟨hresult, hrest⟩ := ih hrest fun r hr => (htail r hr).same htakes.hardware
    exact ⟨hresult, htakes.hardware.trans hrest.hardware, htakes.scarcer.trans hrest.scarcer,
      hrest.scheduled.trans htakes.scheduled⟩

namespace AllocatorActor

variable {queued : GpuTokens → GpuTokens} {s s' s'' : AllocatorActor}

/-- Every worker was there before, with no more tasks than now. -/
structure Fuller (s s' : AllocatorActor) : Prop where
  max : ∀ g, (s'.gpus g).map (·.maxTokens) = (s.gpus g).map (·.maxTokens)
  workers : ∀ id worker', s'.workers.get? id = some worker' → ∃ worker, s.workers.get? id = some worker ∧
    worker'.hardware = worker.hardware ∧ worker.scheduledTokens ≤ worker'.scheduledTokens

theorem Fuller.refl (s : AllocatorActor) : Fuller s s :=
  ⟨fun _ => rfl, fun _ worker h => ⟨worker, h, rfl, le_refl _⟩⟩

theorem Fuller.trans (h : Fuller s s') (h' : Fuller s' s'') : Fuller s s'' := by
  refine ⟨fun g => (h'.max g).trans (h.max g), fun id worker hworker => ?_⟩
  obtain ⟨worker₁, hworker1, hhardware1, hle1⟩ := h'.workers id worker hworker
  obtain ⟨worker₂, hworker2, hhardware2, hle2⟩ := h.workers id worker₁ hworker1
  exact ⟨worker₂, hworker2, hhardware1.trans hhardware2, hle2.trans hle1⟩

variable {worker : Worker} {msg : ScheduleTask} {request : AllocateHardware} {p : PendingAllocation}

theorem capacity_le (hmax : ∀ g, (s'.gpus g).map (·.maxTokens) = (s.gpus g).map (·.maxTokens)) {worker' : Worker}
    (hhardware : worker'.hardware = worker.hardware) (hle : worker.scheduledTokens ≤ worker'.scheduledTokens) :
    s'.capacity queued worker' ≤ s.capacity queued worker := by
  rw [capacity, capacity, Worker.gpuUuids, hhardware]
  refine sum_le_sum fun uuid _ => ?_
  have huuid := hmax uuid
  cases hgpu : s.gpus uuid with
  | none =>
    rw [hgpu, map_none, map_eq_none_iff] at huuid
    rw [huuid]
    exact le_refl _
  | some gpu =>
    rw [hgpu, map_some, map_eq_some_iff] at huuid
    obtain ⟨gpu', hgpu', htokens⟩ := huuid
    rw [hgpu', elim_some, elim_some, htokens]
    exact Nat.sub_le_sub_left hle _

theorem AllFull.fuller (h : s.AllFull queued msg) (hfuller : Fuller s s')
    (hconnected : ∃ id ∈ msg.candidates, ∃ worker, s'.workers.get? id = some worker) : s'.AllFull queued msg := by
  refine ⟨hconnected, fun id hid worker' hworker' => ?_⟩
  obtain ⟨worker, hworker, hhardware, hle⟩ := hfuller.workers id worker' hworker'
  exact lt_of_le_of_lt (capacity_le hfuller.max hhardware hle) (h.full id hid worker hworker)

/-- A reservation of known hardware has no room. -/
def Blocked (s : AllocatorActor) (request : AllocateHardware) : Prop :=
  ∃ worker task, s.workers.get? request.workerId = some worker ∧ worker.tasks.get? request.taskId = some task ∧
    hasRoom s.gpus s.cpus worker.machine request.hardwareReservations = .ok (.ok false)

/-- Workers and tasks that are there stay, and the rest gets scarce. -/
structure Busier (s s' : AllocatorActor) : Prop where
  fuller : Fuller s s'
  hardware : SameHardware s.gpus s'.gpus s.cpus s'.cpus
  scarcer : Scarcer s.gpus s'.gpus s.cpus s'.cpus
  stays : ∀ id worker, s.workers.get? id = some worker → ∃ worker', s'.workers.get? id = some worker' ∧
    worker'.machine = worker.machine ∧ ∀ taskId, (worker.tasks.get? taskId).isSome → (worker'.tasks.get? taskId).isSome

theorem Busier.refl (s : AllocatorActor) : Busier s s :=
  ⟨.refl s, .refl _ _, .refl _ _, fun _ worker h => ⟨worker, h, rfl, fun _ htask => htask⟩⟩

theorem Busier.trans (h : Busier s s') (h' : Busier s' s'') : Busier s s'' := by
  refine ⟨h.fuller.trans h'.fuller, h.hardware.trans h'.hardware, h.scarcer.trans h'.scarcer, fun id worker hworker => ?_⟩
  obtain ⟨worker₁, hworker1, hmachine1, htasks1⟩ := h.stays id worker hworker
  obtain ⟨worker₂, hworker2, hmachine2, htasks2⟩ := h'.stays id worker₁ hworker1
  exact ⟨worker₂, hworker2, hmachine2.trans hmachine1, fun taskId htask => htasks2 taskId (htasks1 taskId htask)⟩

theorem AllFull.busier (h : s.AllFull queued msg) (hbusier : Busier s s') : s'.AllFull queued msg := by
  refine h.fuller hbusier.fuller ?_
  obtain ⟨id, hid, worker, hworker⟩ := h.connected
  obtain ⟨worker', hworker', -⟩ := hbusier.stays id worker hworker
  exact ⟨id, hid, worker', hworker'⟩

theorem Blocked.busier (h : s.Blocked request) (hbusier : Busier s s') : s'.Blocked request := by
  obtain ⟨worker, task, hworker, htask, hroom⟩ := h
  obtain ⟨worker', hworker', hmachine, htasks⟩ := hbusier.stays _ worker hworker
  obtain ⟨task', htask'⟩ := isSome_iff_exists.mp (htasks request.taskId (by rw [htask, isSome_some]))
  refine ⟨worker', task', hworker', htask', ?_⟩
  rw [hmachine]
  exact hasRoom_scarcer hbusier.scarcer hroom

theorem busier_of_eq (hworkers : s'.workers = s.workers) (hgpus : s'.gpus = s.gpus) (hcpus : s'.cpus = s.cpus) : Busier s s' := by
  have h := Busier.refl s
  refine ⟨⟨?_, ?_⟩, ?_, ?_, ?_⟩
  · rw [hgpus]
    exact h.fuller.max
  · rw [hworkers]
    exact h.fuller.workers
  · rw [hgpus, hcpus]
    exact h.hardware
  · rw [hgpus, hcpus]
    exact h.scarcer
  · rw [hworkers]
    exact h.stays

/-- A task with at least as many scheduled tokens takes the place of another one, or joins them. -/
theorem fuller_setTask {id : WorkerId} (hworker : s.workers.get? id = some worker) {taskId : GlobalId} {task : Task}
    (hle : (worker.tasks.get? taskId).elim 0 (fun old => old.scheduledGpuTokens.toNat) ≤ task.scheduledGpuTokens.toNat)
    (hmax : ∀ g, (gpus g).map (·.maxTokens) = (s.gpus g).map (·.maxTokens)) :
    Fuller s (setTask id worker taskId task { s with gpus, cpus }) := by
  refine ⟨hmax, fun id' worker' hworker' => ?_⟩
  rw [get?_setTask] at hworker'
  split at hworker'
  next hid =>
    cases hworker'
    refine ⟨worker, by rw [hid, hworker], rfl, ?_⟩
    have htotal := OrderedMap.total_insert (fun _ (task : Task) => task.scheduledGpuTokens.toNat) taskId task worker.tasks
    show (worker.tasks.total fun _ task => task.scheduledGpuTokens.toNat) ≤
      (worker.tasks.insert taskId task).total fun _ task => task.scheduledGpuTokens.toNat
    omega
  next => exact ⟨worker', hworker', rfl, le_refl _⟩

theorem busier_setTask {id : WorkerId} {worker : Worker} (hworker : s.workers.get? id = some worker) {taskId : GlobalId} {task : Task}
    (hle : (worker.tasks.get? taskId).elim 0 (fun old => old.scheduledGpuTokens.toNat) ≤ task.scheduledGpuTokens.toNat)
    (hsame : SameHardware s.gpus gpus s.cpus cpus) (hscarcer : Scarcer s.gpus gpus s.cpus cpus) :
    Busier s (setTask id worker taskId task { s with gpus, cpus }) := by
  refine ⟨fuller_setTask hworker hle hsame.gpu, hsame, hscarcer, fun id' worker' hworker' => ?_⟩
  rw [get?_setTask]
  split
  next hid =>
    rw [hid, hworker] at hworker'
    cases hworker'
    refine ⟨_, rfl, rfl, fun taskId' htask' => ?_⟩
    rw [OrderedMap.get?_insert]
    split
    · rfl
    · exact htask'
  next => exact ⟨worker', hworker', rfl, fun _ htask => htask⟩

theorem send_same (sender : Option ReplySender) (reply : Reply) (s : AllocatorActor) :
    (s.send sender reply).workers = s.workers ∧ (s.send sender reply).gpus = s.gpus ∧ (s.send sender reply).cpus = s.cpus ∧
      (s.send sender reply).pendingAllocations = s.pendingAllocations ∧ (s.send sender reply).pendingTasks = s.pendingTasks := by
  cases sender <;> exact ⟨rfl, rfl, rfl, rfl, rfl⟩

theorem mem_send {sender : Option ReplySender} {reply : Reply} {r : ReplySender × Reply} :
    r ∈ (s.send sender reply).replies ↔ r ∈ s.replies ∨ sender = some r.1 ∧ r.2 = reply := by
  cases sender with
  | none => simp [send]
  | some k =>
    rw [send, mem_append, mem_singleton, some_inj, Prod.ext_iff, eq_comm (a := k)]

theorem busier_send (s : AllocatorActor) (sender : Option ReplySender) (reply : Reply) : Busier s (s.send sender reply) :=
  busier_of_eq (send_same ..).1 (send_same ..).2.1 (send_same ..).2.2.1

/-- The turn of a request: it is answered, or it is stuck and goes on waiting. -/
structure Turn {Q R : Type} (waiting : AllocatorActor → List Q) (others : AllocatorActor → List R) (stuck : AllocatorActor → Q → Prop)
    (sender : Q → Option ReplySender) (s s' : AllocatorActor) (q : Q) : Prop where
  busier : Busier s s'
  waits : waiting s' = waiting s ∨ stuck s q ∧ waiting s' = waiting s ++ [q]
  others : others s' = others s
  replies : ∀ r ∈ s'.replies, r ∈ s.replies ∨ sender q = some r.1

section

variable {Q R : Type} {waiting : AllocatorActor → List Q} {others : AllocatorActor → List R} {stuck : AllocatorActor → Q → Prop} {sender : Q → Option ReplySender}

theorem pass_waits {consider : AllocatorActor → Q → Except Panic AllocatorActor}
    (hturn : ∀ {s q s'}, consider s q = .ok s' → Turn waiting others stuck sender s s' q)
    (hmono : ∀ {s s' q}, stuck s q → Busier s s' → stuck s' q) {queue : List Q} (h : queue.foldlM consider s = .ok s')
    (hstuck : ∀ q ∈ waiting s, stuck s q) :
    Busier s s' ∧ (∀ q ∈ waiting s', stuck s' q ∧ (q ∈ waiting s ∨ q ∈ queue)) ∧ others s' = others s ∧
      ∀ r ∈ s'.replies, r ∈ s.replies ∨ ∃ q ∈ queue, sender q = some r.1 := by
  induction queue generalizing s with
  | nil =>
    cases h
    exact ⟨.refl _, fun q hq => ⟨hstuck q hq, .inl hq⟩, rfl, fun r hr => .inl hr⟩
  | cons p queue ih =>
    rw [foldlM_cons] at h
    obtain ⟨s₁, hconsider, hrest⟩ := bind_ok_iff.mp h
    have hp := hturn hconsider
    have hwaits : ∀ q ∈ waiting s₁, stuck s₁ q ∧ (q ∈ waiting s ∨ q = p) := by
      intro q hq
      obtain hsame | ⟨hblocked, hpush⟩ := hp.waits
      · rw [hsame] at hq
        exact ⟨hmono (hstuck q hq) hp.busier, .inl hq⟩
      · rw [hpush] at hq
        obtain hq | hq := mem_append.mp hq
        · exact ⟨hmono (hstuck q hq) hp.busier, .inl hq⟩
        · rw [mem_singleton.mp hq]
          exact ⟨hmono hblocked hp.busier, .inr rfl⟩
    obtain ⟨hbusier', hwaits', hothers', hreplies'⟩ := ih hrest fun q hq => (hwaits q hq).1
    refine ⟨hp.busier.trans hbusier', fun q hq => ⟨(hwaits' q hq).1, ?_⟩, hothers'.trans hp.others, fun r hr => ?_⟩
    · obtain hmem | hmem := (hwaits' q hq).2
      · exact (hwaits q hmem).2.imp_right fun (heq : q = p) => heq ▸ mem_cons_self
      · exact .inr (mem_cons_of_mem _ hmem)
    · obtain hmem | ⟨q, hq, hsender⟩ := hreplies' r hr
      · exact (hp.replies r hmem).imp_right fun hsender => ⟨p, mem_cons_self, hsender⟩
      · exact .inr ⟨q, mem_cons_of_mem _ hq, hsender⟩

/-- A request that is answered has had its turn, where nothing but the free hardware and the tasks changed before. -/
theorem turn_send {answered : AllocatorActor} {q : Q} (hbusier : Busier s answered) (hreplies : answered.replies = s.replies)
    (reply : Reply) (hwaits : waiting (answered.send (sender q) reply) = waiting s) (hothers : others (answered.send (sender q) reply) = others s) :
    Turn waiting others stuck sender s (answered.send (sender q) reply) q := by
  refine ⟨hbusier.trans (busier_send ..), .inl hwaits, hothers, fun r hr => ?_⟩
  rw [mem_send, hreplies] at hr
  exact hr.imp_right And.left

end

/-- The turn of a pending allocation: it waits, is refused, or gets all its hardware. -/
theorem considerAllocation_cases (h : s.considerAllocation p = .ok s') :
    (s.Blocked p.request ∧ s' = { s with pendingAllocations := s.pendingAllocations ++ [p] }) ∨
      (∃ e, s' = s.send p.replySender (.done (.error e))) ∨
      ∃ granted, Busier s granted ∧ granted.pendingAllocations = s.pendingAllocations ∧ granted.pendingTasks = s.pendingTasks ∧
        granted.replies = s.replies ∧ s' = granted.send p.replySender (.done (.ok ())) := by
  obtain ⟨⟨s₁, result⟩, hallocate, hanswer⟩ := bind_ok_iff.mp h
  obtain ⟨worker, hworker, h1⟩ := bind_ok_iff.mp hallocate
  obtain ⟨task, htask, h2⟩ := bind_ok_iff.mp h1
  obtain ⟨room, hroom, h3⟩ := bind_ok_iff.mp h2
  rw [expect_eq_ok] at hworker htask
  rcases room with e | _ | _
  · cases h3
    cases hanswer
    exact .inr (.inl ⟨e, rfl⟩)
  · cases h3
    cases hanswer
    exact .inl ⟨⟨worker, task, hworker, htask, hroom⟩, rfl⟩
  · obtain ⟨⟨books, taken⟩, htake, h4⟩ := bind_ok_iff.mp h3
    obtain ⟨rfl, htakes⟩ := takeAll_takes htake (known_of_hasRoom hroom)
    cases h4
    cases hanswer
    refine .inr (.inr ⟨s.withBooks p.request.workerId worker p.request.taskId books, ?_, rfl, rfl, rfl, rfl⟩)
    refine busier_setTask hworker ?_ htakes.hardware htakes.scarcer
    rw [htask, elim_some, htakes.scheduled]

theorem considerAllocation_turn (h : s.considerAllocation p = .ok s') :
    Turn pendingAllocations pendingTasks (fun s p => s.Blocked p.request) (·.replySender) s s' p := by
  obtain ⟨hblock, rfl⟩ | ⟨e, rfl⟩ | ⟨granted, hbusier, hallocations, htasks, hreplies, rfl⟩ := considerAllocation_cases h
  · exact ⟨busier_of_eq rfl rfl rfl, .inr ⟨hblock, rfl⟩, rfl, fun r hr => .inl hr⟩
  · exact turn_send (.refl s) rfl _ (send_same ..).2.2.2.1 (send_same ..).2.2.2.2
  · exact turn_send hbusier hreplies _ ((send_same ..).2.2.2.1.trans hallocations) ((send_same ..).2.2.2.2.trans htasks)

/-- What a state owes to whom: replies that were sent, and those that are waited for. -/
def Uses (s : AllocatorActor) (k : ReplySender) : Prop :=
  (∃ r ∈ s.replies, r.1 = k) ∨ (∃ p ∈ s.pendingAllocations, p.replySender = some k) ∨ ∃ t ∈ s.pendingTasks, t.reply = some k

theorem maybeAllocateMany_waits (h : s.maybeAllocateMany = .ok s') :
    Busier s s' ∧ (∀ p ∈ s'.pendingAllocations, s'.Blocked p.request) ∧ s'.pendingTasks = s.pendingTasks ∧
      ∀ k, s'.Uses k → s.Uses k := by
  obtain ⟨hbusier, hwaits, htasks, hreplies⟩ := pass_waits considerAllocation_turn (fun hblocked => hblocked.busier) h fun p hp => absurd hp not_mem_nil
  refine ⟨(busier_of_eq rfl rfl rfl : Busier s { s with pendingAllocations := [] }).trans hbusier, fun p hp => (hwaits p hp).1, htasks,
    fun k hk => ?_⟩
  obtain ⟨r, hr, rfl⟩ | ⟨p, hp, hsender⟩ | ⟨t, ht, hsender⟩ := hk
  · obtain hmem | hpending := hreplies r hr
    · exact .inl ⟨r, hmem, rfl⟩
    · exact .inr (.inl hpending)
  · exact .inr (.inl ⟨p, (hwaits p hp).2.resolve_left not_mem_nil, hsender⟩)
  · exact .inr (.inr ⟨t, htasks ▸ ht, hsender⟩)

theorem maybeAllocate_blocked (h : s.Blocked request) : s.maybeAllocate request = .ok (s, .ok false) := by
  obtain ⟨worker, task, hworker, htask, hroom⟩ := h
  refine bind_ok_iff.mpr ⟨worker, by rw [hworker]; rfl, bind_ok_iff.mpr ⟨task, by rw [htask]; rfl, ?_⟩⟩
  exact bind_ok_iff.mpr ⟨.ok false, hroom, rfl⟩

theorem considerAllocation_blocked (h : s.Blocked p.request) :
    s.considerAllocation p = .ok { s with pendingAllocations := s.pendingAllocations ++ [p] } :=
  bind_ok_iff.mpr ⟨_, maybeAllocate_blocked h, rfl⟩

theorem allocations_blocked {queue : List PendingAllocation} (h : ∀ p ∈ queue, s.Blocked p.request) :
    queue.foldlM considerAllocation s = .ok { s with pendingAllocations := s.pendingAllocations ++ queue } := by
  induction queue generalizing s with
  | nil =>
    rw [append_nil]
    rfl
  | cons p queue ih =>
    obtain ⟨hhead, htail⟩ := forall_mem_cons.mp h
    have hrest := @ih { s with pendingAllocations := s.pendingAllocations ++ [p] } fun q hq =>
      (htail q hq).busier (busier_of_eq rfl rfl rfl)
    rw [append_assoc] at hrest
    rw [foldlM_cons]
    exact bind_ok_iff.mpr ⟨_, considerAllocation_blocked hhead, hrest⟩

/-- The turn of a pending task: it is answered, or waits for room. -/
theorem considerTask_cases {t : PendingTask} (h : s.considerTask queued t = .ok s') :
    (s.AllFull queued t.msg ∧ s' = { s with pendingTasks := s.pendingTasks ++ [t] }) ∨
      ∃ scheduled reply, Busier s scheduled ∧ scheduled.pendingAllocations = s.pendingAllocations ∧
        scheduled.pendingTasks = s.pendingTasks ∧ scheduled.replies = s.replies ∧ s' = scheduled.send t.reply reply := by
  obtain ⟨⟨s₁, answer⟩, hschedule, hanswer⟩ := bind_ok_iff.mp h
  obtain ⟨rfl, e, rfl, -⟩ | ⟨rfl, rfl, hfull⟩ | ⟨id, worker, rfl, hscheduled⟩ := maybeScheduleTask_cases hschedule
  · cases hanswer
    exact .inr ⟨s₁, _, .refl s₁, rfl, rfl, rfl, rfl⟩
  · cases hanswer
    exact .inl ⟨hfull, rfl⟩
  · cases hanswer
    have hafter := hscheduled.after
    refine .inr ⟨s₁, _, ?_, ?_, ?_, ?_, rfl⟩
    · rw [hafter]
      refine @busier_setTask s.gpus s.cpus s _ _ hscheduled.connected _ _ ?_ (.refl _ _) (.refl _ _)
      rw [hscheduled.fresh]
      exact Nat.zero_le _
    · rw [hafter]
      rfl
    · rw [hafter]
      rfl
    · rw [hafter]
      rfl

theorem considerTask_turn {t : PendingTask} (h : s.considerTask queued t = .ok s') :
    Turn pendingTasks pendingAllocations (fun s t => s.AllFull queued t.msg) (·.reply) s s' t := by
  obtain ⟨hfull, rfl⟩ | ⟨scheduled, reply, hbusier, hallocations, htasks, hreplies, rfl⟩ := considerTask_cases h
  · exact ⟨busier_of_eq rfl rfl rfl, .inr ⟨hfull, rfl⟩, rfl, fun r hr => .inl hr⟩
  · exact turn_send hbusier hreplies _ ((send_same ..).2.2.2.2.trans htasks) ((send_same ..).2.2.2.1.trans hallocations)

theorem maybeScheduleTasks_waits (h : s.maybeScheduleTasks queued = .ok s') :
    Busier s s' ∧ (∀ t ∈ s'.pendingTasks, s'.AllFull queued t.msg) ∧ s'.pendingAllocations = s.pendingAllocations ∧
      ∀ k, s'.Uses k → s.Uses k := by
  obtain ⟨hbusier, hwaits, hallocations, hreplies⟩ := pass_waits considerTask_turn (fun hfull => hfull.busier) h fun t ht => absurd ht not_mem_nil
  refine ⟨(busier_of_eq rfl rfl rfl : Busier s { s with pendingTasks := [] }).trans hbusier, fun t ht => (hwaits t ht).1, hallocations,
    fun k hk => ?_⟩
  obtain ⟨r, hr, rfl⟩ | ⟨p, hp, hsender⟩ | ⟨t, ht, hsender⟩ := hk
  · obtain hmem | hpending := hreplies r hr
    · exact .inl ⟨r, hmem, rfl⟩
    · exact .inr (.inr hpending)
  · exact .inr (.inl ⟨p, hallocations ▸ hp, hsender⟩)
  · exact .inr (.inr ⟨t, (hwaits t ht).2.resolve_left not_mem_nil, hsender⟩)

end AllocatorActor

end VerifiableCompute.Allocator
