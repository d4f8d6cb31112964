import VerifiableCompute.Allocator.Conservation

/-! Workers that come and go. A worker brings hardware that is all free; when it goes, what its
tasks held is free again. -/

namespace VerifiableCompute.Allocator

open Lib WordOrder AllocatorActor OrderedMap List Function

variable {s : AllocatorActor} {id : WorkerId} {worker : Worker}

theorem tokensUsed_unknown (h : Kept s) {g : GpuUuid} (hg : s.gpus g = none) : s.tokensUsed g = 0 := by
  refine tally_eq_zero fun id worker taskId task hworker htask => ?_
  have hkeys := h.keys id worker taskId task hworker htask g
  rw [hg] at hkeys
  rw [Task.held]
  cases hheld : task.usedGpuTokens.get? g with
  | none => rfl
  | some tokens =>
    rw [hheld] at hkeys
    exact absurd (hkeys rfl) (by simp)

theorem Kept.addGpu (h : Kept s) (gpu : GpuSpec) :
    Kept (s.addGpu gpu) ∧ ∀ g, (s.gpus g).isSome ∨ g = gpu.uuid → ((s.addGpu gpu).gpus g).isSome := by
  unfold AllocatorActor.addGpu
  cases hget : s.gpus gpu.uuid with
  | some known =>
    refine ⟨h, fun g hg => hg.elim id fun heq => ?_⟩
    rw [heq, hget, Option.isSome_some]
  | none =>
    have hmore : ∀ g, (s.gpus g).isSome ∨ g = gpu.uuid →
        (update s.gpus gpu.uuid (some ⟨gpu.tokens, gpu.tokens⟩) g).isSome := by
      intro g hg
      by_cases heq : g = gpu.uuid
      · rw [heq, update_self, Option.isSome_some]
      · rw [update_of_ne heq]
        exact hg.resolve_right heq
    refine ⟨⟨⟨fun g gpu' hg => ?_, h.covers.cpu, h.covers.cpu_known⟩, fun id worker taskId task hworker htask g hg => ?_,
      fun id worker hworker uuid huuid => ?_, h.pending⟩, hmore⟩
    · by_cases heq : g = gpu.uuid
      · subst heq
        simp only [update_self] at hg
        cases hg
        have hzero := tokensUsed_unknown h hget
        exact (congrArg (gpu.tokens.toNat + ·) hzero).trans (Nat.add_zero _)
      · simp only [update_of_ne heq] at hg
        exact h.covers.gpu g gpu' hg
    · exact hmore g (.inl (h.keys id worker taskId task hworker htask g hg))
    · exact hmore uuid (.inl (h.hardware id worker hworker uuid huuid))

theorem Kept.addCpu (h : Kept s) (machine : MachineId) (cpu : CpuSpec) : Kept (s.addCpu machine cpu) := by
  unfold AllocatorActor.addCpu
  cases hget : s.cpus machine with
  | some known => exact h
  | none =>
    refine ⟨⟨h.covers.gpu, fun m cpu' hm => ?_, fun m hm => ?_⟩, h.keys, h.hardware, h.pending⟩
    · by_cases heq : m = machine
      · subst heq
        simp only [update_self] at hm
        cases hm
        have hzero := h.covers.cpu_known m hget
        exact (congrArg (cpu.cores.toNat + ·) hzero).trans (Nat.add_zero _)
      · simp only [update_of_ne heq] at hm
        exact h.covers.cpu m cpu' hm
    · by_cases heq : m = machine
      · simp only [heq, update_self] at hm
        cases hm
      · simp only [update_of_ne heq] at hm
        exact h.covers.cpu_known m hm

theorem Kept.addHardware (h : Kept s) (machine : MachineId) (hardware : List HardwareResource) :
    Kept (s.addHardware machine hardware) ∧ ∀ g, (s.gpus g).isSome ∨ g ∈ hardware.filterMap HardwareResource.uuid? →
      ((s.addHardware machine hardware).gpus g).isSome := by
  unfold AllocatorActor.addHardware
  induction hardware generalizing s with
  | nil => exact ⟨h, fun g hg => hg.resolve_right not_mem_nil⟩
  | cons resource hardware ih =>
    rw [foldl_cons]
    cases resource with
    | gpu gpu =>
      obtain ⟨hkept, hmore⟩ := h.addGpu gpu
      obtain ⟨hkept', hmore'⟩ := ih hkept
      refine ⟨hkept', fun g hg => hmore' g ?_⟩
      obtain hg | hg := hg
      · exact .inl (hmore g (.inl hg))
      · obtain hg | hg := mem_cons.mp hg
        · exact .inl (hmore g (.inr hg))
        · exact .inr hg
    | cpu cpu =>
      obtain ⟨hkept', hmore'⟩ := ih (h.addCpu machine cpu)
      refine ⟨hkept', fun g hg => hmore' g ?_⟩
      have hsame : (s.addCpu machine cpu).gpus = s.gpus := by
        unfold AllocatorActor.addCpu
        split <;> rfl
      show ((s.addCpu machine cpu).gpus g).isSome ∨ _
      rw [hsame]
      exact hg

theorem addHardware_workers (machine : MachineId) (hardware : List HardwareResource) (workers : OrderedMap WorkerId Worker) :
    addHardware machine hardware { s with workers } = { s.addHardware machine hardware with workers } := by
  unfold addHardware
  induction hardware generalizing s with
  | nil => rfl
  | cons resource hardware ih =>
    rw [foldl_cons, foldl_cons, ← ih]
    congr 1
    cases resource with
    | gpu gpu =>
      show addGpu gpu { s with workers } = { s.addGpu gpu with workers }
      unfold addGpu
      cases s.gpus gpu.uuid <;> rfl
    | cpu cpu =>
      show addCpu machine cpu { s with workers } = { s.addCpu machine cpu with workers }
      unfold addCpu
      cases s.cpus machine <;> rfl

theorem addHardware_same_workers (machine : MachineId) (hardware : List HardwareResource) :
    (s.addHardware machine hardware).workers = s.workers := by
  have h := congrArg workers (@addHardware_workers s machine hardware s.workers)
  exact h

theorem Kept.insertWorker (h : Kept s) (hnew : s.workers.get? id = none) (htasks : worker.tasks = .empty)
    (hknown : ∀ uuid ∈ worker.gpuUuids, (s.gpus uuid).isSome) : Kept { s with workers := s.workers.insert id worker } := by
  have hchange (f : MachineId → Task → ℕ) : ({ s with workers := s.workers.insert id worker } : AllocatorActor).tally f = s.tally f := by
    have hworkers := total_insert (fun _ (w : Worker) => w.tasks.total fun _ task => f w.machine task) id worker s.workers
    have hempty : (worker.tasks.total fun _ task => f worker.machine task) = 0 := by
      rw [htasks]
      rfl
    rw [hnew, Option.elim_none, Nat.add_zero, hempty, Nat.add_zero] at hworkers
    exact hworkers
  have hget (id' : WorkerId) : (s.workers.insert id worker).get? id' = if id' = id then some worker else s.workers.get? id' := by
    rw [get?_insert]
    split <;> rfl
  refine ⟨?_, fun id' worker' taskId' task' hworker' htask' => ?_, fun id' worker' hworker' => ?_, fun p hp => ?_⟩
  · have htokens : ({ s with workers := s.workers.insert id worker } : AllocatorActor).tokensUsed = s.tokensUsed := by
      funext g
      exact hchange fun _ task => task.held g
    have hcores : ({ s with workers := s.workers.insert id worker } : AllocatorActor).coresUsed = s.coresUsed := by
      funext m
      exact hchange fun machine task => if m = machine then task.usedCores.toNat else 0
    rw [htokens, hcores]
    exact h.covers
  · simp only [hget] at hworker'
    split at hworker'
    · cases hworker'
      rw [htasks] at htask'
      cases htask'
    · exact h.keys id' worker' taskId' task' hworker' htask'
  · simp only [hget] at hworker'
    split at hworker'
    · cases hworker'
      exact hknown
    · exact h.hardware id' worker' hworker'
  · obtain ⟨w, t, hw, ht⟩ := h.pending p hp
    refine ⟨w, t, ?_, ht⟩
    have hne : p.request.workerId ≠ id := fun heq => by
      rw [heq, hnew] at hw
      cases hw
    simp only [hget, if_neg hne, hw]

theorem Kept.insertWorker_addHardware {hardware : List HardwareResource} (h : Kept s) (machine : MachineId)
    (hnew : s.workers.get? id = none) (htasks : worker.tasks = .empty)
    (hhardware : ∀ uuid ∈ worker.gpuUuids, uuid ∈ hardware.filterMap HardwareResource.uuid?) :
    Kept (AllocatorActor.addHardware machine hardware { s with workers := s.workers.insert id worker }) := by
  rw [addHardware_workers]
  obtain ⟨hkept, hmore⟩ := h.addHardware machine hardware
  have hworkers := @addHardware_same_workers s machine hardware
  rw [← hworkers] at hnew ⊢
  exact hkept.insertWorker hnew htasks fun uuid huuid => hmore uuid (.inr (hhardware uuid huuid))

/-- What a registration needs: at most one CPU, or no GPU that is new. -/
def RegistrationClear (s : AllocatorActor) (msg : RegisterWorker) : Prop :=
  s.workers.get? msg.workerId = none → msg.hardware.countP HardwareResource.isCpu ≤ 1 ∨
    ∀ uuid ∈ msg.hardware.filterMap HardwareResource.uuid?, (s.gpus uuid).isSome

theorem Kept.registerWorker {msg : RegisterWorker} (h : Kept s) (hclear : RegistrationClear s msg) : Kept (s.registerWorker msg).1 := by
  unfold AllocatorActor.registerWorker
  cases hget : s.workers.get? msg.workerId with
  | some _ => exact h
  | none =>
    simp only
    split
    next htwo =>
      have hknown := (hclear hget).resolve_left (by omega)
      exact h.insertWorker hget rfl hknown
    next =>
      exact h.insertWorker_addHardware _ hget rfl fun uuid huuid => huuid

def heldBy (tasks : List Task) (g : GpuUuid) : ℕ := (tasks.map fun task => task.held g).sum

def coresBy (machine : MachineId) (tasks : List Task) (m : MachineId) : ℕ :=
  (tasks.map fun task => if m = machine then task.usedCores.toNat else 0).sum

variable {tokens : GpuUuid → ℕ} {cores : MachineId → ℕ}

theorem returnTokens_spec {entries : List (GpuUuid × GpuTokens)} (hkeys : ∀ e ∈ entries, (s.gpus e.1).isSome)
    (h : Covers s.gpus s.cpus (fun g => (entries.map fun e => if e.1 = g then e.2.toNat else 0).sum + tokens g) cores) :
    ∃ gpus, entries.foldlM returnTokens s = .ok { s with gpus } ∧ Covers gpus s.cpus tokens cores ∧
      SameHardware s.gpus gpus s.cpus s.cpus := by
  induction entries generalizing s with
  | nil =>
    simp only [map_nil, sum_nil, Nat.zero_add] at h
    exact ⟨s.gpus, rfl, h, .refl _ _⟩
  | cons e entries ih =>
    obtain ⟨hhead, htail⟩ := forall_mem_cons.mp hkeys
    obtain ⟨gpu, hgpu⟩ := Option.isSome_iff_exists.mp hhead
    have hout : ∀ g, ((e :: entries).map fun e => if e.1 = g then e.2.toNat else 0).sum + tokens g =
        (entries.map fun e => if e.1 = g then e.2.toNat else 0).sum + tokens g + if g = e.1 then e.2.toNat else 0 := by
      intro g
      rw [map_cons, sum_cons]
      by_cases hg : g = e.1
      · rw [if_pos hg, if_pos hg.symm]
        omega
      · rw [if_neg hg, if_neg (Ne.symm hg)]
        omega
    obtain ⟨gpus₁, hgive, hcovers, hsame⟩ := h.giveTokens hgpu hout
    have hstep : s.returnTokens e = .ok { s with gpus := gpus₁ } := by
      refine bind_ok_iff.mpr ⟨gpu, ?_, bind_ok_iff.mpr ⟨gpus₁, hgive, rfl⟩⟩
      rw [hgpu]
      rfl
    obtain ⟨gpus₂, hfold, hcovers2, hsame2⟩ := @ih { s with gpus := gpus₁ } (fun e he => by
      show (gpus₁ e.1).isSome
      rw [hsame.gpu_known]
      exact htail e he) hcovers
    refine ⟨gpus₂, ?_, hcovers2, hsame.trans hsame2⟩
    rw [foldlM_cons, hstep]
    exact hfold

theorem sum_entries_eq_held (task : Task) (g : GpuUuid) :
    (task.usedGpuTokens.entries.map fun e => if e.1 = g then e.2.toNat else 0).sum = task.held g := by
  have h := total_single g (fun tokens : GpuTokens => tokens.toNat) task.usedGpuTokens
  rw [OrderedMap.total] at h
  rw [Task.held]
  refine Eq.trans ?_ (h.trans ?_)
  · refine congrArg sum (map_congr_left fun e _ => ?_)
    split <;> rfl
  · cases task.usedGpuTokens.get? g <;> rfl

theorem returnTask_spec {machine : MachineId} {task : Task} (hkeys : KeysKnown s.gpus task)
    (h : Covers s.gpus s.cpus (fun g => task.held g + tokens g) fun m => (if m = machine then task.usedCores.toNat else 0) + cores m) :
    ∃ gpus cpus, s.returnTask machine task = .ok { s with gpus, cpus } ∧ Covers gpus cpus tokens cores ∧
      SameHardware s.gpus gpus s.cpus cpus := by
  have hentries : ∀ e ∈ task.usedGpuTokens.entries, (s.gpus e.1).isSome := by
    intro e he
    apply hkeys
    rw [mem_entries_iff.mp he, Option.isSome_some]
  obtain ⟨gpus, hfold, hcovers, hsame⟩ := returnTokens_spec hentries (by simpa only [sum_entries_eq_held] using h)
  unfold returnTask
  rw [hfold]
  by_cases hpos : 0 < task.usedCores
  · obtain ⟨cpu, hcpu⟩ : ∃ cpu, s.cpus machine = some cpu := by
      cases hget : s.cpus machine with
      | some cpu => exact ⟨cpu, rfl⟩
      | none =>
        have hzero := h.cpu_known machine hget
        rw [if_pos rfl] at hzero
        rw [BitVec.lt_def] at hpos
        omega
    have hout : ∀ m, (if m = machine then task.usedCores.toNat else 0) + cores m =
        cores m + if m = machine then task.usedCores.toNat else 0 := fun m => Nat.add_comm _ _
    obtain ⟨cpus, hgive, hcovers', hsame'⟩ := hcovers.giveCores hcpu hout
    refine ⟨gpus, cpus, ?_, hcovers', hsame.trans hsame'⟩
    show (if 0 < task.usedCores then _ else _ : Except Panic _) = _
    rw [if_pos hpos]
    refine bind_ok_iff.mpr ⟨cpu, ?_, bind_ok_iff.mpr ⟨cpus, hgive, rfl⟩⟩
    show expect _ (s.cpus machine) = _
    rw [hcpu]
    rfl
  · refine ⟨gpus, s.cpus, ?_, ?_, hsame⟩
    · show (if 0 < task.usedCores then _ else _ : Except Panic _) = _
      rw [if_neg hpos]
      rfl
    · have hzero : task.usedCores.toNat = 0 := by
        rw [BitVec.lt_def] at hpos
        exact Nat.eq_zero_of_not_pos hpos
      simpa only [hzero, ite_self, Nat.zero_add] using hcovers

theorem returnTasks_spec {machine : MachineId} {tasks : List Task} (hkeys : ∀ task ∈ tasks, KeysKnown s.gpus task)
    (h : Covers s.gpus s.cpus (fun g => heldBy tasks g + tokens g) fun m => coresBy machine tasks m + cores m) :
    ∃ gpus cpus, tasks.foldlM (returnTask machine) s = .ok { s with gpus, cpus } ∧ Covers gpus cpus tokens cores ∧
      SameHardware s.gpus gpus s.cpus cpus := by
  induction tasks generalizing s with
  | nil =>
    simp only [heldBy, coresBy, map_nil, sum_nil, Nat.zero_add] at h
    exact ⟨s.gpus, s.cpus, rfl, h, .refl _ _⟩
  | cons task tasks ih =>
    obtain ⟨hhead, htail⟩ := forall_mem_cons.mp hkeys
    have hout : Covers s.gpus s.cpus (fun g => task.held g + (heldBy tasks g + tokens g))
        fun m => (if m = machine then task.usedCores.toNat else 0) + (coresBy machine tasks m + cores m) := by
      simpa only [heldBy, coresBy, map_cons, sum_cons, Nat.add_assoc] using h
    obtain ⟨gpus₁, cpus₁, hreturn, hcovers, hsame⟩ := returnTask_spec hhead hout
    obtain ⟨gpus₂, cpus₂, hfold, hcovers2, hsame2⟩ := @ih { s with gpus := gpus₁, cpus := cpus₁ }
      (fun t ht => (htail t ht).same hsame) hcovers
    refine ⟨gpus₂, cpus₂, ?_, hcovers2, hsame.trans hsame2⟩
    rw [foldlM_cons, hreturn]
    exact hfold

def Worker.allTasks (worker : Worker) : List Task := worker.tasks.entries.map Prod.snd

theorem removeWorkers_spec {gone : List (WorkerId × Worker)} (hkeys : ∀ e ∈ gone, ∀ task ∈ e.2.allTasks, KeysKnown s.gpus task)
    (h : Covers s.gpus s.cpus (fun g => (gone.map fun e => heldBy e.2.allTasks g).sum + tokens g)
      fun m => (gone.map fun e => coresBy e.2.machine e.2.allTasks m).sum + cores m) :
    ∃ gpus cpus, gone.foldlM removeWorker s =
        .ok { s with gpus, cpus, pendingAllocations := s.pendingAllocations.filter fun p => p.request.workerId ∉ gone.map Prod.fst } ∧
      Covers gpus cpus tokens cores ∧ SameHardware s.gpus gpus s.cpus cpus := by
  induction gone generalizing s with
  | nil =>
    simp only [map_nil, sum_nil, Nat.zero_add] at h
    refine ⟨s.gpus, s.cpus, ?_, h, .refl _ _⟩
    simp only [map_nil, not_mem_nil, not_false_eq_true, decide_true, filter_true]
    rfl
  | cons e gone ih =>
    obtain ⟨hhead, htail⟩ := forall_mem_cons.mp hkeys
    have hout : Covers s.gpus s.cpus (fun g => heldBy e.2.allTasks g + ((gone.map fun e => heldBy e.2.allTasks g).sum + tokens g))
        fun m => coresBy e.2.machine e.2.allTasks m + ((gone.map fun e => coresBy e.2.machine e.2.allTasks m).sum + cores m) := by
      simpa only [map_cons, sum_cons, Nat.add_assoc] using h
    obtain ⟨gpus₁, cpus₁, hreturn, hcovers, hsame⟩ := @returnTasks_spec
      { s with pendingAllocations := s.pendingAllocations.filter fun p => p.request.workerId ≠ e.1 } _ _ e.2.machine e.2.allTasks hhead hout
    obtain ⟨gpus₂, cpus₂, hfold, hcovers2, hsame2⟩ := @ih
      { s with gpus := gpus₁, cpus := cpus₁, pendingAllocations := s.pendingAllocations.filter fun p => p.request.workerId ≠ e.1 }
      (fun e he t ht => (htail e he t ht).same hsame) hcovers
    refine ⟨gpus₂, cpus₂, ?_, hcovers2, hsame.trans hsame2⟩
    have hstep : s.removeWorker e = .ok { s with
        gpus := gpus₁, cpus := cpus₁, pendingAllocations := s.pendingAllocations.filter fun p => p.request.workerId ≠ e.1 } := hreturn
    have hfilter : (s.pendingAllocations.filter fun p => decide (p.request.workerId ≠ e.1)).filter
        (fun p => decide (p.request.workerId ∉ gone.map Prod.fst)) =
          s.pendingAllocations.filter fun p => decide (p.request.workerId ∉ (e :: gone).map Prod.fst) := by
      rw [filter_filter]
      refine filter_congr fun p _ => ?_
      rw [map_cons, ← Bool.decide_and]
      refine decide_eq_decide.mpr ?_
      rw [mem_cons, not_or, and_comm]
    rw [foldlM_cons, hstep]
    refine Eq.trans hfold ?_
    rw [hfilter]

/-- What the workers that stay hold, and what those hold that go. -/
theorem tally_retain (f : MachineId → Task → ℕ) (msg : RpcDisconnect) : s.tally f =
    ((s.workers.entries.filter fun e => e.2.remoteAddress = some msg.remoteAddress).map
      fun e => (e.2.allTasks.map (f e.2.machine)).sum).sum +
    ({ s with workers := s.workers.retain fun _ w => w.remoteAddress ≠ some msg.remoteAddress } : AllocatorActor).tally f := by
  have hsplit := total_retain (fun _ (w : Worker) => w.tasks.total fun _ task => f w.machine task)
    (fun _ w => w.remoteAddress ≠ some msg.remoteAddress) s.workers
  rw [total_retain_eq _ (fun _ (w : Worker) => !decide (w.remoteAddress ≠ some msg.remoteAddress))] at hsplit
  have hgone : ((s.workers.entries.filter fun e => !decide (e.2.remoteAddress ≠ some msg.remoteAddress)).map
      fun e => e.2.tasks.total fun _ task => f e.2.machine task).sum =
        ((s.workers.entries.filter fun e => e.2.remoteAddress = some msg.remoteAddress).map
          fun e => (e.2.allTasks.map (f e.2.machine)).sum).sum := by
    have hfilter : s.workers.entries.filter (fun e => !decide (e.2.remoteAddress ≠ some msg.remoteAddress)) =
        s.workers.entries.filter fun e => e.2.remoteAddress = some msg.remoteAddress := by
      refine filter_congr fun e _ => ?_
      rw [decide_not, Bool.not_not]
    rw [hfilter]
    refine congrArg sum (map_congr_left fun e _ => ?_)
    rw [OrderedMap.total, Worker.allTasks, map_map]
    rfl
  rw [hgone, Nat.add_comm] at hsplit
  exact hsplit.symm

/-- The workers of a connection are gone, and what waits for them. -/
def AllocatorActor.disconnected (msg : RpcDisconnect) (s : AllocatorActor) : AllocatorActor :=
  { s with
    workers := s.workers.retain fun _ w => w.remoteAddress ≠ some msg.remoteAddress
    pendingAllocations := s.pendingAllocations.filter fun p =>
      p.request.workerId ∉ (s.workers.entries.filter fun e => e.2.remoteAddress = some msg.remoteAddress).map Prod.fst }

theorem takeOutWorkers_spec (h : Kept s) (msg : RpcDisconnect) : ∃ gpus cpus,
    s.takeOutWorkers msg = .ok { s.disconnected msg with gpus, cpus } ∧ Kept { s.disconnected msg with gpus, cpus } ∧
      SameHardware s.gpus gpus s.cpus cpus := by
  have hcovers : Covers s.gpus s.cpus (fun g => ((s.workers.entries.filter fun e => e.2.remoteAddress = some msg.remoteAddress).map
        fun e => heldBy e.2.allTasks g).sum +
        ({ s with workers := s.workers.retain fun _ w => w.remoteAddress ≠ some msg.remoteAddress } : AllocatorActor).tokensUsed g)
      fun m => ((s.workers.entries.filter fun e => e.2.remoteAddress = some msg.remoteAddress).map
        fun e => coresBy e.2.machine e.2.allTasks m).sum +
        ({ s with workers := s.workers.retain fun _ w => w.remoteAddress ≠ some msg.remoteAddress } : AllocatorActor).coresUsed m := by
    have htokens := fun g => @tally_retain s (fun _ task => task.held g) msg
    have hcores := fun m => @tally_retain s (fun machine task => if m = machine then task.usedCores.toNat else 0) msg
    have hall := h.covers
    rw [show s.tokensUsed = _ from funext htokens, show s.coresUsed = _ from funext hcores] at hall
    exact hall
  have hget (id : WorkerId) : (s.workers.retain fun _ w => w.remoteAddress ≠ some msg.remoteAddress).get? id =
      (s.workers.get? id).filter fun w => w.remoteAddress ≠ some msg.remoteAddress := get?_retain ..
  have hstays {id : WorkerId} {worker : Worker}
      (hworker : (s.workers.retain fun _ w => w.remoteAddress ≠ some msg.remoteAddress).get? id = some worker) :
      s.workers.get? id = some worker := by
    rw [hget, Option.filter_eq_some_iff] at hworker
    exact hworker.1
  have hkeys : ∀ e ∈ s.workers.entries.filter fun e => e.2.remoteAddress = some msg.remoteAddress,
      ∀ task ∈ e.2.allTasks, KeysKnown s.gpus task := by
    intro e he task htask
    obtain ⟨entry, hentry, rfl⟩ := mem_map.mp htask
    exact h.keys e.1 e.2 entry.1 entry.2 (mem_entries_iff.mp (mem_filter.mp he).1)
      (mem_entries_iff.mp hentry)
  obtain ⟨gpus, cpus, hfold, hafter, hsame⟩ := @removeWorkers_spec
    { s with workers := s.workers.retain fun _ w => w.remoteAddress ≠ some msg.remoteAddress } _ _ _ hkeys hcovers
  refine ⟨gpus, cpus, hfold, ⟨hafter, fun id worker taskId task hworker htask => ?_, fun id worker hworker uuid huuid => ?_, fun p hp => ?_⟩,
    hsame⟩
  · exact (h.keys id worker taskId task (hstays hworker) htask).same hsame
  · rw [hsame.gpu_known]
    exact h.hardware id worker (hstays hworker) uuid huuid
  · obtain ⟨hmem, hother⟩ := mem_filter.mp hp
    obtain ⟨w, t, hw, ht⟩ := h.pending p hmem
    refine ⟨w, t, ?_, ht⟩
    show (s.workers.retain fun _ w => w.remoteAddress ≠ some msg.remoteAddress).get? p.request.workerId = some w
    rw [hget, hw, Option.filter_some, if_pos]
    refine decide_eq_true fun haddress => of_decide_eq_true hother ?_
    exact mem_map.mpr ⟨(p.request.workerId, w), mem_filter.mpr ⟨mem_entries_iff.mpr hw, decide_eq_true haddress⟩, rfl⟩

end VerifiableCompute.Allocator
