import VerifiableCompute.Allocator.Scheduling

/-! The sums that scheduling takes. One that returns is the exact sum, and it returns where
the exact sum fits 64 bits. -/

namespace VerifiableCompute.Allocator

open Lib WordOrder List

variable {l : List (BitVec 64)} {worker : Worker}

theorem checkedSum_ok_iff {x : BitVec 64} : checkedSum l = .ok x ↔ x.toNat = (l.map BitVec.toNat).sum := by
  have hfrom (start : BitVec 64) : l.foldlM (checkedAdd Panic.overflow) start = .ok x ↔
      x.toNat = start.toNat + (l.map BitVec.toNat).sum := by
    induction l generalizing start with
    | nil =>
      rw [foldlM_nil, map_nil, sum_nil, Nat.add_zero]
      exact ⟨fun h => by cases h; rfl, fun h => congrArg Except.ok (BitVec.eq_of_toNat_eq h).symm⟩
    | cons y l ih =>
      rw [foldlM_cons, bind_ok_iff, map_cons, sum_cons]
      constructor
      · rintro ⟨next, hadd, hrest⟩
        rw [(ih next).mp hrest, checkedAdd_ok hadd]
        omega
      · intro h
        have hfits : start.toNat + y.toNat < 2 ^ 64 := by
          omega
        refine ⟨start + y, checkedAdd_eq_ok hfits, (ih _).mpr ?_⟩
        rw [BitVec.toNat_add_of_lt hfits]
        omega
  have hzero : (0 : BitVec 64).toNat = 0 := rfl
  have h := hfrom 0
  rwa [hzero, Nat.zero_add] at h

theorem checkedSum_of_lt (h : (l.map BitVec.toNat).sum < 2 ^ 64) : ∃ x, checkedSum l = .ok x := by
  refine ⟨.ofNat 64 (l.map BitVec.toNat).sum, checkedSum_ok_iff.mpr ?_⟩
  rw [BitVec.toNat_ofNat, Nat.mod_eq_of_lt h]

/-- Where every summand is a sum that fits, so is the list of them. -/
theorem mapM_returns {α β : Type} {f : α → Except Panic β} {l : List α} (h : ∀ a ∈ l, ∃ b, f a = .ok b) : ∃ bs, l.mapM f = .ok bs := by
  induction l with
  | nil => exact ⟨[], rfl⟩
  | cons a l ih =>
    obtain ⟨⟨b, hb⟩, hl⟩ := forall_mem_cons.mp h
    obtain ⟨bs, hbs⟩ := ih hl
    refine ⟨b :: bs, ?_⟩
    rw [mapM_cons]
    exact bind_ok_iff.mpr ⟨b, hb, bind_ok_iff.mpr ⟨bs, hbs, rfl⟩⟩

theorem mapM_ok {α β : Type} {f : α → Except Panic β} {l : List α} {bs : List β} (h : l.mapM f = .ok bs) :
    Forall₂ (fun a b => f a = .ok b) l bs := by
  induction l generalizing bs with
  | nil =>
    cases h
    exact .nil
  | cons a l ih =>
    rw [mapM_cons] at h
    obtain ⟨b, hb, h1⟩ := bind_ok_iff.mp h
    obtain ⟨bs', hbs', h2⟩ := bind_ok_iff.mp h1
    cases h2
    exact .cons hb (ih hbs')

theorem checkedSum_mapM {α : Type} {f : α → Except Panic (BitVec 64)} {exact : α → ℕ}
    (hfits : ∀ a, exact a < 2 ^ 64 → ∃ x, f a = .ok x) (hexact : ∀ a x, f a = .ok x → x.toNat = exact a) {l : List α}
    (h : (l.map exact).sum < 2 ^ 64) : ∃ x, (do checkedSum (← l.mapM f)) = .ok x := by
  have hall : ∀ a ∈ l, ∃ x, f a = .ok x := fun a ha =>
    hfits a (lt_of_le_of_lt (single_le_sum (fun _ _ => Nat.zero_le _) _ (mem_map_of_mem ha)) h)
  obtain ⟨xs, hxs⟩ := mapM_returns hall
  have hsum : xs.map BitVec.toNat = l.map exact := by
    have hforall := mapM_ok hxs
    clear hxs hall h
    induction hforall with
    | nil => rfl
    | cons ha _ ih => rw [map_cons, map_cons, hexact _ _ ha, ih]
  rw [← hsum] at h
  obtain ⟨x, hx⟩ := checkedSum_of_lt h
  exact ⟨x, bind_ok_iff.mpr ⟨xs, hxs, hx⟩⟩

def Worker.scheduledTokens (worker : Worker) : ℕ := worker.tasks.total fun _ task => task.scheduledGpuTokens.toNat

def Worker.scheduledCores (worker : Worker) : ℕ := worker.tasks.total fun _ task => task.scheduledCores.toNat

theorem totalScheduledTokens_ok_iff {x : GpuTokens} :
    worker.totalScheduledTokens = .ok x ↔ x.toNat = worker.scheduledTokens := by
  rw [Worker.totalScheduledTokens, checkedSum_ok_iff, map_map]
  rfl

theorem totalScheduledCores_ok_iff {x : CpuCores} :
    worker.totalScheduledCores = .ok x ↔ x.toNat = worker.scheduledCores := by
  rw [Worker.totalScheduledCores, checkedSum_ok_iff, map_map]
  rfl

theorem exists_toNat {n : ℕ} (h : n < 2 ^ 64) : ∃ x : BitVec 64, x.toNat = n :=
  ⟨.ofNat 64 n, by rw [BitVec.toNat_ofNat, Nat.mod_eq_of_lt h]⟩

theorem saturatingSub_toNat (x y : BitVec 64) : (saturatingSub x y).toNat = x.toNat - y.toNat := by
  unfold saturatingSub
  split
  next hle => rw [BitVec.toNat_sub_of_le hle]
  next hgt =>
    have hzero : (0 : BitVec 64).toNat = 0 := rfl
    rw [BitVec.le_def, not_le] at hgt
    rw [hzero]
    omega

namespace AllocatorActor

variable {queued : GpuTokens → GpuTokens} {s : AllocatorActor}

theorem gpuRemainingWorkerCapacity_toNat (gpu : Gpu) (worker : Worker) :
    (gpuRemainingWorkerCapacity queued gpu worker).toNat = (queued gpu.maxTokens).toNat - worker.scheduledTokens := by
  have hfrom (entries : List (GlobalId × Task)) (start : BitVec 64) :
      (entries.foldl (fun capacity e => saturatingSub capacity e.2.scheduledGpuTokens) start).toNat =
        start.toNat - (entries.map fun e => e.2.scheduledGpuTokens.toNat).sum := by
    induction entries generalizing start with
    | nil => rfl
    | cons e entries ih =>
      rw [foldl_cons, ih, saturatingSub_toNat, map_cons, sum_cons]
      omega
  exact hfrom _ _

variable (queued) in
/-- What all GPUs of a worker have left. -/
def capacity (s : AllocatorActor) (worker : Worker) : ℕ :=
  (worker.gpuUuids.map fun uuid => (s.gpus uuid).elim 0 fun gpu => (queued gpu.maxTokens).toNat - worker.scheduledTokens).sum

variable {worker : Worker} {room : GpuTokens} {id : WorkerId} {msg : ScheduleTask}

theorem remaining_foldlM {uuids : List GpuUuid} {start : GpuTokens} (h : uuids.foldlM (fun total uuid => do
      let gpu ← expect "worker should still exist and have valid GPU" (s.gpus uuid)
      checkedAdd Panic.overflow total (gpuRemainingWorkerCapacity queued gpu worker)) start = .ok room) :
    room.toNat = start.toNat + (uuids.map fun uuid =>
      (s.gpus uuid).elim 0 fun gpu => (queued gpu.maxTokens).toNat - worker.scheduledTokens).sum := by
  induction uuids generalizing start with
  | nil =>
    cases h
    rfl
  | cons uuid uuids ih =>
    rw [foldlM_cons] at h
    obtain ⟨total, hhead, hrest⟩ := bind_ok_iff.mp h
    obtain ⟨gpu, hgpu, hadd⟩ := bind_ok_iff.mp hhead
    rw [expect_eq_ok] at hgpu
    rw [ih hrest, checkedAdd_ok hadd, gpuRemainingWorkerCapacity_toNat, map_cons, sum_cons, hgpu, Option.elim_some,
      Nat.add_assoc]

theorem workerRemainingCapacity_ok (h : s.workerRemainingCapacity queued id = .ok room) :
    ∃ worker, s.workers.get? id = some worker ∧ room.toNat = s.capacity queued worker := by
  obtain ⟨worker, hworker, hfold⟩ := bind_ok_iff.mp h
  rw [expect_eq_ok] at hworker
  have hzero : (0 : BitVec 64).toNat = 0 := rfl
  refine ⟨worker, hworker, ?_⟩
  rw [remaining_foldlM hfold, hzero, Nat.zero_add, capacity]

theorem workerRemainingCapacity_returns (hworker : s.workers.get? id = some worker)
    (hknown : ∀ uuid ∈ worker.gpuUuids, (s.gpus uuid).isSome) (hfits : s.capacity queued worker < 2 ^ 64) :
    ∃ room, s.workerRemainingCapacity queued id = .ok room := by
  have hfrom (uuids : List GpuUuid) (hknown : ∀ uuid ∈ uuids, (s.gpus uuid).isSome) (start : GpuTokens)
      (hfits : start.toNat + (uuids.map fun uuid =>
        (s.gpus uuid).elim 0 fun gpu => (queued gpu.maxTokens).toNat - worker.scheduledTokens).sum < 2 ^ 64) :
      ∃ room, uuids.foldlM (fun total uuid => do
        let gpu ← expect "worker should still exist and have valid GPU" (s.gpus uuid)
        checkedAdd Panic.overflow total (gpuRemainingWorkerCapacity queued gpu worker)) start = .ok room := by
    induction uuids generalizing start with
    | nil => exact ⟨start, rfl⟩
    | cons uuid uuids ih =>
      obtain ⟨hhead, htail⟩ := forall_mem_cons.mp hknown
      obtain ⟨gpu, hgpu⟩ := Option.isSome_iff_exists.mp hhead
      rw [map_cons, sum_cons, hgpu, Option.elim_some, ← gpuRemainingWorkerCapacity_toNat] at hfits
      have hadd : start.toNat + (gpuRemainingWorkerCapacity queued gpu worker).toNat < 2 ^ 64 := by omega
      obtain ⟨room, hroom⟩ := ih htail (start + gpuRemainingWorkerCapacity queued gpu worker) (by
        rw [BitVec.toNat_add_of_lt hadd]
        omega)
      refine ⟨room, ?_⟩
      rw [foldlM_cons]
      refine bind_ok_iff.mpr ⟨_, bind_ok_iff.mpr ⟨gpu, ?_, checkedAdd_eq_ok hadd⟩, hroom⟩
      rw [hgpu]
      rfl
  have hzero : (0 : BitVec 64).toNat = 0 := rfl
  obtain ⟨room, hroom⟩ := hfrom worker.gpuUuids hknown 0 (by
    rw [hzero, Nat.zero_add]
    exact hfits)
  refine ⟨room, bind_ok_iff.mpr ⟨worker, ?_, hroom⟩⟩
  rw [hworker]
  rfl

def load (s : AllocatorActor) (kind : Worker → Bool) (f : Worker → ℕ) : ℕ := s.workers.total fun _ w => if kind w then f w else 0

theorem load_eq_sum (kind : Worker → Bool) (f : Worker → ℕ) :
    s.load kind f = (((s.workers.entries.map Prod.snd).filter kind).map f).sum := by
  rw [load, OrderedMap.total]
  generalize s.workers.entries = l
  induction l with
  | nil => rfl
  | cons e l ih =>
    rw [map_cons, map_cons, sum_cons, ih, filter_cons]
    by_cases h : kind e.2 <;> simp [h]

/-- Every sum that is taken for a candidate fits 64 bits, after some more tokens and cores. -/
structure SumsFit (queued : GpuTokens → GpuTokens) (s : AllocatorActor) (tokens cores : ℕ) (worker : Worker) : Prop where
  gpu : s.load (fun w => worker.gpuUuids.any fun id => id ∈ w.gpuUuids) Worker.scheduledTokens + tokens < 2 ^ 64
  machine : s.load (fun w => w.machine = worker.machine) Worker.scheduledCores + cores < 2 ^ 64
  own : worker.scheduledTokens + tokens < 2 ^ 64
  room : s.capacity queued worker < 2 ^ 64

variable {tokens cores : ℕ}

theorem candidate_returns (h : ∀ worker, s.workers.get? id = some worker → s.SumsFit queued tokens cores worker) :
    ∃ c, s.candidate id = .ok c := by
  unfold candidate
  cases hworker : s.workers.get? id with
  | none => exact ⟨none, rfl⟩
  | some worker =>
    have hfits := h worker hworker
    have hgpus := lt_of_le_of_lt (Nat.le_add_right _ _) hfits.gpu
    have hmachine := lt_of_le_of_lt (Nat.le_add_right _ _) hfits.machine
    rw [load_eq_sum, filter_map] at hgpus
    rw [load_eq_sum] at hmachine
    obtain ⟨gpuTokens, hgpu⟩ := checkedSum_mapM (f := Worker.totalScheduledTokens)
      (fun w hw => (exists_toNat hw).imp fun _ hx => totalScheduledTokens_ok_iff.mpr hx)
      (fun w x hx => totalScheduledTokens_ok_iff.mp hx) hgpus
    obtain ⟨usedCores, hcores⟩ := checkedSum_mapM (f := Worker.totalScheduledCores)
      (fun w hw => (exists_toNat hw).imp fun _ hx => totalScheduledCores_ok_iff.mpr hx)
      (fun w x hx => totalScheduledCores_ok_iff.mp hx) hmachine
    obtain ⟨workerTokens, htokens⟩ := exists_toNat (lt_of_le_of_lt (Nat.le_add_right _ _) hfits.own)
    exact ⟨_, bind_ok_iff.mpr ⟨gpuTokens, hgpu, bind_ok_iff.mpr ⟨usedCores, hcores,
      bind_ok_iff.mpr ⟨workerTokens, totalScheduledTokens_ok_iff.mpr htokens, rfl⟩⟩⟩⟩

theorem candidate_ok {c : CandidateWorker} (h : s.candidate id = .ok (some c)) :
    c.id = id ∧ ∃ worker, s.workers.get? id = some worker := by
  unfold candidate at h
  cases hworker : s.workers.get? id with
  | none =>
    rw [hworker] at h
    cases h
  | some worker =>
    rw [hworker] at h
    obtain ⟨_, -, h1⟩ := bind_ok_iff.mp h
    obtain ⟨_, -, h2⟩ := bind_ok_iff.mp h1
    obtain ⟨_, -, h3⟩ := bind_ok_iff.mp h2
    cases h3
    exact ⟨rfl, worker, rfl⟩

theorem candidate_none (h : s.candidate id = .ok none) : s.workers.get? id = none := by
  unfold candidate at h
  cases hworker : s.workers.get? id with
  | none => rfl
  | some worker =>
    rw [hworker] at h
    obtain ⟨_, -, h1⟩ := bind_ok_iff.mp h
    obtain ⟨_, -, h2⟩ := bind_ok_iff.mp h1
    obtain ⟨_, -, h3⟩ := bind_ok_iff.mp h2
    cases h3

theorem candidates_ok {ids : List WorkerId} {found : List (Option CandidateWorker)} (h : ids.mapM s.candidate = .ok found) :
    ∀ id, (id ∈ ids ∧ ∃ worker, s.workers.get? id = some worker) ↔ ∃ c ∈ found.reduceOption, c.id = id := by
  have hforall := mapM_ok h
  clear h
  intro id
  induction hforall with
  | nil => simp
  | @cons id' c ids found hc _ ih =>
    rw [mem_cons]
    cases c with
    | none =>
      have hnone := candidate_none hc
      rw [reduceOption_cons_of_none, ← ih]
      constructor
      · rintro ⟨rfl | hmem, worker, hworker⟩
        · rw [hnone] at hworker
          cases hworker
        · exact ⟨hmem, worker, hworker⟩
      · rintro ⟨hmem, hworker⟩
        exact ⟨.inr hmem, hworker⟩
    | some c =>
      obtain ⟨hid, worker, hworker⟩ := candidate_ok hc
      rw [reduceOption_cons_of_some, exists_mem_cons_iff, ← ih, hid]
      constructor
      · rintro ⟨rfl | hmem, hconnected⟩
        · exact .inl rfl
        · exact .inr ⟨hmem, hconnected⟩
      · rintro (rfl | ⟨hmem, hconnected⟩)
        · exact ⟨.inl rfl, worker, hworker⟩
        · exact ⟨.inr hmem, hconnected⟩

theorem leastBusy_mem (first : CandidateWorker) (rest : List CandidateWorker) : leastBusy first rest ∈ first :: rest := by
  unfold leastBusy
  induction rest generalizing first with
  | nil => exact mem_singleton_self _
  | cons w rest ih =>
    rw [foldl_cons]
    have hmem := ih (if w.lt first then w else first)
    rw [mem_cons] at hmem ⊢
    obtain heq | hmem := hmem
    · rw [heq]
      split
      · exact .inr mem_cons_self
      · exact .inl rfl
    · exact .inr (mem_cons_of_mem _ hmem)

theorem withRoom_ok {tokens : GpuTokens} {candidates chosen : List CandidateWorker} (h : s.withRoom queued tokens candidates = .ok chosen) :
    (∀ c ∈ candidates, ∃ room, s.workerRemainingCapacity queued c.id = .ok room ∧ (c ∈ chosen ∨ room < tokens)) ∧
      ∀ c ∈ chosen, c ∈ candidates ∧ ∃ room, s.workerRemainingCapacity queued c.id = .ok room ∧ tokens ≤ room := by
  induction candidates generalizing chosen with
  | nil =>
    cases h
    exact ⟨fun _ hmem => absurd hmem not_mem_nil, fun _ hmem => absurd hmem not_mem_nil⟩
  | cons w rest ih =>
    obtain ⟨room, hroom, h1⟩ := bind_ok_iff.mp h
    obtain ⟨chosen', hrest, h2⟩ := bind_ok_iff.mp h1
    cases h2
    obtain ⟨hall, hchosen⟩ := ih hrest
    have hmono : ∀ c ∈ chosen', c ∈ if tokens ≤ room then w :: chosen' else chosen' := by
      intro c hc
      split
      · exact mem_cons_of_mem _ hc
      · exact hc
    refine ⟨forall_mem_cons.mpr ⟨⟨room, hroom, ?_⟩, fun c hc => ?_⟩, fun c hc => ?_⟩
    · by_cases hle : tokens ≤ room
      · rw [if_pos hle]
        exact .inl mem_cons_self
      · exact .inr (BitVec.not_le.mp hle)
    · obtain ⟨room', hroom', hmem⟩ := hall c hc
      exact ⟨room', hroom', hmem.imp_left (hmono c)⟩
    · by_cases hle : tokens ≤ room
      · rw [if_pos hle] at hc
        obtain rfl | hc := mem_cons.mp hc
        · exact ⟨mem_cons_self, room, hroom, hle⟩
        · exact ⟨mem_cons_of_mem _ (hchosen c hc).1, (hchosen c hc).2⟩
      · rw [if_neg hle] at hc
        exact ⟨mem_cons_of_mem _ (hchosen c hc).1, (hchosen c hc).2⟩

theorem withRoom_returns {tokens : GpuTokens} {candidates : List CandidateWorker}
    (h : ∀ c ∈ candidates, ∃ room, s.workerRemainingCapacity queued c.id = .ok room) :
    ∃ chosen, s.withRoom queued tokens candidates = .ok chosen := by
  induction candidates with
  | nil => exact ⟨[], rfl⟩
  | cons w rest ih =>
    obtain ⟨⟨room, hroom⟩, htail⟩ := forall_mem_cons.mp h
    obtain ⟨chosen, hchosen⟩ := ih htail
    exact ⟨_, bind_ok_iff.mpr ⟨room, hroom, bind_ok_iff.mpr ⟨chosen, hchosen, rfl⟩⟩⟩

/-- Every sum that is taken for a request fits 64 bits, after some more tokens and cores. -/
def ScheduleClear (queued : GpuTokens → GpuTokens) (s : AllocatorActor) (tokens cores : ℕ) (msg : ScheduleTask) : Prop :=
  ∀ id ∈ msg.candidates, ∀ worker, s.workers.get? id = some worker → s.SumsFit queued tokens cores worker

/-- All candidates that are connected are full, and some are connected. -/
structure AllFull (queued : GpuTokens → GpuTokens) (s : AllocatorActor) (msg : ScheduleTask) : Prop where
  connected : ∃ id ∈ msg.candidates, ∃ worker, s.workers.get? id = some worker
  full : ∀ id ∈ msg.candidates, ∀ worker, s.workers.get? id = some worker → s.capacity queued worker < msg.gpuTokens.toNat

/-- The task was given to a candidate with room. -/
structure Scheduled (queued : GpuTokens → GpuTokens) (s s' : AllocatorActor) (msg : ScheduleTask) (id : WorkerId) (worker : Worker) :
    Prop where
  candidate : id ∈ msg.candidates
  connected : s.workers.get? id = some worker
  room : msg.gpuTokens.toNat ≤ s.capacity queued worker
  fresh : worker.tasks.get? msg.taskId = none
  after : s' = s.setTask id worker msg.taskId (Task.ofMsg msg)

/-- What becomes of a request: it fails, it goes on waiting, or its task is scheduled. -/
theorem maybeScheduleTask_cases {s' : AllocatorActor} {answer : Option (Except Error ScheduleTaskReply)}
    (h : s.maybeScheduleTask queued msg = .ok (s', answer)) :
    (s' = s ∧ ∃ e, answer = some (.error e) ∧ ¬ s.AllFull queued msg) ∨ (s' = s ∧ answer = none ∧ s.AllFull queued msg) ∨
      ∃ id worker, answer = some (.ok ⟨id⟩) ∧ s.Scheduled queued s' msg id worker := by
  obtain ⟨found, hfound, h1⟩ := bind_ok_iff.mp h
  have hcandidates := candidates_ok hfound
  split at h1
  next hempty =>
    cases h1
    refine .inl ⟨rfl, _, rfl, fun hfull => ?_⟩
    obtain ⟨id, hid, hconnected⟩ := hfull.connected
    obtain ⟨c, hc, -⟩ := (hcandidates id).mp ⟨hid, hconnected⟩
    rw [hempty] at hc
    exact absurd hc not_mem_nil
  next hne =>
    obtain ⟨chosen, hchosen, h2⟩ := bind_ok_iff.mp h1
    obtain ⟨hall, hroom⟩ := withRoom_ok hchosen
    cases chosen with
    | nil =>
      cases h2
      refine .inr (.inl ⟨rfl, rfl, ?_, fun id hid worker hworker => ?_⟩)
      · obtain ⟨c, hc⟩ := exists_mem_of_ne_nil _ hne
        obtain ⟨hid, hconnected⟩ := (hcandidates c.id).mpr ⟨c, hc, rfl⟩
        exact ⟨c.id, hid, hconnected⟩
      · obtain ⟨c, hc, rfl⟩ := (hcandidates id).mp ⟨hid, worker, hworker⟩
        obtain ⟨room, hcapacity, hmem | hlt⟩ := hall c hc
        · exact absurd hmem not_mem_nil
        · obtain ⟨worker', hworker', hexact⟩ := workerRemainingCapacity_ok hcapacity
          rw [hworker] at hworker'
          cases hworker'
          rwa [← hexact]
    | cons first rest =>
      have hmem := leastBusy_mem first rest
      obtain ⟨hselected, room, hcapacity, hle⟩ := hroom _ hmem
      obtain ⟨hid, -⟩ := (hcandidates _).mpr ⟨_, hselected, rfl⟩
      obtain ⟨worker, hworker, hexact⟩ := workerRemainingCapacity_ok hcapacity
      rw [BitVec.le_def, hexact] at hle
      have hchoose : s.chooseWorker msg (first :: rest) = (s', answer) := Except.ok.inj h2
      simp only [chooseWorker] at hchoose
      cases htask : worker.tasks.get? msg.taskId with
      | some task =>
        have hadd : s.addWorkerTask (leastBusy first rest).id msg = (s, .error .duplicateTaskId) := by
          simp only [addWorkerTask, hworker, htask]
        rw [hadd] at hchoose
        cases hchoose
        exact .inl ⟨rfl, _, rfl, fun hfull => absurd (hfull.full _ hid worker hworker) (by omega)⟩
      | none =>
        have hadd : s.addWorkerTask (leastBusy first rest).id msg =
            (s.setTask (leastBusy first rest).id worker msg.taskId (Task.ofMsg msg), .ok ()) := by
          simp only [addWorkerTask, hworker, htask]
        rw [hadd] at hchoose
        cases hchoose
        exact .inr (.inr ⟨_, worker, rfl, hid, hworker, hle, htask, rfl⟩)

theorem maybeScheduleTask_returns (h : s.ScheduleClear queued tokens cores msg)
    (hknown : ∀ id worker, s.workers.get? id = some worker → ∀ uuid ∈ worker.gpuUuids, (s.gpus uuid).isSome) :
    ∃ result, s.maybeScheduleTask queued msg = .ok result := by
  obtain ⟨found, hfound⟩ := mapM_returns fun id hid => candidate_returns (h id hid)
  have hcandidates := candidates_ok hfound
  by_cases hempty : found.reduceOption = []
  · exact ⟨_, bind_ok_iff.mpr ⟨found, hfound, if_pos hempty⟩⟩
  · have hrooms : ∀ c ∈ found.reduceOption, ∃ room, s.workerRemainingCapacity queued c.id = .ok room := by
      intro c hc
      obtain ⟨hid, worker, hworker⟩ := (hcandidates c.id).mpr ⟨c, hc, rfl⟩
      exact workerRemainingCapacity_returns hworker (hknown c.id worker hworker) (h c.id hid worker hworker).room
    obtain ⟨chosen, hchosen⟩ := @withRoom_returns queued s msg.gpuTokens _ hrooms
    refine ⟨s.chooseWorker msg chosen, bind_ok_iff.mpr ⟨found, hfound, ?_⟩⟩
    rw [if_neg hempty]
    exact bind_ok_iff.mpr ⟨chosen, hchosen, rfl⟩

end AllocatorActor

end VerifiableCompute.Allocator
