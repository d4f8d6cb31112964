import VerifiableCompute.Allocator.Accounting

/-! Loops over reservations keep the books balanced. Taking them aborts only where they fit
one by one and not together, giving them back only at cores of a CPU that is not known. -/

namespace VerifiableCompute.Allocator

open Lib WordOrder Option Function

/-- Tokens of GPUs and cores of machines. -/
abbrev Amounts := (GpuUuid → ℕ) × (MachineId → ℕ)

def freeOf (gpus : GpuUuid → Option Gpu) (cpus : MachineId → Option Cpu) : Amounts :=
  (fun g => (gpus g).elim 0 fun gpu => gpu.freeTokens.toNat, fun m => (cpus m).elim 0 fun cpu => cpu.freeCores.toNat)

def asks (machine : MachineId) : HardwareReservation → Amounts
  | .gpu id tokens => (Pi.single id tokens.toNat, 0)
  | .cpu cores => (0, Pi.single machine cores.toNat)

def demand (machine : MachineId) (reservations : List HardwareReservation) : Amounts := (reservations.map (asks machine)).sum

def Known (gpus : GpuUuid → Option Gpu) (cpus : MachineId → Option Cpu) (machine : MachineId) : HardwareReservation → Prop
  | .gpu id _ => (gpus id).isSome
  | .cpu _ => (cpus machine).isSome

/-- Reservations of known GPUs that fit one by one what is free, and then one of cores. -/
def ReachesCores (gpus : GpuUuid → Option Gpu) (free : Amounts) : List HardwareReservation → Prop
  | [] => False
  | .gpu id tokens :: rest => (gpus id).isSome ∧ tokens.toNat ≤ free.1 id ∧ ReachesCores gpus free rest
  | .cpu _ :: _ => True

/-- The task holds what is given back. -/
def Held (gpus : GpuUuid → Option Gpu) (task : Task) : HardwareReservation → Prop
  | .gpu id tokens => (gpus id).isSome ∧ ∃ held, task.usedGpuTokens.get? id = some held ∧ tokens ≤ held
  | .cpu cores => cores ≤ task.usedCores

/-- What the task holds afterwards. -/
def Task.without (task : Task) : HardwareReservation → Task
  | .gpu id tokens => task.withoutTokens id ((task.usedGpuTokens.get? id).getD 0) tokens
  | .cpu cores => { task with usedCores := task.usedCores - cores }

/-- All of a request is held, one reservation after the other. -/
def AllHeld (gpus : GpuUuid → Option Gpu) : Task → List HardwareReservation → Prop
  | _, [] => True
  | task, res :: rest => Held gpus task res ∧ AllHeld gpus (task.without res) rest

/-- Giving this back changes nothing. -/
def Idle (task : Task) : HardwareReservation → Prop
  | .gpu id tokens => tokens = 0 ∧ task.usedGpuTokens.get? id ≠ some 0
  | .cpu cores => cores = 0

/-- A reservation that is not held comes before those that change something. -/
def NothingFirst (gpus : GpuUuid → Option Gpu) (task : Task) : List HardwareReservation → Prop
  | [] => False
  | res :: rest => ¬ Held gpus task res ∨ Idle task res ∧ NothingFirst gpus task rest

/-- Reservations of tokens that the task holds, and then one of cores. -/
def ReturnsCores (gpus : GpuUuid → Option Gpu) : Task → List HardwareReservation → Prop
  | _, [] => False
  | task, .gpu id tokens :: rest => Held gpus task (.gpu id tokens) ∧ ReturnsCores gpus (task.without (.gpu id tokens)) rest
  | _, .cpu _ :: _ => True

variable {machine : MachineId} {rest : GpuUuid → ℕ} {restCores : MachineId → ℕ} {books : Books}
  {gpus : GpuUuid → Option Gpu} {cpus : MachineId → Option Cpu}

theorem freeOf_gpu {id : GpuUuid} {gpu : Gpu} (h : gpus id = some gpu) : (freeOf gpus cpus).1 id = gpu.freeTokens.toNat := by
  simp only [freeOf, h, elim_some]

theorem freeOf_cpu {cpu : Cpu} (h : cpus machine = some cpu) : (freeOf gpus cpus).2 machine = cpu.freeCores.toNat := by
  simp only [freeOf, h, elim_some]

theorem freeOf_updateGpu (cpus : MachineId → Option Cpu) {id : GpuUuid} {gpu : Gpu} (hgpu : gpus id = some gpu) {freeTokens : GpuTokens} {taken given : ℕ}
    (h : freeTokens.toNat + taken = gpu.freeTokens.toNat + given) :
    freeOf (update gpus id (some { gpu with freeTokens })) cpus + (Pi.single id taken, 0) =
      freeOf gpus cpus + (Pi.single id given, 0) := by
  refine Prod.ext (funext fun g => ?_) rfl
  by_cases hg : g = id
  · subst hg
    simpa [freeOf, hgpu] using h
  · simp [freeOf, hg]

theorem freeOf_updateCpu (gpus : GpuUuid → Option Gpu) {cpu : Cpu} (hcpu : cpus machine = some cpu) {freeCores : CpuCores} {taken given : ℕ}
    (h : freeCores.toNat + taken = cpu.freeCores.toNat + given) :
    freeOf gpus (update cpus machine (some { cpu with freeCores })) + (0, Pi.single machine taken) =
      freeOf gpus cpus + (0, Pi.single machine given) := by
  refine Prod.ext rfl (funext fun m => ?_)
  by_cases hm : m = machine
  · subst hm
    simpa [freeOf, hcpu] using h
  · simp [freeOf, hm]

theorem asks_gpu_le {id : GpuUuid} {tokens : GpuTokens} {free : Amounts} :
    asks machine (.gpu id tokens) ≤ free ↔ tokens.toNat ≤ free.1 id := by
  refine ⟨fun h => by simpa [asks] using h.1 id, fun h => ⟨fun g => ?_, fun _ => Nat.zero_le _⟩⟩
  by_cases hg : g = id
  · subst hg
    simpa [asks] using h
  · simp [asks, hg]

theorem asks_cpu_le {cores : CpuCores} {free : Amounts} : asks machine (.cpu cores) ≤ free ↔ cores.toNat ≤ free.2 machine := by
  refine ⟨fun h => by simpa [asks] using h.2 machine, fun h => ⟨fun _ => Nat.zero_le _, fun m => ?_⟩⟩
  by_cases hm : m = machine
  · subst hm
    simpa [asks] using h
  · simp [asks, hm]

theorem hasRoom_returns {reservations : List HardwareReservation} (h : cpus machine = none → ¬ ReachesCores gpus (freeOf gpus cpus) reservations) :
    ∃ result, hasRoom gpus cpus machine reservations = .ok result ∧
      (result = .ok true → ∀ res ∈ reservations, Known gpus cpus machine res ∧ asks machine res ≤ freeOf gpus cpus) := by
  induction reservations with
  | nil => exact ⟨_, rfl, fun _ _ hmem => absurd hmem List.not_mem_nil⟩
  | cons res reservations ih =>
    cases res with
    | gpu id tokens =>
      rw [hasRoom]
      cases hgpu : gpus id with
      | none => exact ⟨_, rfl, fun heq => nomatch heq⟩
      | some gpu =>
        have hsome : (gpus id).isSome := by rw [hgpu, isSome_some]
        by_cases hfree : gpu.freeTokens < tokens
        · exact ⟨.ok false, if_pos hfree, fun heq => nomatch heq⟩
        · have hle : tokens.toNat ≤ (freeOf gpus cpus).1 id := by
            rw [freeOf_gpu hgpu]
            exact BitVec.not_lt.mp hfree
          obtain ⟨result, hroom, hknown⟩ := ih fun hcpu hreach => h hcpu ⟨hsome, hle, hreach⟩
          refine ⟨result, ?_, fun heq => List.forall_mem_cons.mpr ⟨⟨hsome, asks_gpu_le.mpr hle⟩, hknown heq⟩⟩
          simp only [if_neg hfree, hroom]
    | cpu cores =>
      rw [hasRoom]
      cases hcpu : cpus machine with
      | none => exact absurd trivial (h hcpu)
      | some cpu =>
        by_cases hfree : cpu.freeCores < cores
        · exact ⟨.ok false, if_pos hfree, fun heq => nomatch heq⟩
        · obtain ⟨result, hroom, hknown⟩ := ih fun hnone => absurd (hcpu.symm.trans hnone) (by simp)
          refine ⟨result, ?_, fun heq => List.forall_mem_cons.mpr ⟨⟨?_, asks_cpu_le.mpr ?_⟩, hknown heq⟩⟩
          · simp only [if_neg hfree, hroom]
          · rw [Known, hcpu, isSome_some]
          · rw [freeOf_cpu hcpu]
            exact BitVec.not_lt.mp hfree

variable {res : HardwareReservation} {reservations : List HardwareReservation}

theorem Known.same (h : Known gpus cpus machine res) {gpus' : GpuUuid → Option Gpu} {cpus' : MachineId → Option Cpu}
    (hsame : SameHardware gpus gpus' cpus cpus') : Known gpus' cpus' machine res := by
  cases res with
  | gpu id tokens =>
    rw [Known, hsame.gpu_known]
    exact h
  | cpu cores =>
    rw [Known, hsame.cpu_known]
    exact h

theorem take_spec (h : Balanced machine rest restCores books)
    (hknown : Known books.gpus books.cpus machine res) (hfits : asks machine res ≤ freeOf books.gpus books.cpus) :
    ∃ books', take machine res books = .ok (books', .ok ()) ∧ Balanced machine rest restCores books' ∧
      SameHardware books.gpus books'.gpus books.cpus books'.cpus ∧
      freeOf books'.gpus books'.cpus + asks machine res = freeOf books.gpus books.cpus := by
  cases res with
  | gpu id tokens =>
    obtain ⟨gpu, hgpu⟩ := isSome_iff_exists.mp hknown
    have hle : tokens ≤ gpu.freeTokens := by
      rw [asks_gpu_le, freeOf_gpu hgpu] at hfits
      exact hfits
    have hfree : checkedSub Panic.overflow gpu.freeTokens tokens = .ok (gpu.freeTokens - tokens) := if_pos hle
    have hall := h.covers.gpu id gpu hgpu
    simp only [Task.held] at hall
    have hmax := gpu.maxTokens.isLt
    have hsub := sub_add_toNat hle
    have hsum : ((books.task.usedGpuTokens.get? id).getD 0).toNat + tokens.toNat < 2 ^ 64 := by omega
    have hadd : checkedAdd Panic.overflow ((books.task.usedGpuTokens.get? id).getD 0) tokens =
        .ok ((books.task.usedGpuTokens.get? id).getD 0 + tokens) := checkedAdd_eq_ok hsum
    have hused : ((books.task.usedGpuTokens.get? id).getD 0 + tokens).toNat = books.task.held id + tokens.toNat :=
      BitVec.toNat_add_of_lt hsum
    have hsame := sameHardware_updateGpu books.cpus hgpu (gpu.freeTokens - tokens)
    refine ⟨⟨update books.gpus id (some { gpu with freeTokens := gpu.freeTokens - tokens }), books.cpus,
      { books.task with usedGpuTokens :=
          books.task.usedGpuTokens.insert id ((books.task.usedGpuTokens.get? id).getD 0 + tokens) }⟩, ?_, ⟨?_, ?_⟩, hsame, ?_⟩
    · rw [take, hgpu]
      exact bind_ok_iff.mpr ⟨_, hfree, bind_ok_iff.mpr ⟨_, hadd, rfl⟩⟩
    · refine h.covers.takeTokens hgpu hfree fun g => ?_
      rw [held_insert]
      by_cases hg : g = id
      · rw [if_pos hg, if_pos hg, hused, hg]
        omega
      · rw [if_neg hg, if_neg hg, Nat.add_zero]
    · intro g hg
      rw [hsame.gpu_known]
      by_cases hid : g = id
      · rw [hid, hgpu, isSome_some]
      · rw [OrderedMap.get?_insert, if_neg hid] at hg
        exact h.keys g hg
    · simpa [asks, Prod.mk_zero_zero] using @freeOf_updateGpu _ books.cpus _ _ hgpu _ _ 0 hsub
  | cpu cores =>
    obtain ⟨cpu, hcpu⟩ := isSome_iff_exists.mp hknown
    have hle : cores ≤ cpu.freeCores := by
      rw [asks_cpu_le, freeOf_cpu hcpu] at hfits
      exact hfits
    have hfree : checkedSub Panic.overflow cpu.freeCores cores = .ok (cpu.freeCores - cores) := if_pos hle
    have hall := h.covers.cpu machine cpu hcpu
    rw [if_pos rfl] at hall
    have hmax := cpu.totalCores.isLt
    have hsub := sub_add_toNat hle
    have hsum : books.task.usedCores.toNat + cores.toNat < 2 ^ 64 := by omega
    have hused : (books.task.usedCores + cores).toNat = books.task.usedCores.toNat + cores.toNat := BitVec.toNat_add_of_lt hsum
    refine ⟨{ books with
        cpus := update books.cpus machine (some { cpu with freeCores := cpu.freeCores - cores })
        task := { books.task with usedCores := books.task.usedCores + cores } }, ?_, ⟨?_, h.keys⟩,
      sameHardware_updateCpu _ hcpu _, ?_⟩
    · rw [take, hcpu]
      exact bind_ok_iff.mpr ⟨_, rfl, bind_ok_iff.mpr ⟨_, hfree, bind_ok_iff.mpr ⟨_, checkedAdd_eq_ok hsum, rfl⟩⟩⟩
    · refine h.covers.takeCores hcpu hfree fun m => ?_
      simp only [hused]
      by_cases hm : m = machine
      · rw [if_pos hm, if_pos hm, if_pos hm]
        omega
      · rw [if_neg hm, if_neg hm, if_neg hm, Nat.add_zero]
    · simpa [asks, Prod.mk_zero_zero] using @freeOf_updateCpu _ _ books.gpus _ hcpu _ _ 0 hsub

theorem takeAll_spec (h : Balanced machine rest restCores books)
    (hknown : ∀ res ∈ reservations, Known books.gpus books.cpus machine res)
    (hfits : demand machine reservations ≤ freeOf books.gpus books.cpus) :
    ∃ books', forReservations (take machine) reservations books = .ok (books', .ok ()) ∧ Balanced machine rest restCores books' ∧
      SameHardware books.gpus books'.gpus books.cpus books'.cpus ∧
      freeOf books'.gpus books'.cpus + demand machine reservations = freeOf books.gpus books.cpus := by
  induction reservations generalizing books with
  | nil => exact ⟨books, rfl, h, .refl _ _, add_zero _⟩
  | cons res reservations ih =>
    obtain ⟨hhead, htail⟩ := List.forall_mem_cons.mp hknown
    have hsum : demand machine (res :: reservations) = asks machine res + demand machine reservations := List.sum_cons
    rw [hsum] at hfits ⊢
    obtain ⟨books₁, htake, hbalanced, hsame, hfree⟩ := take_spec h hhead (le_trans le_self_add hfits)
    rw [← hfree, add_comm] at hfits
    obtain ⟨books₂, hloop, hbalanced2, hsame2, hfree2⟩ := ih hbalanced (fun r hr => (htail r hr).same hsame)
      (le_of_add_le_add_right hfits)
    refine ⟨books₂, bind_ok_iff.mpr ⟨_, htake, hloop⟩, hbalanced2, hsame.trans hsame2, ?_⟩
    rw [← hfree, ← hfree2, add_assoc, add_comm (asks machine res)]

theorem returnsCores_same {gpus' : GpuUuid → Option Gpu} {cpus' : MachineId → Option Cpu} (hsame : SameHardware gpus gpus' cpus cpus')
    {task : Task} (h : ReturnsCores gpus' task reservations) : ReturnsCores gpus task reservations := by
  induction reservations generalizing task with
  | nil => exact h
  | cons res reservations ih =>
    cases res with
    | gpu id tokens =>
      obtain ⟨⟨hknown, hheld⟩, hrest⟩ := h
      exact ⟨⟨hsame.gpu_known id ▸ hknown, hheld⟩, ih hrest⟩
    | cpu cores => trivial

theorem giveBack_spec (h : Balanced machine rest restCores books)
    (hcpu : books.cpus machine = none → ¬ ReturnsCores books.gpus books.task (res :: reservations)) :
    ∃ books' result, giveBack machine res books = .ok (books', result) ∧ Balanced machine rest restCores books' ∧
      SameHardware books.gpus books'.gpus books.cpus books'.cpus ∧
      (result = .ok () → books'.cpus machine = none → ¬ ReturnsCores books'.gpus books'.task reservations) := by
  cases res with
  | gpu id tokens =>
    rw [giveBack]
    cases hgpu : books.gpus id with
    | none => exact ⟨books, _, rfl, h, .refl _ _, fun heq => nomatch heq⟩
    | some gpu =>
      cases hheld : books.task.usedGpuTokens.get? id with
      | none => exact ⟨books, _, rfl, h, .refl _ _, fun heq => nomatch heq⟩
      | some held =>
        simp only
        by_cases hle : tokens ≤ held
        · rw [if_pos hle]
          obtain ⟨gpus', hgive, hcovers, hsame⟩ := h.covers.giveTokens hgpu fun g => by
            rw [← held_withoutTokens hheld hle, Nat.add_right_comm]
          refine ⟨_, _, bind_ok_iff.mpr ⟨_, hgive, rfl⟩, ⟨hcovers, ?_⟩, hsame, fun _ hnone hreturns => ?_⟩
          · exact KeysKnown.same (keys_withoutTokens h.keys hheld tokens) hsame
          · refine hcpu hnone ⟨⟨by rw [hgpu, isSome_some], held, hheld, hle⟩, ?_⟩
            rw [Task.without, hheld]
            exact returnsCores_same hsame hreturns
        · rw [if_neg hle]
          exact ⟨books, _, rfl, h, .refl _ _, fun heq => nomatch heq⟩
  | cpu cores =>
    rw [giveBack]
    cases hget : books.cpus machine with
    | none => exact absurd trivial (hcpu hget)
    | some cpu =>
      simp only [expect]
      by_cases hle : cores ≤ books.task.usedCores
      · have hsub := sub_add_toNat hle
        have hcores : ∀ m, (if m = machine then books.task.usedCores.toNat else 0) + restCores m =
            (if m = machine then (books.task.usedCores - cores).toNat else 0) + restCores m +
              if m = machine then cores.toNat else 0 := by
          intro m
          by_cases hm : m = machine
          · rw [if_pos hm, if_pos hm, if_pos hm]
            omega
          · rw [if_neg hm, if_neg hm, if_neg hm, Nat.add_zero]
        obtain ⟨cpus', hgive, hcovers, hsame⟩ := h.covers.giveCores hget hcores
        refine ⟨{ books with cpus := cpus', task := { books.task with usedCores := books.task.usedCores - cores } }, .ok (), ?_,
          ⟨hcovers, h.keys⟩, hsame, fun _ (hnone : cpus' machine = none) => ?_⟩
        · show (if cores ≤ books.task.usedCores then _ else _ : Except Panic _) = _
          rw [if_pos hle]
          exact bind_ok_iff.mpr ⟨_, hgive, rfl⟩
        · have hknown := hsame.cpu_known machine
          rw [hget, hnone] at hknown
          cases hknown
      · refine ⟨books, .error .cpuCoresNotHeld, ?_, h, .refl _ _, fun heq => ?_⟩
        · show (if cores ≤ books.task.usedCores then _ else _ : Except Panic _) = _
          rw [if_neg hle]
          rfl
        · cases heq

theorem giveAll_spec (h : Balanced machine rest restCores books)
    (hcpu : books.cpus machine = none → ¬ ReturnsCores books.gpus books.task reservations) :
    ∃ books' result, forReservations (giveBack machine) reservations books = .ok (books', result) ∧
      Balanced machine rest restCores books' ∧ SameHardware books.gpus books'.gpus books.cpus books'.cpus := by
  induction reservations generalizing books with
  | nil => exact ⟨books, _, rfl, h, .refl _ _⟩
  | cons res reservations ih =>
    obtain ⟨books₁, result, hgive, hbalanced, hsame, hrest⟩ := giveBack_spec h hcpu
    cases result with
    | error e => exact ⟨books₁, .error e, bind_ok_iff.mpr ⟨_, hgive, rfl⟩, hbalanced, hsame⟩
    | ok _ =>
      obtain ⟨books₂, result, hloop, hbalanced2, hsame2⟩ := ih hbalanced (hrest rfl)
      exact ⟨books₂, result, bind_ok_iff.mpr ⟨_, hgive, hloop⟩, hbalanced2, hsame.trans hsame2⟩

theorem giveBack_cases {books' : Books} {result : Except Error Unit}
    (h : giveBack machine res books = .ok (books', result)) :
    (¬ Held books.gpus books.task res ∧ books' = books ∧ ∃ e, result = .error e) ∨
      (Held books.gpus books.task res ∧ result = .ok () ∧ books'.task = books.task.without res ∧
        (∀ g, (books'.gpus g).map (·.maxTokens) = (books.gpus g).map (·.maxTokens)) ∧
        freeOf books'.gpus books'.cpus = freeOf books.gpus books.cpus + asks machine res ∧ (Idle books.task res → books' = books)) := by
  cases res with
  | gpu id tokens =>
    rw [giveBack] at h
    cases hgpu : books.gpus id with
    | none =>
      simp only [hgpu] at h
      cases h
      refine .inl ⟨fun hheld => ?_, rfl, _, rfl⟩
      have hknown := hheld.1
      rw [hgpu] at hknown
      cases hknown
    | some gpu =>
      cases hheld : books.task.usedGpuTokens.get? id with
      | none =>
        simp only [hgpu, hheld] at h
        cases h
        refine .inl ⟨fun hheld' => ?_, rfl, _, rfl⟩
        obtain ⟨-, held, hsome, -⟩ := hheld'
        rw [hheld] at hsome
        cases hsome
      | some held =>
        simp only [hgpu, hheld] at h
        by_cases hle : tokens ≤ held
        · rw [if_pos hle] at h
          obtain ⟨gpus, hgive, h1⟩ := bind_ok_iff.mp h
          obtain ⟨freeTokens, hfree, h2⟩ := bind_ok_iff.mp hgive
          obtain ⟨-, -, h3⟩ := bind_ok_iff.mp h2
          cases h1
          cases h3
          refine .inr ⟨⟨by rw [hgpu, isSome_some], held, hheld, hle⟩, rfl, ?_, (sameHardware_updateGpu books.cpus hgpu freeTokens).gpu,
            ?_, fun hidle => ?_⟩
          · rw [Task.without, hheld, getD_some]
          · simpa [asks, Prod.mk_zero_zero] using @freeOf_updateGpu _ books.cpus _ _ hgpu _ 0 _ (checkedAdd_ok hfree)
          · obtain ⟨rfl, hne⟩ := hidle
            have hsame : freeTokens = gpu.freeTokens := by
              have := checkedAdd_ok hfree
              have hzero : (0 : BitVec 64).toNat = 0 := rfl
              exact BitVec.eq_of_toNat_eq (by omega)
            have hnonzero : held ≠ 0 := fun hz => hne (by rw [hheld, hz])
            have htask : books.task.withoutTokens id held 0 = books.task := by
              have hsub : held - 0 = held := BitVec.sub_zero held
              rw [Task.withoutTokens, hsub, if_neg hnonzero, OrderedMap.insert_get? hheld]
            have hgpus : update books.gpus id (some { gpu with freeTokens }) = books.gpus := by
              rw [hsame, ← hgpu, update_eq_self]
            rw [htask, hgpus]
        · rw [if_neg hle] at h
          cases h
          refine .inl ⟨fun hheld' => ?_, rfl, _, rfl⟩
          obtain ⟨-, held', hsome, hle'⟩ := hheld'
          rw [hheld] at hsome
          cases hsome
          exact hle hle'
  | cpu cores =>
    obtain ⟨cpu, hcpu, h1⟩ := bind_ok_iff.mp h
    by_cases hle : cores ≤ books.task.usedCores
    · rw [if_pos hle] at h1
      obtain ⟨cpus, hgive, h2⟩ := bind_ok_iff.mp h1
      obtain ⟨freeCores, hfree, h3⟩ := bind_ok_iff.mp hgive
      obtain ⟨-, -, h4⟩ := bind_ok_iff.mp h3
      cases h2
      cases h4
      rw [expect_eq_ok] at hcpu
      refine .inr ⟨hle, rfl, rfl, fun _ => rfl, ?_, fun hidle => ?_⟩
      · simpa [asks, Prod.mk_zero_zero] using @freeOf_updateCpu _ _ books.gpus _ hcpu _ 0 _ (checkedAdd_ok hfree)
      have hzero : cores = 0 := hidle
      subst hzero
      have hsame : freeCores = cpu.freeCores := by
        have := checkedAdd_ok hfree
        have hzero : (0 : BitVec 64).toNat = 0 := rfl
        exact BitVec.eq_of_toNat_eq (by omega)
      have hcpus : update books.cpus machine (some { cpu with freeCores }) = books.cpus := by
        rw [hsame, ← hcpu, update_eq_self]
      have hsub : books.task.usedCores - 0 = books.task.usedCores := BitVec.sub_zero _
      rw [hcpus, hsub]
    · rw [if_neg hle] at h1
      cases h1
      exact .inl ⟨hle, rfl, _, rfl⟩

theorem without_scheduled (task : Task) (res : HardwareReservation) : (task.without res).scheduledGpuTokens = task.scheduledGpuTokens := by
  cases res <;> rfl

/-- What giving back leaves as it was, and when it gives all back or nothing. -/
theorem giveAll_cases {books' : Books} {result : Except Error Unit}
    (h : forReservations (giveBack machine) reservations books = .ok (books', result))
    (hknown : ∀ g, (books.gpus g).isSome = (gpus g).isSome) :
    (∀ g, (books'.gpus g).map (·.maxTokens) = (books.gpus g).map (·.maxTokens)) ∧
      books'.task.scheduledGpuTokens = books.task.scheduledGpuTokens ∧
      (AllHeld gpus books.task reservations → result = .ok ()) ∧
      (result = .ok () → AllHeld gpus books.task reservations ∧
        freeOf books'.gpus books'.cpus = freeOf books.gpus books.cpus + demand machine reservations) ∧
      (NothingFirst gpus books.task reservations → books' = books ∧ ∃ e, result = .error e) := by
  have hheld_iff (res : HardwareReservation) : Held books.gpus books.task res ↔ Held gpus books.task res := by
    cases res with
    | gpu id tokens => rw [Held, Held, hknown]
    | cpu cores => exact Iff.rfl
  induction reservations generalizing books with
  | nil =>
    cases h
    exact ⟨fun _ => rfl, rfl, fun _ => rfl, fun _ => ⟨trivial, (add_zero _).symm⟩, fun hnothing => absurd hnothing (fun hfalse => hfalse)⟩
  | cons res reservations ih =>
    obtain ⟨⟨books₁, result₁⟩, hgive, hrest⟩ := bind_ok_iff.mp h
    obtain ⟨hnot, rfl, e, rfl⟩ | ⟨hheld, rfl, htask, hmax, hfree, hidle⟩ := giveBack_cases hgive
    · cases hrest
      exact ⟨fun _ => rfl, rfl, fun hall => absurd ((hheld_iff res).mpr hall.1) hnot, fun heq => (nomatch heq), fun _ => ⟨rfl, e, rfl⟩⟩
    · have hknown1 (g : GpuUuid) : (books₁.gpus g).isSome = (gpus g).isSome := by
        have := congrArg isSome (hmax g)
        rw [isSome_map, isSome_map] at this
        rw [this, hknown]
      obtain ⟨hmax', hscheduled, hall, hgiven, hnothing⟩ := @ih books₁ hrest hknown1 fun res => by
        cases res with
        | gpu id tokens => rw [Held, Held, hknown1]
        | cpu cores => exact Iff.rfl
      refine ⟨fun g => (hmax' g).trans (hmax g), ?_, fun hall' => ?_, fun hok => ?_, fun hnothing' => ?_⟩
      · rw [hscheduled, htask, without_scheduled]
      · rw [htask] at hall
        exact hall hall'.2
      · obtain ⟨hheld', hfree'⟩ := hgiven hok
        rw [htask] at hheld'
        refine ⟨⟨(hheld_iff res).mp hheld, hheld'⟩, ?_⟩
        rw [hfree', hfree, add_assoc]
        rfl
      · obtain ⟨hsettled, hlater⟩ := hnothing'.resolve_left fun hnot => hnot ((hheld_iff res).mp hheld)
        rw [hidle hsettled] at hnothing
        exact hnothing hlater

end VerifiableCompute.Allocator
