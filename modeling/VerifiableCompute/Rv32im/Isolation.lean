import VerifiableCompute.Lib.Checked
import VerifiableCompute.Rv32im.UserMode

/-! User mode is isolated. What a step does in user mode is determined by the view, for
every instruction, and is a write to what belongs to the user or an entry to the kernel
at a dispatch address. -/

namespace VerifiableCompute.Rv32im

open Lib Executor Observation

variable {v : UserView} {s : Executor}

namespace Risc0Machine

theorem getPc_reads (v : UserView) : userMode.Reads getPc v v.pc :=
  fun s hs => ⟨s, by rw [getPc, hs.pc], .refl s⟩

theorem isMachineMode_reads (v : UserView) : userMode.Reads isMachineMode v false :=
  fun s hs => ⟨s, by rw [isMachineMode, hs.mode]; rfl, .refl s⟩

theorem regsBaseAddr_reads (v : UserView) : userMode.Reads regsBaseAddr v userRegs :=
  (isMachineMode_reads v).bind_reads (reads_pure v userRegs)

theorem loadRegister_reads (v : UserView) (idx : Fin 32) : userMode.Reads (loadRegister idx) v (v.regs idx) := by
  refine (regsBaseAddr_reads v).bind_reads fun s hs => ?_
  obtain ⟨s', hrun, hkeeps⟩ := loadRegister_run idx hs.sound
  exact ⟨s', by rw [hrun, hs.regs], hkeeps⟩

variable {addr : ℕ} {word : Word}

theorem loadMemory_reads (haddr : ¬ memoryEndAddr ≤ addr)
    (hword : ∀ s, Sees s v → s.pager.word addr = word) : userMode.Reads (loadMemory addr) v word := by
  intro s hs
  obtain ⟨s', hrun, hkeeps⟩ := loadU32_run .record haddr hs.sound
  exact ⟨s', by rw [loadMemory, hrun, hword s hs], hkeeps⟩

theorem userWord_lt (h : IsUserWord addr) : ¬ memoryEndAddr ≤ addr := by
  have hend : waddr userEndAddr = 0x30000000 := by decide
  have := h.2
  unfold memoryEndAddr
  omega

theorem loadMemory_user (h : IsUserWord addr) : userMode.Reads (loadMemory addr) v (v.memory addr) :=
  loadMemory_reads (userWord_lt h) fun _ hs => hs.memory addr h

theorem loadMemory_ecallDispatch (v : UserView) :
    userMode.Reads (loadMemory (waddr ecallDispatchAddr)) v v.ecallDispatch :=
  loadMemory_reads (by decide) fun _ hs => hs.ecallDispatch

theorem loadMemory_trapDispatch (v : UserView) :
    userMode.Reads (loadMemory (waddr trapDispatchAddr)) v v.trapDispatch :=
  loadMemory_reads (by decide) fun _ hs => hs.trapDispatch

theorem waddr_mono {addr addr' : ByteAddr} (h : addr ≤ addr') : waddr addr ≤ waddr addr' :=
  Nat.div_le_div_right h

theorem isUserWord_of_isUserMemory {addr : ByteAddr} (h : isUserMemory addr) : IsUserWord (waddr addr) := by
  have h := of_decide_eq_true h
  have hlt : addr.toNat < 0xc0000000 := h.2
  have hend : waddr userEndAddr = 0x30000000 := by decide
  refine ⟨waddr_mono h.1, ?_⟩
  rw [hend, waddr]
  omega

theorem checkDataLoad_reads (v : UserView) (addr : ByteAddr) :
    userMode.Reads (checkDataLoad addr) v (isUserMemory addr) := by
  refine (isMachineMode_reads v).bind_reads ?_
  rw [Bool.and_false, Bool.false_or]
  exact reads_pure v _

theorem checkInsnLoad_reads (v : UserView) (addr : ByteAddr) :
    userMode.Reads (checkInsnLoad addr) v (isUserMemory addr) := by
  refine (isMachineMode_reads v).bind_reads ?_
  have heq : (!(decide (addr < zeroPageEndAddr) || (!false && decide (addr ≥ kernelStartAddr)))) = isUserMemory addr := by
    unfold isUserMemory userStartAddr kernelStartAddr
    rw [Bool.eq_iff_iff]
    simp
  rw [heq]
  exact reads_pure v _

theorem dumpRegisters_reads (v : UserView) (isMachineMode : Bool) :
    userMode.Reads (dumpRegisters isMachineMode) v PUnit.unit := by
  refine reads_forM v _ fun i hi s hs => ?_
  have hbase : (if isMachineMode then machineRegs else userRegs) ≤ userRegs := by
    cases isMachineMode <;> decide
  have haddr : ¬ memoryEndAddr ≤ (if isMachineMode then machineRegs else userRegs) + i := by
    have hlt := List.mem_range.mp hi
    have hregs : userRegs + regMax ≤ memoryEndAddr := by decide
    omega
  obtain ⟨s', hrun, hkeeps⟩ := loadU32_run .peek haddr hs.sound
  exact ⟨s', by rw [bind_ok hrun]; rfl, hkeeps⟩

theorem logTrap_reads (v : UserView) (cause : Exception) : userMode.Reads (logTrap cause) v PUnit.unit := by
  unfold logTrap
  split_ifs
  · exact (dumpRegisters_reads v true).bind_reads (dumpRegisters_reads v false)
  · exact reads_pure v _

theorem enterTrap_updates (v : UserView) (dispatchAddr : ByteAddr) :
    userMode.Updates (enterTrap dispatchAddr) v () (.enters dispatchAddr) := by
  refine (isMachineMode_reads v).bind_updates ((getPc_reads v).bind_updates fun s hs => ?_)
  obtain ⟨s', hrun, hstored⟩ := storeU32_run (show ¬ memoryEndAddr ≤ waddr mepcAddr by decide) v.pc hs.sound
  refine ⟨{ s' with pc := dispatchAddr, userPc := v.pc, machineMode := 1 }, ?_, rfl, hs.pc.symm, rfl, fun f hf => ?_⟩
  · rw [storeMemory, bind_ok hrun]
    rfl
  · rw [hs.pc]
    exact hstored.memory f hf

theorem enterTrap_determined {dispatchAddr : ByteAddr} (hdispatch : dispatchAddr = v.ecallDispatch ∨ dispatchAddr = v.trapDispatch)
    (hok : ¬ (!isAligned dispatchAddr || !isKernelMemory dispatchAddr) = true) :
    userMode.Determined Allowed (enterTrap dispatchAddr) v := by
  rw [Bool.or_eq_true, Bool.not_eq_true', Bool.not_eq_true', not_or, Bool.not_eq_false, Bool.not_eq_false] at hok
  exact .updates () _ (enterTrap_updates v dispatchAddr) ⟨hdispatch, hok⟩

theorem fault_determined {α : Type} (v : UserView) (f : Fault) : userMode.Determined Allowed (fault f : Exec α) v :=
  .fails f fun _ _ => rfl

theorem trap_determined (v : UserView) (cause : Exception) : userMode.Determined Allowed (trap cause) v := by
  refine (logTrap_reads v cause).bind ((loadMemory_trapDispatch v).bind ?_)
  split_ifs with hok
  · exact fault_determined v _
  · refine (enterTrap_determined (.inr rfl) hok).bind fun _ => ⟨false, fun s => ⟨_, rfl, rfl, rfl, rfl, fun _ h => h⟩⟩

theorem userEcall_determined (v : UserView) : userMode.Determined Allowed userEcall v := by
  refine (loadMemory_ecallDispatch v).bind ?_
  by_cases hguest : v.ecallDispatch < zeroPageEndAddr
  · rw [guestAddr, if_pos hguest]
    exact .fails _ fun _ _ => rfl
  · rw [guestAddr, if_neg hguest]
    refine (reads_pure v v.ecallDispatch).bind ?_
    split_ifs with hok
    · exact trap_determined v _
    · exact (enterTrap_determined (.inl rfl) hok).bind fun _ => silent_pure true

theorem ecall_determined (machineEcall : Exec Bool) (v : UserView) :
    userMode.Determined Allowed (ecall machineEcall) v :=
  (isMachineMode_reads v).bind (userEcall_determined v)

theorem mret_determined (v : UserView) : userMode.Determined Allowed mret v :=
  (isMachineMode_reads v).bind (fault_determined v _)

section Goes

variable {α : Type} {x : Exec Unit} {k : Exec α} {pc : ByteAddr}

/-- A write and then a jump. -/
theorem goes_updates (a : α) (hx : ∀ s, Sees s v → ∃ s', x s = .ok ((), s') ∧ StoredAt addr word s s')
    (hk : ∀ s : Executor, s.pc = v.pc → k s = .ok (a, { s with pc := pc })) :
    userMode.Updates (x >>= fun _ => k) v a (.goes pc (some (addr, word))) := by
  intro s hs
  obtain ⟨s', hrun, hstored⟩ := hx s hs
  refine ⟨{ s' with pc := pc }, ?_, rfl, hstored.userPc, hstored.mode, hstored.memory⟩
  rw [bind_ok hrun, hk s' (hstored.pc.trans hs.pc)]

theorem goes_determined (a : α) (pc : ByteAddr)
    (hx : ∀ s, Sees s v → ∃ s', x s = .ok ((), s') ∧ StoredAt addr word s s') (haddr : UserWritable addr)
    (hk : ∀ s : Executor, s.pc = v.pc → k s = .ok (a, { s with pc := pc })) :
    userMode.Determined Allowed (x >>= fun _ => k) v := by
  refine .updates a (.goes pc (some (addr, word))) (goes_updates a hx hk) fun w hw => ?_
  rw [Option.mem_some_iff] at hw
  exact hw ▸ haddr

end Goes

def registerAddr (idx : Fin 32) : ℕ := if idx = 0 then shuntAddr else userRegs + idx

theorem registerAddr_writable (idx : Fin 32) : UserWritable (registerAddr idx) := by
  unfold registerAddr
  split_ifs
  · exact .inr (.inr rfl)
  · exact .inr (.inl ⟨idx, rfl⟩)

theorem storeRegister_stored (idx : Fin 32) (word : Word) (hs : Sees s v) :
    ∃ s', storeRegister idx word s = .ok ((), s') ∧ StoredAt (registerAddr idx) word s s' := by
  obtain ⟨s', hbase, hkeeps⟩ := regsBaseAddr_reads v s hs
  have hs' := hkeeps.sees hs
  unfold registerAddr
  rw [storeRegister, bind_ok hbase]
  have hstored : ∃ s'', (if idx = 0 then storeU32 (userRegs + regMax * 2) word
      else Executor.storeRegister userRegs idx word) s' = .ok ((), s'') ∧
      StoredAt (if idx = 0 then shuntAddr else userRegs + idx) word s' s'' := by
    split_ifs
    · exact storeU32_run (by decide) word hs'.sound
    · exact storeRegister_run idx word hs'.sound
  obtain ⟨s'', hrun, hstored⟩ := hstored
  exact ⟨s'', hrun, hstored.pc.trans hkeeps.pc, hstored.userPc.trans hkeeps.userPc, hstored.mode.trans hkeeps.mode,
    fun f hf => hstored.memory f (hkeeps.memory f hf)⟩

theorem storeMemory_stored (haddr : IsUserWord addr) (word : Word) (hs : Sees s v) :
    ∃ s', storeMemory addr word s = .ok ((), s') ∧ StoredAt addr word s s' :=
  storeU32_run (userWord_lt haddr) word hs.sound

end Risc0Machine

/-- The dispatch address is one that a trap may enter. -/
def DispatchOk (addr : ByteAddr) : Prop := isAligned addr ∧ isKernelMemory addr

/-- The computation enters the trap handler, if there is a valid one, and fails otherwise. -/
structure Traps {α : Type} (x : Exec α) (v : UserView) : Prop where
  enters : DispatchOk v.trapDispatch → ∃ a, userMode.Updates x v a (.enters v.trapDispatch)
  fails : ¬DispatchOk v.trapDispatch → ∃ e, userMode.Fails x v e

section Traps

open Risc0Machine

variable {α β : Type} {x : Exec α} {k : α → Exec β} {a : α}

theorem Traps.after (hx : userMode.Reads x v a) (hk : Traps (k a) v) : Traps (x >>= k) v where
  enters h := (hk.enters h).imp fun _ => hx.bind_updates
  fails h := (hk.fails h).imp fun _ => hx.bind_fails

theorem Traps.bind (hx : Traps x v) (hk : ∀ a, userMode.Silent (k a)) : Traps (x >>= k) v where
  enters h := by
    obtain ⟨a, ha⟩ := hx.enters h
    obtain ⟨b, hb⟩ := hk a
    refine ⟨b, fun s hs => ?_⟩
    obtain ⟨s', hrun, happlies⟩ := ha s hs
    obtain ⟨s'', hrun', hkeeps⟩ := hb s'
    exact ⟨s'', by rw [bind_ok hrun, hrun'], userMode.keeps_of_applies happlies hkeeps⟩
  fails h := (hx.fails h).imp fun _ => Observation.Fails.bind

theorem trap_traps (v : UserView) (cause : Exception) : Traps (trap cause) v := by
  refine (Traps.after (logTrap_reads v cause) (Traps.after (loadMemory_trapDispatch v) ?_))
  by_cases hok : DispatchOk v.trapDispatch
  · rw [if_neg (by rw [hok.1, hok.2]; decide)]
    refine ⟨fun _ => ⟨false, fun s hs => ?_⟩, fun h => absurd hok h⟩
    obtain ⟨s', hrun, happlies⟩ := enterTrap_updates v v.trapDispatch s hs
    refine ⟨{ s' with userCycles := s'.userCycles + 1 }, ?_, happlies.pc, happlies.userPc, happlies.mode, happlies.memory⟩
    rw [bind_ok hrun]
    rfl
  · have hbad : (!isAligned v.trapDispatch || !isKernelMemory v.trapDispatch) = true := by
      rw [Bool.or_eq_true, Bool.not_eq_true', Bool.not_eq_true', ← Bool.not_eq_true, ← Bool.not_eq_true]
      exact not_and_or.mp hok
    rw [if_pos hbad]
    exact ⟨fun h => absurd h hok, fun _ => ⟨_, fun _ _ => rfl⟩⟩

end Traps

namespace Emulator

open Risc0Machine

theorem trapped_determined (v : UserView) (kind : InsnKind) (cause : Exception) :
    userMode.Determined Allowed (trapped kind cause) v :=
  (trap_determined v cause).bind fun normal => silent_pure (if normal then some kind else none)

/-- The second operand is not loaded again when it is the first. -/
theorem loadRs2_reads (v : UserView) (d : DecodedInstruction) :
    userMode.Reads (loadRs2 d (v.regs (regIdx d.rs1))) v (v.regs (regIdx d.rs2)) := by
  unfold loadRs2
  split_ifs with hsame
  · rw [hsame]
    exact reads_pure v _
  · exact loadRegister_reads v _

theorem reachable_determined {α β : Type} {o : Option α} {k : α → Exec β}
    (hk : ∀ a, userMode.Determined Allowed (k a) v) : userMode.Determined Allowed (reachable o >>= k) v := by
  cases o with
  | none => exact .fails .panicked fun _ _ => rfl
  | some a => exact (reads_pure v a).bind (hk a)

section

variable (v : UserView) (kind : InsnKind) (d : DecodedInstruction)

theorem stepCompute_determined : userMode.Determined Allowed (stepCompute kind d) v := by
  refine (getPc_reads v).bind ((loadRegister_reads v _).bind ((loadRs2_reads v d).bind (reachable_determined fun r => ?_)))
  obtain ⟨out, newPc⟩ := r
  dsimp only
  split_ifs
  · exact trapped_determined v kind _
  · exact goes_determined (some kind) newPc (fun s hs => storeRegister_stored _ out hs) (registerAddr_writable _)
      fun s _ => rfl

theorem stepBranch_determined (circuitVersion : ℕ) (v : UserView) (kind : InsnKind) (d : DecodedInstruction) :
    userMode.Determined Allowed (stepBranch circuitVersion kind d) v := by
  refine (getPc_reads v).bind ((loadRegister_reads v _).bind ((loadRs2_reads v d).bind (reachable_determined fun brCond => ?_)))
  dsimp only
  generalize (if brCond = true then v.pc + d.immB else v.pc + wordSize) = newPc
  split_ifs
  · exact trapped_determined v kind _
  · exact goes_determined (some kind) newPc (fun s hs => storeRegister_stored 0 0 hs) (registerAddr_writable 0)
      fun s _ => rfl
  · exact .updates (some kind) (.goes newPc none) (fun s _ => ⟨_, rfl, rfl, rfl, rfl, fun f hf => hf⟩)
      (fun w hw => by cases hw)

theorem stepLoad_determined : userMode.Determined Allowed (stepLoad kind d) v := by
  refine (loadRegister_reads v _).bind ((checkDataLoad_reads v _).bind ?_)
  split_ifs with hallowed
  · exact trapped_determined v kind _
  · have huser : IsUserWord (waddr (v.regs (regIdx d.rs1) + d.immI)) := isUserWord_of_isUserMemory (by simpa using hallowed)
    refine (loadMemory_user huser).bind (reachable_determined fun out => ?_)
    cases out with
    | none => exact trapped_determined v kind _
    | some out =>
      refine goes_determined (some kind) (v.pc + wordSize) (fun s hs => storeRegister_stored _ out hs)
        (registerAddr_writable _) fun s hpc => ?_
      rw [← hpc]
      rfl

theorem stepStore_determined : userMode.Determined Allowed (stepStore kind d) v := by
  refine (loadRegister_reads v _).bind ((loadRs2_reads v d).bind ((checkDataLoad_reads v _).bind ?_))
  split_ifs with hallowed
  · exact trapped_determined v kind _
  · have huser : IsUserWord (waddr (v.regs (regIdx d.rs1) + d.immS)) := isUserWord_of_isUserMemory (by simpa using hallowed)
    refine (loadMemory_user huser).bind (reachable_determined fun out => ?_)
    cases out with
    | none => exact trapped_determined v kind _
    | some out =>
      refine goes_determined (some kind) (v.pc + wordSize) (fun s hs => storeMemory_stored huser out hs) (.inl huser)
        fun s hpc => ?_
      rw [← hpc]
      rfl

end

theorem stepSystem_determined (machineEcall : Exec Bool) (v : UserView) (kind : InsnKind) (d : DecodedInstruction) :
    userMode.Determined Allowed (stepSystem machineEcall kind d) v := by
  have hcall : userMode.Determined Allowed (systemCall machineEcall kind d) v := by
    unfold systemCall
    split
    · split_ifs
      · exact ecall_determined machineEcall v
      · exact trap_determined v _
      · exact trap_determined v _
    · exact mret_determined v
    · exact fault_determined v _
  exact hcall.bind fun normal => silent_pure (if normal then some kind else none)

theorem execRv32im_determined (circuitVersion : ℕ) (machineEcall : Exec Bool) (v : UserView) (word : Word) :
    userMode.Determined Allowed (execRv32im circuitVersion machineEcall word) v := by
  unfold execRv32im
  dsimp only
  split
  · split
    · exact stepCompute_determined v _ _
    · exact stepLoad_determined v _ _
    · exact stepStore_determined v _ _
    · exact stepBranch_determined circuitVersion v _ _
    · exact stepSystem_determined machineEcall v _ _
  · exact trapped_determined v _ _

theorem step_determined (circuitVersion : ℕ) (machineEcall : Exec Bool) (v : UserView) :
    userMode.Determined Allowed (step circuitVersion machineEcall) v := by
  refine (getPc_reads v).bind ((checkInsnLoad_reads v _).bind ?_)
  split_ifs with hallowed
  · exact (trap_determined v _).bind fun _ => silent_pure PUnit.unit
  · refine (loadMemory_user (isUserWord_of_isUserMemory (by simpa using hallowed))).bind ?_
    split_ifs
    · exact (trap_determined v _).bind fun _ => silent_pure PUnit.unit
    · refine (execRv32im_determined circuitVersion machineEcall v _).bind fun kind => ?_
      cases kind with
      | none => exact silent_pure PUnit.unit
      | some kind => exact ⟨(), fun s => ⟨_, rfl, rfl, rfl, rfl, fun _ h => h⟩⟩

section Compute

variable {circuitVersion : ℕ} {machineEcall : Exec Bool} {d : DecodedInstruction} {out : Word} {newPc : ByteAddr}

theorem stepCompute_updates {kind : InsnKind}
    (hout : computeOut kind d v.pc (v.regs (regIdx d.rs1)) (v.regs (regIdx d.rs2)) = some (out, newPc))
    (haligned : isAligned newPc = true) :
    userMode.Updates (stepCompute kind d) v (some kind) (.goes newPc (some (registerAddr (regIdx d.rd), out))) := by
  refine (getPc_reads v).bind_updates ((loadRegister_reads v _).bind_updates ((loadRs2_reads v d).bind_updates ?_))
  rw [hout]
  refine (reads_pure v (out, newPc)).bind_updates ?_
  dsimp only
  rw [if_neg (by rw [haligned]; decide)]
  exact goes_updates (some kind) (fun s hs => storeRegister_stored _ out hs) fun s _ => rfl

/-- An instruction of user memory that computes writes its register and goes on. -/
theorem step_computes {e : Entry} (hpc : isUserMemory v.pc = true) (hfour : v.memory (waddr v.pc) &&& 0x03#32 = 0x03#32)
    (hd : DecodedInstruction.new (v.memory (waddr v.pc)) = d) (hfind : entries.find? (fun e => e.isFor d) = some e)
    (hstep : e.step = .compute)
    (hout : computeOut e.kind d v.pc (v.regs (regIdx d.rs1)) (v.regs (regIdx d.rs2)) = some (out, newPc))
    (haligned : isAligned newPc = true) :
    userMode.Updates (step circuitVersion machineEcall) v () (.goes newPc (some (registerAddr (regIdx d.rd), out))) := by
  refine (getPc_reads v).bind_updates ((checkInsnLoad_reads v _).bind_updates ?_)
  rw [if_neg (by rw [hpc]; decide)]
  refine (loadMemory_user (isUserWord_of_isUserMemory hpc)).bind_updates ?_
  rw [if_neg (not_not.mpr hfour)]
  have hexec : execRv32im circuitVersion machineEcall (v.memory (waddr v.pc)) = stepCompute e.kind d := by
    unfold execRv32im
    dsimp only
    rw [hd, hfind]
    dsimp only
    rw [hstep]
  rw [hexec]
  intro s hs
  obtain ⟨s', hrun, happlies⟩ := stepCompute_updates hout haligned s hs
  refine ⟨{ s' with userCycles := s'.userCycles + 1 }, ?_, happlies.pc, happlies.userPc, happlies.mode, happlies.memory⟩
  rw [bind_ok hrun]
  rfl

/-- A word that is no instruction is trapped. -/
theorem step_illegal (hpc : isUserMemory v.pc = true) (hfour : v.memory (waddr v.pc) &&& 0x03#32 ≠ 0x03#32) :
    Traps (step circuitVersion machineEcall) v := by
  refine Traps.after (getPc_reads v) (Traps.after (checkInsnLoad_reads v _) ?_)
  rw [if_neg (by rw [hpc]; decide)]
  refine Traps.after (loadMemory_user (isUserWord_of_isUserMemory hpc)) ?_
  rw [if_pos hfour]
  exact (trap_traps v _).bind fun _ => silent_pure PUnit.unit

end Compute

end Emulator

namespace Executor

/-- The memory is one that operations on it lead to. -/
def Sound (s : Executor) : Prop := ∃ f, s.pager.Refines f

/-- Still in user mode, with everything but user memory, the user registers and the
shunt as it was. -/
structure StaysInUserMode (s s' : Executor) : Prop where
  mode : s'.machineMode = 0
  memory : ∀ addr, ¬ UserWritable addr → s'.pager.word addr = s.pager.word addr

/-- In the kernel at a dispatch address, with the old program counter saved and every
other word as it was. -/
structure EntersKernel (s s' : Executor) : Prop where
  mode : s'.machineMode = 1
  pc : s'.pc = s.pager.word (waddr ecallDispatchAddr) ∨ s'.pc = s.pager.word (waddr trapDispatchAddr)
  aligned : s'.pc.toNat % 4 = 0
  kernel : kernelStartAddr ≤ s'.pc ∧ s'.pc < kernelEndAddr
  mepc : s'.pager.word (waddr mepcAddr) = s.pc
  memory : ∀ addr, addr ≠ waddr mepcAddr → s'.pager.word addr = s.pager.word addr

structure SameUser (s₁ s₂ : Executor) : Prop where
  pc : s₁.pc = s₂.pc
  regs : ∀ i : Fin 32, s₁.pager.word (userRegs + i) = s₂.pager.word (userRegs + i)
  memory : ∀ addr, IsUserWord addr → s₁.pager.word addr = s₂.pager.word addr
  ecallDispatch : s₁.pager.word (waddr ecallDispatchAddr) = s₂.pager.word (waddr ecallDispatchAddr)
  trapDispatch : s₁.pager.word (waddr trapDispatchAddr) = s₂.pager.word (waddr trapDispatchAddr)

variable {s' s₁ s₂ s₁' s₂' : Executor} {u : UserUpdate}

def view (s : Executor) : UserView where
  pc := s.pc
  regs i := s.pager.word (userRegs + i)
  memory := s.pager.word
  ecallDispatch := s.pager.word (waddr ecallDispatchAddr)
  trapDispatch := s.pager.word (waddr trapDispatchAddr)

theorem sees_view (hs : s.Sound) (hmode : s.machineMode = 0) : Sees s s.view :=
  ⟨hmode, rfl, hs, fun _ => rfl, fun _ _ => rfl, rfl, rfl⟩

theorem SameUser.sees (h : SameUser s₁ s₂) (hs : s₁.Sound) (hmode : s₁.machineMode = 0) : Sees s₁ s₂.view :=
  ⟨hmode, h.pc, hs, h.regs, h.memory, h.ecallDispatch, h.trapDispatch⟩

variable {write : Option (ℕ × Word)}

theorem Applied.word {pc userPc : ByteAddr} {mode : Word}
    (h : Applied pc userPc mode write s s') (hs : s.Sound) (addr : ℕ) :
    s'.pager.word addr = write.elim (s.pager.word addr) fun w => if addr = w.1 then w.2 else s.pager.word addr := by
  obtain ⟨f, hf⟩ := hs
  rw [(h.memory f hf).words, hf.words]
  cases write with
  | none => rfl
  | some w =>
    show Function.update f.words w.1 w.2 addr = _
    rw [Function.update_apply]
    rfl

theorem isolated_of_applies (hs : s.Sound) (hmode : s.machineMode = 0) (hu : Allowed s.view u) (h : Applies u s s') :
    StaysInUserMode s s' ∨ EntersKernel s s' := by
  cases u with
  | goes pc write =>
    refine .inl ⟨h.mode.trans hmode, fun addr haddr => ?_⟩
    rw [Applied.word h hs]
    cases write with
    | none => rfl
    | some w =>
      have hne : addr ≠ w.1 := by
        rintro rfl
        exact haddr (hu w rfl)
      exact if_neg hne
  | enters dispatchAddr =>
    obtain ⟨hdispatch, haligned, hkernel⟩ := hu
    have hword := Applied.word h hs
    refine .inr ⟨h.mode, ?_, ?_, ?_, ?_, fun addr haddr => ?_⟩
    · rw [h.pc]
      exact hdispatch
    · rw [h.pc]
      exact of_decide_eq_true haligned
    · rw [h.pc]
      exact of_decide_eq_true hkernel
    · rw [hword, Option.elim_some, if_pos rfl]
    · rw [hword, Option.elim_some, if_neg haddr]

theorem word_agree {pc₁ pc₂ userPc₁ userPc₂ : ByteAddr} {mode₁ mode₂ : Word}
    (h1 : Applied pc₁ userPc₁ mode₁ write s₁ s₁') (h2 : Applied pc₂ userPc₂ mode₂ write s₂ s₂')
    (hs1 : s₁.Sound) (hs2 : s₂.Sound) {addr : ℕ} (h : s₁.pager.word addr = s₂.pager.word addr) :
    s₁'.pager.word addr = s₂'.pager.word addr := by
  rw [h1.word hs1, h2.word hs2, h]

theorem agree_of_applies (hs1 : s₁.Sound) (hs2 : s₂.Sound) (hmode1 : s₁.machineMode = 0) (hmode2 : s₂.machineMode = 0)
    (h : SameUser s₁ s₂) (h1 : Applies u s₁ s₁') (h2 : Applies u s₂ s₂') :
    SameUser s₁' s₂' ∧ s₁'.machineMode = s₂'.machineMode ∧
      (s₁'.machineMode = 1 → s₁'.pager.word (waddr mepcAddr) = s₂'.pager.word (waddr mepcAddr)) := by
  cases u with
  | goes pc write =>
    have hword (addr : ℕ) : s₁.pager.word addr = s₂.pager.word addr → s₁'.pager.word addr = s₂'.pager.word addr :=
      word_agree h1 h2 hs1 hs2
    refine ⟨⟨h1.pc.trans h2.pc.symm, fun i => hword _ (h.regs i), fun addr haddr => hword _ (h.memory addr haddr),
      hword _ h.ecallDispatch, hword _ h.trapDispatch⟩, ?_, fun hmode => ?_⟩
    · rw [h1.mode, h2.mode, hmode1, hmode2]
    · rw [h1.mode, hmode1] at hmode
      exact absurd hmode (by decide)
  | enters dispatchAddr =>
    have h2 : Applied dispatchAddr s₁.pc 1 (some (waddr mepcAddr, s₁.pc)) s₂ s₂' := h.pc ▸ h2
    have hword (addr : ℕ) : s₁.pager.word addr = s₂.pager.word addr → s₁'.pager.word addr = s₂'.pager.word addr :=
      word_agree h1 h2 hs1 hs2
    refine ⟨⟨h1.pc.trans h2.pc.symm, fun i => hword _ (h.regs i), fun addr haddr => hword _ (h.memory addr haddr),
      hword _ h.ecallDispatch, hword _ h.trapDispatch⟩, h1.mode.trans h2.mode.symm, fun _ => ?_⟩
    rw [Applied.word h1 hs1, Applied.word h2 hs2, Option.elim_some, Option.elim_some, if_pos rfl, if_pos rfl]

/-- A step of user mode stays within what belongs to the user or enters the kernel where
the kernel says, and two states that look alike to the user step alike. -/
theorem user_mode_isolated (circuitVersion : ℕ) (machineEcall : Exec Bool) :
    (∀ s s' : Executor, s.Sound → s.machineMode = 0 → Emulator.step circuitVersion machineEcall s = .ok ((), s') →
      StaysInUserMode s s' ∨ EntersKernel s s') ∧
    ∀ s₁ s₂ : Executor, s₁.Sound → s₂.Sound → s₁.machineMode = 0 → s₂.machineMode = 0 → SameUser s₁ s₂ →
      (∃ e, Emulator.step circuitVersion machineEcall s₁ = .error e ∧
        Emulator.step circuitVersion machineEcall s₂ = .error e) ∨
      ∃ s₁' s₂', Emulator.step circuitVersion machineEcall s₁ = .ok ((), s₁') ∧
        Emulator.step circuitVersion machineEcall s₂ = .ok ((), s₂') ∧ SameUser s₁' s₂' ∧
        s₁'.machineMode = s₂'.machineMode ∧
        (s₁'.machineMode = 1 → s₁'.pager.word (waddr mepcAddr) = s₂'.pager.word (waddr mepcAddr)) := by
  constructor
  · intro s s' hs hmode hstep
    obtain ⟨u, hu, happlies⟩ :=
      (Emulator.step_determined circuitVersion machineEcall s.view).confined (sees_view hs hmode) hstep
    exact isolated_of_applies hs hmode hu happlies
  · intro s₁ s₂ hs₁ hs₂ hmode₁ hmode₂ hsame
    rcases (Emulator.step_determined circuitVersion machineEcall s₂.view).agree (hsame.sees hs₁ hmode₁)
      (sees_view hs₂ hmode₂) with herror | ⟨⟨⟩, u, s₁', s₂', -, hrun₁, happlies₁, hrun₂, happlies₂⟩
    · exact .inl herror
    · exact .inr ⟨s₁', s₂', hrun₁, hrun₂, agree_of_applies hs₁ hs₂ hmode₁ hmode₂ hsame happlies₁ happlies₂⟩

theorem sound_of_run {image : MemoryImage} {tracingEnabled : Bool} {m m' : PagedMemory}
    (h : PagedMemory.new image tracingEnabled = some m) {ops : List MemoryOp} (hops : ∀ op ∈ ops, op.Valid)
    {os : List MemoryAnswer} (hrun : runOps MemoryOp.exec ops m = some (os, m')) (hs : s.pager = m') : s.Sound := by
  obtain ⟨os', m'', hrun', -, hrefines⟩ :=
    simulate MemoryAnswer.flat PagedMemory.Refines MemoryOp.Valid PagedMemory.exec_spec ops hops m _
      (PagedMemory.new_spec h)
  rw [hrun] at hrun'
  cases hrun'
  exact ⟨_, hs ▸ hrefines⟩

/-- An image with a kernel, whose trap handler is at the start of kernel memory. -/
def kernelImage : MemoryImage where
  pages := OrderedMap.empty.insert (pageIdx (waddr trapDispatchAddr))
    (Page.zero.store (waddr trapDispatchAddr) kernelStartAddr)
  isZero := fun _ => true

/-- A jump to the zero page ends in the trap handler. -/
theorem user_mode_isolated_sample : ∃ m s', PagedMemory.new kernelImage false = some m ∧
      Emulator.step 3 (fault .panicked) ⟨0, 0, 0, 0, m⟩ = .ok ((), s') ∧ EntersKernel ⟨0, 0, 0, 0, m⟩ s' := by
  have hmode : ((PagedMemory.new kernelImage false).bind fun m =>
      (Emulator.step 3 (fault .panicked) ⟨0, 0, 0, 0, m⟩).toOption.map fun r => r.2.machineMode) = some 1 := by
    with_unfolding_all (set_option maxRecDepth 100000 in decide)
  obtain ⟨m, hm, hmode⟩ := Option.bind_eq_some_iff.mp hmode
  obtain ⟨⟨⟨⟩, s'⟩, hstep, hmode⟩ := Option.map_eq_some_iff.mp hmode
  have hstep : Emulator.step 3 (fault .panicked) ⟨0, 0, 0, 0, m⟩ = .ok ((), s') := by
    cases hrun : Emulator.step 3 (fault .panicked) ⟨0, 0, 0, 0, m⟩ with
    | error e =>
      rw [hrun] at hstep
      cases hstep
    | ok r =>
      rw [hrun] at hstep
      exact congrArg _ (Option.some.inj hstep)
  have hsound : Sound ⟨0, 0, 0, 0, m⟩ := sound_of_run hm (List.forall_mem_nil MemoryOp.Valid) rfl rfl
  refine ⟨m, s', hm, hstep, ?_⟩
  rcases (user_mode_isolated 3 (fault .panicked)).1 _ s' hsound rfl hstep with hstays | henters
  · exact absurd (hstays.mode.symm.trans hmode) (by decide)
  · exact henters

/-- Steps until the kernel is entered, `n` at most. -/
def runUser (circuitVersion : ℕ) (machineEcall : Exec Bool) : ℕ → Exec Unit
  | 0 => pure ()
  | n + 1 => fun s =>
    if s.machineMode = 0 then (do
      Emulator.step circuitVersion machineEcall
      runUser circuitVersion machineEcall n) s
    else .ok ((), s)

variable {circuitVersion : ℕ} {machineEcall : Exec Bool} {n : ℕ}

theorem runUser_succ (hmode : s.machineMode = 0) : runUser circuitVersion machineEcall (n + 1) s =
    (Emulator.step circuitVersion machineEcall s).bind fun r => runUser circuitVersion machineEcall n r.2 :=
  if_pos hmode

theorem runUser_kernel (hmode : s.machineMode = 1) : runUser circuitVersion machineEcall n s = .ok ((), s) := by
  cases n with
  | zero => rfl
  | succ n => exact if_neg (by rw [hmode]; decide)

/-- A step leaves the memory sound, and writes where the user may or enters the kernel. -/
theorem step_applies (hs : s.Sound) (hmode : s.machineMode = 0) (h : Emulator.step circuitVersion machineEcall s = .ok ((), s')) :
    s'.Sound ∧ ∃ u, Allowed s.view u ∧ Applies u s s' := by
  obtain ⟨u, hu, happlies⟩ := (Emulator.step_determined circuitVersion machineEcall s.view).confined (sees_view hs hmode) h
  refine ⟨?_, u, hu, happlies⟩
  obtain ⟨f, hf⟩ := hs
  cases u with
  | goes pc write => exact ⟨_, happlies.memory f hf⟩
  | enters dispatchAddr => exact ⟨_, happlies.memory f hf⟩

theorem StaysInUserMode.refl (hmode : s.machineMode = 0) : StaysInUserMode s s := ⟨hmode, fun _ _ => rfl⟩

theorem StaysInUserMode.trans {s'' : Executor} (h : StaysInUserMode s s') (h' : StaysInUserMode s' s'') : StaysInUserMode s s'' :=
  ⟨h'.mode, fun addr haddr => (h'.memory addr haddr).trans (h.memory addr haddr)⟩

theorem runUser_confined (hs : s.Sound) (hmode : s.machineMode = 0) (h : runUser circuitVersion machineEcall n s = .ok ((), s')) :
    StaysInUserMode s s' ∨ ∃ s₁, StaysInUserMode s s₁ ∧ EntersKernel s₁ s' := by
  induction n generalizing s with
  | zero =>
    cases h
    exact .inl (.refl hmode)
  | succ n ih =>
    rw [runUser_succ hmode] at h
    obtain ⟨⟨⟨⟩, s₁⟩, hstep, h⟩ := bind_ok_iff.mp h
    obtain ⟨hs1, u, hu, happlies⟩ := step_applies hs hmode hstep
    rcases isolated_of_applies hs hmode hu happlies with hstays | henters
    · rcases ih hs1 hstays.mode h with hstays' | ⟨s₂, hstays', henters⟩
      · exact .inl (hstays.trans hstays')
      · exact .inr ⟨s₂, hstays.trans hstays', henters⟩
    · rw [runUser_kernel henters.mode] at h
      cases h
      exact .inr ⟨s, .refl hmode, henters⟩

/-- A computation fails alike from two states, or ends in two that look alike to the user and hand the same to the kernel. -/
def Alike (x : Exec Unit) (s₁ s₂ : Executor) : Prop :=
  (∃ e, x s₁ = .error e ∧ x s₂ = .error e) ∨
    ∃ s₁' s₂', x s₁ = .ok ((), s₁') ∧ x s₂ = .ok ((), s₂') ∧ SameUser s₁' s₂' ∧ s₁'.machineMode = s₂'.machineMode ∧
      (s₁'.machineMode = 1 → s₁'.pager.word (waddr mepcAddr) = s₂'.pager.word (waddr mepcAddr))

theorem runUser_alike (hs1 : s₁.Sound) (hs2 : s₂.Sound) (hmode1 : s₁.machineMode = 0) (hmode2 : s₂.machineMode = 0)
    (h : SameUser s₁ s₂) : Alike (runUser circuitVersion machineEcall n) s₁ s₂ := by
  induction n generalizing s₁ s₂ with
  | zero =>
    refine .inr ⟨s₁, s₂, rfl, rfl, h, hmode1.trans hmode2.symm, fun hmode => ?_⟩
    exact absurd (hmode1.symm.trans hmode) (by decide)
  | succ n ih =>
    rw [Alike, runUser_succ hmode1, runUser_succ hmode2]
    rcases (Emulator.step_determined circuitVersion machineEcall s₂.view).agree (h.sees hs1 hmode1)
      (sees_view hs2 hmode2) with ⟨e, he1, he2⟩ | ⟨⟨⟩, u, s₁', s₂', hu, hrun1, happlies1, hrun2, happlies2⟩
    · exact .inl ⟨e, by rw [he1]; rfl, by rw [he2]; rfl⟩
    rw [hrun1, hrun2]
    obtain ⟨hsame, hmode, hmepc⟩ := agree_of_applies hs1 hs2 hmode1 hmode2 h happlies1 happlies2
    rcases isolated_of_applies hs2 hmode2 hu happlies2 with hstays | henters
    · exact ih (step_applies hs1 hmode1 hrun1).1 (step_applies hs2 hmode2 hrun2).1 (hmode.trans hstays.mode) hstays.mode hsame
    · have henters1 := hmode.trans henters.mode
      exact .inr ⟨s₁', s₂', runUser_kernel henters1, runUser_kernel henters.mode, hsame, hmode, hmepc⟩

/-- A run of a user program changes nothing but what belongs to the user, until it enters the kernel where the kernel
says; and what it does is a function of what the user sees, so that nothing else flows into it. -/
theorem user_runs_isolated (circuitVersion : ℕ) (machineEcall : Exec Bool) (n : ℕ) :
    (∀ s s' : Executor, s.Sound → s.machineMode = 0 → runUser circuitVersion machineEcall n s = .ok ((), s') →
      StaysInUserMode s s' ∨ ∃ s₁, StaysInUserMode s s₁ ∧ EntersKernel s₁ s') ∧
    ∀ s₁ s₂ : Executor, s₁.Sound → s₂.Sound → s₁.machineMode = 0 → s₂.machineMode = 0 → SameUser s₁ s₂ →
      Alike (runUser circuitVersion machineEcall n) s₁ s₂ :=
  ⟨fun _ _ hs hmode h => runUser_confined hs hmode h, fun _ _ hs₁ hs₂ hmode₁ hmode₂ h => runUser_alike hs₁ hs₂ hmode₁ hmode₂ h⟩

/-- A user program that puts 7 into `x1`, with no instruction behind it. -/
def addiImage : MemoryImage where
  pages := kernelImage.pages.insert (pageIdx (waddr userStartAddr)) (Page.zero.store (waddr userStartAddr) 0x00700093)
  isZero := fun _ => true

/-- The row of the decoder for `addi x1, x0, 7`. -/
theorem entries_addi : entries.find? (fun e => e.isFor (.new 0x00700093)) = some ⟨0b0010011, some 0b000, none, .compute, .addI⟩ := by
  simp [entries, Entry.isFor, DecodedInstruction.new]

theorem step_addi (hpc : s.pc = userStartAddr) (hword : s.pager.word (waddr userStartAddr) = 0x00700093) (hx0 : s.pager.word userRegs = 0) :
    userMode.Updates (Emulator.step circuitVersion machineEcall) s.view () (.goes (userStartAddr + 4) (some (userRegs + 1, 7))) := by
  have hfetch : s.view.memory (waddr s.view.pc) = 0x00700093 := by
    rw [← hword, ← hpc]
    rfl
  refine Emulator.step_computes ?_ (by rw [hfetch]; decide) (by rw [hfetch]) entries_addi rfl ?_ (by decide)
  · show isUserMemory s.pc = true
    rw [hpc]
    decide
  · show some (s.pager.word userRegs + _, s.pc + _) = _
    rw [hx0, hpc]
    rfl

theorem step_behind (hpc : s.pc = userStartAddr + 4) (hword : s.pager.word (waddr (userStartAddr + 4)) = 0) :
    Traps (Emulator.step circuitVersion machineEcall) s.view := by
  refine Emulator.step_illegal ?_ ?_
  · show isUserMemory s.pc = true
    rw [hpc]
    decide
  · show s.pager.word (waddr s.pc) &&& _ ≠ _
    rw [hpc, hword]
    decide

theorem addi_traps (circuitVersion : ℕ) (machineEcall : Exec Bool) (n : ℕ) (hs : s.Sound) (hmode : s.machineMode = 0) (hpc : s.pc = userStartAddr)
    (hword : s.pager.word (waddr userStartAddr) = 0x00700093) (hend : s.pager.word (waddr (userStartAddr + 4)) = 0)
    (hdispatch : s.pager.word (waddr trapDispatchAddr) = kernelStartAddr) (hx0 : s.pager.word userRegs = 0) :
    ∃ s', runUser circuitVersion machineEcall (n + 2) s = .ok ((), s') ∧ s'.machineMode = 1 ∧ s'.pager.word (userRegs + 1) = 7 := by
  obtain ⟨s₁, hrun, happlies⟩ := step_addi hpc hword hx0 s (sees_view hs hmode)
  obtain ⟨hs1, -⟩ := step_applies hs hmode hrun
  have hmode1 : s₁.machineMode = 0 := happlies.mode.trans hmode
  have hwords : ∀ addr, s₁.pager.word addr = if addr = userRegs + 1 then 7 else s.pager.word addr := happlies.word hs
  have htraps : Traps (Emulator.step circuitVersion machineEcall) s₁.view :=
    step_behind happlies.pc ((hwords _).trans ((if_neg (by decide)).trans hend))
  have htrap : s₁.view.trapDispatch = kernelStartAddr := (hwords _).trans ((if_neg (by decide)).trans hdispatch)
  obtain ⟨⟨⟩, henter⟩ := htraps.enters (by rw [htrap]; exact ⟨by decide, by decide⟩)
  obtain ⟨s₂, hrun', happlies'⟩ := henter s₁ (sees_view hs1 hmode1)
  refine ⟨s₂, ?_, happlies'.mode, ?_⟩
  · rw [runUser_succ hmode, hrun]
    show runUser circuitVersion machineEcall (n + 1) s₁ = _
    rw [runUser_succ hmode1, hrun']
    exact runUser_kernel happlies'.mode
  · rw [happlies'.word hs1, Option.elim_some, hwords, if_pos rfl]
    exact if_neg (show userRegs + 1 ≠ waddr mepcAddr by decide)

/-- The program ends in the trap handler, and a word of the kernel makes no difference to it. -/
theorem user_runs_isolated_secret :
    ∃ m m' s', PagedMemory.new addiImage false = some m ∧ runUser 3 (fault .panicked) 4 ⟨userStartAddr, 0, 0, 0, m⟩ = .ok ((), s') ∧
      s'.pager.word (userRegs + 1) = 7 ∧ (∃ s₁, StaysInUserMode ⟨userStartAddr, 0, 0, 0, m⟩ s₁ ∧ EntersKernel s₁ s') ∧
      m.word (waddr kernelStartAddr) = 0 ∧ m'.word (waddr kernelStartAddr) = 1 ∧
      Alike (runUser 3 (fault .panicked) 4) ⟨userStartAddr, 0, 0, 0, m⟩ ⟨userStartAddr, 0, 0, 0, m'⟩ := by
  have hfacts : (PagedMemory.new addiImage false).any (fun m =>
      decide (m.word (waddr userStartAddr) = 0x00700093) && decide (m.word (waddr (userStartAddr + 4)) = 0) &&
        decide (m.word (waddr trapDispatchAddr) = kernelStartAddr) && decide (m.word userRegs = 0) &&
        decide (m.word (waddr kernelStartAddr) = 0)) = true := by
    with_unfolding_all decide
  obtain ⟨m, hm, hfacts⟩ := (Option.any_eq_true ..).mp hfacts
  simp only [Bool.and_eq_true, decide_eq_true_iff] at hfacts
  obtain ⟨⟨⟨⟨haddi, hend⟩, hdispatch⟩, hx0⟩, hkernel⟩ := hfacts
  have hsound : Sound ⟨userStartAddr, 0, 0, 0, m⟩ := sound_of_run hm (List.forall_mem_nil MemoryOp.Valid) rfl rfl
  obtain ⟨s', hruns, hmode, hx1⟩ :=
    addi_traps 3 (fault .panicked) 2 hsound rfl rfl haddi hend hdispatch hx0
  -- the same memory with another word in the kernel
  obtain ⟨f, hf⟩ := id hsound
  obtain ⟨m', -, hm'⟩ := hf.store (show ¬memoryEndAddr ≤ waddr kernelStartAddr by decide) 1
  have hwords : m'.word = Function.update m.word (waddr kernelStartAddr) 1 := by
    rw [funext hm'.words, funext hf.words]
    rfl
  have hother {addr : ℕ} (hne : addr ≠ waddr kernelStartAddr) : m.word addr = m'.word addr := by
    rw [hwords, Function.update_of_ne hne]
  have hkernelStart : waddr kernelStartAddr = 0x30000000 := rfl
  have hregs : userRegs = 0x3fffc020 := rfl
  have hsame : SameUser ⟨userStartAddr, 0, 0, 0, m⟩ ⟨userStartAddr, 0, 0, 0, m'⟩ :=
    ⟨rfl, fun i => hother (by omega), fun addr haddr => hother (haddr.2.trans_eq hkernelStart).ne, hother (by decide), hother (by decide)⟩
  refine ⟨m, m', s', hm, hruns, hx1, ?_, hkernel, by rw [hwords, Function.update_self],
    (user_runs_isolated 3 (fault .panicked) 4).2 _ _ hsound ⟨_, hm'⟩ rfl rfl hsame⟩
  rcases (user_runs_isolated 3 (fault .panicked) 4).1 _ s' hsound rfl hruns with hstays | henters
  · exact absurd (hstays.mode.symm.trans hmode) (by decide)
  · exact henters

end Executor

end VerifiableCompute.Rv32im
