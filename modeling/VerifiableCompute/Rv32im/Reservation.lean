import VerifiableCompute.Rv32im.Atomics

/-! Runs of user programs with atomic instructions. The executor traps on each of them and the kernel emulates it, so
that the user sees a hart that has them; whether a conditional store succeeds is told by the instructions before it. -/

namespace VerifiableCompute.Rv32im

open Lib RiscVAtomic Executor Risc0Machine Function Observation Instr

theorem entries_atomic {word : Word} (h : word &&& 0x0000007f = 0x2f) :
    entries.find? (fun e => e.isFor (DecodedInstruction.new word)) = none := by
  have hopcodes : ∀ e ∈ entries, e.opcode ≠ 0x2f := by decide
  refine List.find?_eq_none.mpr fun e he hfor => hopcodes e he ?_
  exact (of_decide_eq_true hfor).1.trans h

theorem step_traps (circuitVersion : ℕ) (machineEcall : Exec Bool) (v : UserView) {i : Instr}
    (hi : decode (v.memory (waddr v.pc)) = some i) : Traps (Emulator.step circuitVersion machineEcall) v := by
  refine Traps.after (getPc_reads v) (Traps.after (checkInsnLoad_reads v _) ?_)
  split_ifs with hallowed
  · exact (trap_traps v _).bind fun _ => silent_pure PUnit.unit
  · refine Traps.after (loadMemory_user (isUserWord_of_isUserMemory (by simpa using hallowed))) ?_
    split_ifs with hfour
    · exact (trap_traps v _).bind fun _ => silent_pure PUnit.unit
    · have hopcode : v.memory (waddr v.pc) &&& 0x0000007f = 0x2f := by
        unfold decode at hi
        split_ifs at hi with hfields
        exact (opcode_eq _).mpr hfields.1
      have hexec : Emulator.execRv32im circuitVersion machineEcall (v.memory (waddr v.pc)) =
          Emulator.trapped .invalid (.illegalInstruction (v.memory (waddr v.pc)) 293) := by
        unfold Emulator.execRv32im
        dsimp only
        rw [entries_atomic hopcode]
        rfl
      rw [hexec]
      refine ((trap_traps v _).bind fun normal => silent_pure _).bind fun kind => ?_
      cases kind with
      | none => exact silent_pure PUnit.unit
      | some kind => exact ⟨(), fun s => ⟨_, rfl, rfl, rfl, rfl, fun _ h => h⟩⟩

namespace MachineView

/-- In the trap handler, with the program counter saved. -/
def trapped (v : MachineView) (dispatchAddr : ByteAddr) : MachineView :=
  ⟨dispatchAddr, v.pc, 1, Function.update v.words (waddr mepcAddr) v.pc⟩

variable (v : MachineView) (dispatchAddr : ByteAddr)

theorem trapped_mepc : (v.trapped dispatchAddr).words (waddr mepcAddr) = v.pc := by
  simp only [trapped, update_self]

theorem trapped_words {addr : ℕ} (h : addr ≠ waddr mepcAddr) : (v.trapped dispatchAddr).words addr = v.words addr :=
  update_of_ne h ..

end MachineView

section Steps

variable {statics : Statics} {circuitVersion : ℕ} {machineEcall : Exec Bool} {s s' : Executor} {i : Instr}

theorem hart_trapped (statics : Statics) (v : MachineView) (dispatchAddr : ByteAddr) :
    statics.hart (v.trapped dispatchAddr) = (statics.hart v).goto dispatchAddr := by
  have hkept {addr : ℕ} (h : addr ≠ waddr mepcAddr) := v.trapped_words dispatchAddr h
  have hset := waddr_kernel statics.kernel.2
  have haddr := waddr_kernel statics.kernel.1
  have hregs : (fun r => (v.trapped dispatchAddr).words (userRegWord r)) = fun r => v.words (userRegWord r) := by
    funext r
    have := userRegWord_range r
    exact hkept (by rw [waddr_mepc]; omega)
  have hmemory : (v.trapped dispatchAddr).userWord = v.userWord := by
    funext a
    unfold MachineView.userWord
    split_ifs with huser
    · have := waddr_user huser.1
      exact hkept (by rw [waddr_mepc]; omega)
    · rfl
  have hreservation : statics.reservation (v.trapped dispatchAddr).words = statics.reservation v.words := by
    unfold Statics.reservation
    rw [hkept (by rw [waddr_mepc]; omega), hkept (by rw [waddr_mepc]; omega)]
  unfold Statics.hart
  rw [hregs, hmemory, hreservation]
  rfl

/-- What the executor does with the program counter at an atomic instruction. -/
theorem shows_trapped (hs : s.Sound) (h : Applies (.enters s.view.trapDispatch) s s') :
    Shows (s.machineView.trapped (s.pager.word (waddr trapDispatchAddr))) s' := by
  obtain ⟨f, hf⟩ := hs
  refine ⟨h.pc, h.userPc, h.mode, ⟨_, h.memory f hf⟩, fun addr => ?_⟩
  rw [Applied.word h ⟨f, hf⟩]
  exact (update_apply ..).symm

theorem step_atomic (hs : s.Sound) (hmode : s.machineMode = 0) (hdispatch : DispatchOk (s.pager.word (waddr trapDispatchAddr)))
    (hi : decode (s.pager.word (waddr s.pc)) = some i) :
    ∃ s₁, Emulator.step circuitVersion machineEcall s = .ok ((), s₁) ∧
      Shows (s.machineView.trapped (s.pager.word (waddr trapDispatchAddr))) s₁ := by
  obtain ⟨⟨⟩, hupdates⟩ := (step_traps circuitVersion machineEcall s.view hi).enters hdispatch
  obtain ⟨s₁, hrun, happlies⟩ := hupdates s (sees_view hs hmode)
  exact ⟨s₁, hrun, shows_trapped hs happlies⟩

theorem step_atomic_inv (hs : s.Sound) (hmode : s.machineMode = 0) (hi : decode (s.pager.word (waddr s.pc)) = some i)
    (hstep : Emulator.step circuitVersion machineEcall s = .ok ((), s')) :
    Shows (s.machineView.trapped (s.pager.word (waddr trapDispatchAddr))) s' := by
  have htraps := step_traps circuitVersion machineEcall s.view hi
  by_cases hdispatch : DispatchOk (s.pager.word (waddr trapDispatchAddr))
  · obtain ⟨s₁, hrun, hshows⟩ : ∃ s₁, Emulator.step circuitVersion machineEcall s = .ok ((), s₁) ∧ _ :=
      step_atomic hs hmode hdispatch hi
    rw [hstep] at hrun
    cases hrun
    exact hshows
  · obtain ⟨e, he⟩ := htraps.fails hdispatch
    rw [he s (sees_view hs hmode)] at hstep
    cases hstep

end Steps

variable (statics : Statics) (circuitVersion : ℕ) (machineEcall : Exec Bool)

/-- One instruction of the user: the executor executes it, or the kernel emulates it, or it is a call and the kernel
does whatever does not touch the reservation, which only the emulation knows of. What else the kernel writes in its own
memory while it works does not count. -/
inductive UserStep (s s' : Executor) : Prop
  | runs (step : Emulator.step circuitVersion machineEcall s = .ok ((), s')) (mode : s'.machineMode = 0)
  | traps (s₁ : Executor) (v : MachineView) (step : Emulator.step circuitVersion machineEcall s = .ok ((), s₁))
      (mode : s₁.machineMode ≠ 0) (handled : Kernel.trapHandler statics s₁.machineView = .ok ((), v)) (sound : s'.Sound)
      (left : s'.machineMode = v.mode) (same : statics.hart s'.machineView = statics.hart v)
  | calls (s₁ : Executor) (ecall : s.pager.word (waddr s.pc) = 0x00000073)
      (step : Emulator.step circuitVersion machineEcall s = .ok ((), s₁)) (sound : s'.Sound) (mode : s'.machineMode = 0)
      (kept : s'.pager.word (waddr statics.ilrsc) = s.pager.word (waddr statics.ilrsc) ∧
        s'.pager.word (waddr statics.ilrscSet) = s.pager.word (waddr statics.ilrscSet))

/-- The atomic instruction that a state is about to execute, with its address. -/
def nextAtomic (s : Executor) : Option (Op × Word) :=
  (Instr.decode (s.pager.word (waddr s.pc))).map fun i => (i.op, (statics.hart s.machineView).read i.rs1)

/-- A run of the user, with its atomic instructions. -/
inductive UserRun (s : Executor) : List (Op × Word) → Executor → Prop
  | start : UserRun s [] s
  | step {past : List (Op × Word)} {s₁ s₂ : Executor} (run : UserRun s past s₁)
      (next : UserStep statics circuitVersion machineEcall s₁ s₂) : UserRun s (past ++ (nextAtomic statics s₁).toList) s₂

variable {statics circuitVersion machineEcall} {s s' : Executor}

section Runs

theorem kernel_not_writable {addr : ByteAddr} (h : isKernelMemory addr) : ¬UserWritable (waddr addr) := by
  have hrange := waddr_kernel h
  have hend : waddr userEndAddr = 0x30000000 := rfl
  have hregs : userRegs = 0x3fffc020 := rfl
  have hshunt : shuntAddr = 0x3fffc060 := rfl
  rintro (huser | ⟨idx, hidx⟩ | hshunted)
  · have := huser.2
    omega
  · omega
  · omega

theorem reservation_congr {words words' : ℕ → Word} (h : words' (waddr statics.ilrsc) = words (waddr statics.ilrsc))
    (hset : words' (waddr statics.ilrscSet) = words (waddr statics.ilrscSet)) :
    statics.reservation words' = statics.reservation words := by
  unfold Statics.reservation
  rw [h, hset]

/-- The handler reads the instruction that trapped: the word where the program counter is saved holds none. -/
theorem trapped_word {v v' : MachineView} {dispatchAddr : ByteAddr}
    (h : Kernel.trapHandler statics (v.trapped dispatchAddr) = .ok ((), v')) :
    (v.trapped dispatchAddr).words (waddr v.pc) = v.words (waddr v.pc) := by
  obtain ⟨-, ha, hfour⟩ := Kernel.trapHandler_reads h
  rw [MachineView.trapped_mepc] at ha hfour
  by_cases hpc : waddr v.pc = waddr mepcAddr
  · rw [hpc, MachineView.trapped_mepc] at hfour
    have hmod : v.pc.toNat % 4 = 0 := of_decide_eq_true ha
    have hlow := congrArg BitVec.toNat hfour
    rw [BitVec.toNat_and, BitVec.toNat_setWidth] at hlow
    have hlow : v.pc.toNat % 2 ^ 16 % 2 ^ 2 = 3 := (Nat.and_two_pow_sub_one_eq_mod _ 2).symm.trans hlow
    omega
  · exact v.trapped_words dispatchAddr hpc

theorem UserStep.effect (hs : s.Sound) (hmode : s.machineMode = 0) (h : UserStep statics circuitVersion machineEcall s s') :
    s'.Sound ∧ s'.machineMode = 0 ∧
      (∀ i, decode (s.pager.word (waddr s.pc)) = some i →
        statics.hart s'.machineView = (statics.hart s.machineView).exec i) ∧
      (decode (s.pager.word (waddr s.pc)) = none →
        (statics.hart s'.machineView).reservation = (statics.hart s.machineView).reservation) := by
  cases h with
  | runs step mode =>
    obtain ⟨hs', u, hu, happlies⟩ := step_applies hs hmode step
    refine ⟨hs', mode, fun i hi => ?_, fun _ => ?_⟩
    · have htrapped : (1 : Word) = 0 := (step_atomic_inv hs hmode hi step).mode.symm.trans mode
      exact absurd htrapped (by decide)
    · rcases isolated_of_applies hs hmode hu happlies with hstays | henters
      · exact reservation_congr (hstays.memory _ (kernel_not_writable statics.kernel.1))
          (hstays.memory _ (kernel_not_writable statics.kernel.2))
      · exact absurd (henters.mode.symm.trans mode) (by decide)
  | traps s₁ v step mode handled sound left same =>
    obtain ⟨-, u, hu, happlies⟩ := step_applies hs hmode step
    cases u with
    | goes pc write => exact absurd (happlies.mode.trans hmode) mode
    | enters dispatchAddr =>
      have hview : s₁.machineView = s.machineView.trapped dispatchAddr := by
        refine Shows.machineView_eq ⟨happlies.pc, happlies.userPc, happlies.mode, ?_, fun addr => ?_⟩
        · obtain ⟨f, hf⟩ := hs
          exact ⟨_, happlies.memory f hf⟩
        · rw [Applied.word happlies hs]
          exact (update_apply ..).symm
      rw [hview] at handled
      have hword := trapped_word handled
      have hmepc := s.machineView.trapped_mepc dispatchAddr
      have hhart : (statics.hart (s.machineView.trapped dispatchAddr)).goto s.pc = statics.hart s.machineView := by
        rw [hart_trapped]
        rfl
      rw [same]
      cases Kernel.trapHandler_handled handled with
      | atomic i decoded valid returned =>
        rw [hmepc, hword] at decoded
        refine ⟨sound, left.trans returned.mode, fun j hj => ?_, fun hnone => ?_⟩
        · cases decoded.symm.trans hj
          rw [returned.hart, hmepc]
          exact congrArg (Hart.exec · i) hhart
        · cases decoded.symm.trans hnone
      | fence other returned =>
        rw [hmepc, hword] at other
        refine ⟨sound, left.trans (by rw [returned]), fun j hj => ?_, fun _ => ?_⟩
        · cases other.symm.trans hj
        · have hreserved : (statics.hart v).reservation = (statics.hart s.machineView).reservation := by
            rw [← hhart, returned]
            rfl
          exact hreserved
  | calls s₁ ecall step sound mode kept =>
    have hnone : decode (s.pager.word (waddr s.pc)) = none := by
      rw [ecall]
      rfl
    refine ⟨sound, mode, fun i hi => ?_, fun _ => reservation_congr kept.1 kept.2⟩
    cases hnone.symm.trans hi

theorem UserRun.reserved {past : List (Op × Word)} (hs : s.Sound) (hmode : s.machineMode = 0)
    (hstart : (statics.hart s.machineView).reservation = none) (h : UserRun statics circuitVersion machineEcall s past s') :
    s'.Sound ∧ s'.machineMode = 0 ∧ ∀ addr, (statics.hart s'.machineView).reservation = some addr ↔ Reserves past addr := by
  induction h with
  | start =>
    refine ⟨hs, hmode, fun addr => iff_of_false (by rw [hstart]; rintro ⟨⟩) ?_⟩
    rintro ⟨before, after, hpast, -⟩
    exact absurd hpast (by simp)
  | @step past s₁ s₂ _ next ih =>
    obtain ⟨hs1, hmode1, hreserved⟩ := ih
    obtain ⟨hs2, hmode2, hatomic, hother⟩ := next.effect hs1 hmode1
    refine ⟨hs2, hmode2, fun addr => ?_⟩
    unfold nextAtomic
    cases hi : decode (s₁.pager.word (waddr s₁.pc)) with
    | none =>
      rw [hother hi, hreserved]
      exact iff_of_eq (congrArg (Reserves · addr) (List.append_nil past).symm)
    | some i =>
      rw [hatomic i hi, Hart.exec_reservation]
      exact reserved_iff hreserved ..

end Runs

variable (statics circuitVersion machineEcall)

/-- An atomic instruction of a user program traps, and the handler returns to user mode behind it with its effect on
the hart; no other word changes but where the program counter was saved and where the reservation is kept. -/
structure Emulated (s : Executor) (i : Instr) (s₁ : Executor) (v : MachineView) : Prop where
  step : Emulator.step circuitVersion machineEcall s = .ok ((), s₁)
  dispatched : s₁.machineMode = 1 ∧ s₁.pc = s.pager.word (waddr trapDispatchAddr)
  handled : Kernel.trapHandler statics s₁.machineView = .ok ((), v)
  returned : v.mode = 0 ∧ v.pc = s.pc + 4
  hart : statics.hart v = (statics.hart s.machineView).exec i
  kept : ∀ addr, ¬statics.Writable addr → addr ≠ waddr mepcAddr → v.words addr = s.pager.word addr

/-- A conditional store stores its operand and writes zero, or stores nothing and writes something else. -/
structure Conditional (success : Prop) (i : Instr) (h h' : Hart) : Prop where
  stored : success → h'.memory = Function.update h.memory (h.read i.rs1) (h.read i.rs2)
  kept : ¬success → h'.memory = h.memory
  result : i.rd ≠ 0 → (h'.read i.rd = 0 ↔ success)

/-- The emulation is that of a hart with the atomic instructions, and a conditional store succeeds exactly on the
address that the last reservation is for. -/
structure AtomicsEmulated : Prop where
  emulated : ∀ (s : Executor) (i : Instr), s.Sound → s.machineMode = 0 → isUserMemory s.pc → isAligned s.pc →
    DispatchOk (s.pager.word (waddr trapDispatchAddr)) → Instr.decode (s.pager.word (waddr s.pc)) = some i →
    isUserMemory ((statics.hart s.machineView).read i.rs1) → isAligned ((statics.hart s.machineView).read i.rs1) →
    ∃ s₁ v, Emulated statics circuitVersion machineEcall s i s₁ v
  conditional : ∀ (s₀ s s' : Executor) (past : List (Op × Word)) (i : Instr), s₀.Sound → s₀.machineMode = 0 →
    (statics.hart s₀.machineView).reservation = none → UserRun statics circuitVersion machineEcall s₀ past s →
    Instr.decode (s.pager.word (waddr s.pc)) = some i → i.op = .sc → UserStep statics circuitVersion machineEcall s s' →
    Conditional (Reserves past ((statics.hart s.machineView).read i.rs1)) i (statics.hart s.machineView) (statics.hart s'.machineView)

theorem exec_sc_conditional {h : Hart} {i : Instr} (hi : i.op = .sc) :
    Conditional (h.reservation = some (h.read i.rs1)) i h (h.exec i) := by
  have hexec : h.exec i = if h.reservation = some (h.read i.rs1) then
      (((h.store (h.read i.rs1) (h.read i.rs2)).reserve none).write i.rd 0).next
      else ((h.reserve none).write i.rd 1).next := by
    unfold Hart.exec
    rw [hi]
  have hread {g : Hart} {word : Word} (hrd : i.rd ≠ 0) : (g.write i.rd word).next.read i.rd = word := by
    unfold Hart.read Hart.write
    rw [if_neg hrd, if_neg hrd]
    exact update_self ..
  have hmemory {g : Hart} {word : Word} : (g.write i.rd word).next.memory = g.memory := Hart.write_memory ..
  constructor
  · intro hreserved
    rw [hexec, if_pos hreserved, hmemory]
    rfl
  · intro hreserved
    rw [hexec, if_neg hreserved, hmemory]
    rfl
  · intro hrd
    rw [hexec]
    split_ifs with hreserved
    · rw [hread hrd]
      exact iff_of_true rfl hreserved
    · rw [hread hrd]
      exact iff_of_false (by decide) hreserved

theorem Conditional.congr {p q : Prop} {i : Instr} {h h' : Hart} (hpq : p ↔ q) (hp : Conditional p i h h') : Conditional q i h h' :=
  ⟨fun hq => hp.stored (hpq.mpr hq), fun hq => hp.kept (mt hpq.mp hq), fun hrd => (hp.result hrd).trans hpq⟩

theorem atomics_emulated : AtomicsEmulated statics circuitVersion machineEcall where
  emulated s i hs hmode hpc haligned hdispatch hi haddr ha := by
    obtain ⟨s₁, hstep, hshows⟩ : ∃ s₁, Emulator.step circuitVersion machineEcall s = .ok ((), s₁) ∧ _ :=
      step_atomic hs hmode hdispatch hi
    let v := s.machineView.trapped (s.pager.word (waddr trapDispatchAddr))
    have hmepc : v.words (waddr mepcAddr) = s.pc := MachineView.trapped_mepc ..
    have hword : v.words (waddr s.pc) = s.pager.word (waddr s.pc) := by
      have hrange := waddr_user hpc
      refine MachineView.trapped_words _ _ ?_
      rw [waddr_mepc]
      omega
    have hread : (statics.hart v).read i.rs1 = (statics.hart s.machineView).read i.rs1 := by
      rw [hart_trapped]
      rfl
    obtain ⟨v', hreturns⟩ : ∃ v', Kernel.Returns statics (Kernel.trapHandler statics) v
        (((statics.hart v).goto (v.words (waddr mepcAddr))).exec i) v' := by
      refine Kernel.trapHandler_returns ?_ ?_ ?_ ?_ ?_
      · rw [hmepc]
        exact not_lt_zeroPage (.inl hpc)
      · rwa [hmepc]
      · rwa [hmepc, hword]
      · rwa [hread]
      · rwa [hread]
    have hhart : statics.hart v' = (statics.hart s.machineView).exec i := by
      rw [hreturns.hart, hmepc]
      exact congrArg (fun h => (Hart.goto h s.pc).exec i) (hart_trapped statics s.machineView _)
    have hpc' : (statics.hart v').pc = s.pc + 4 := by
      rw [hhart, Hart.exec_pc]
      rfl
    refine ⟨s₁, v', hstep, ⟨hshows.mode, hshows.pc⟩, ?_, ⟨hreturns.mode, hpc'⟩, hhart, fun addr hwritable hne => ?_⟩
    · rw [hshows.machineView_eq]
      exact hreturns.run
    · exact (hreturns.within addr hwritable).trans (MachineView.trapped_words _ _ hne)
  conditional s₀ s s' past i hs hmode hstart hrun hi hsc hnext := by
    obtain ⟨hs', hmode', hreserved⟩ := hrun.reserved hs hmode hstart
    rw [(hnext.effect hs' hmode').2.2.1 i hi]
    exact (exec_sc_conditional hsc).congr (hreserved _)

/-- The words of the reservation, at the start of kernel memory. -/
def firstStatics : Statics where
  ilrsc := kernelStartAddr
  ilrscSet := kernelStartAddr + 4
  distinct := by decide
  aligned := by decide
  kernel := by decide

/-- A user program that starts with `lr.w x0, (x5)` and `sc.w x1, x5, (x5)`, with a user address in `x5`. -/
def reserveImage : MemoryImage where
  pages := ((OrderedMap.empty.insert (pageIdx (waddr userStartAddr))
      ((Page.zero.store (waddr userStartAddr) 0x1002a02f).store (waddr (userStartAddr + 4)) 0x1852a0af)).insert
    regsPage (Page.zero.store (userRegs + 5) 0x00020000)).insert (pageIdx (waddr trapDispatchAddr))
      (Page.zero.store (waddr trapDispatchAddr) kernelStartAddr)
  isZero _ := true

/-- The kernel emulates the load, which reserves the address, and then the conditional store, which succeeds. -/
theorem atomics_emulated_lr_sc : ∃ s₀ s s₁ v, UserRun firstStatics 3 (fault .panicked) s₀ [(.lr, 0x20000)] s ∧
    Emulated firstStatics 3 (fault .panicked) s ⟨.sc, 1, 5, 5⟩ s₁ v ∧
      ∀ s', UserStep firstStatics 3 (fault .panicked) s s' → (firstStatics.hart s'.machineView).memory 0x20000 = 0x20000 := by
  have hfacts : (PagedMemory.new reserveImage false).any (fun m =>
      isAligned (m.word (waddr trapDispatchAddr)) && isKernelMemory (m.word (waddr trapDispatchAddr)) &&
        decide (Instr.decode (m.word (waddr userStartAddr)) = some ⟨.lr, 0, 5, 0⟩) &&
        decide (Instr.decode (m.word (waddr (userStartAddr + 4))) = some ⟨.sc, 1, 5, 5⟩) &&
        decide (m.word (userRegWord 5) = 0x20000) && decide (m.word (waddr firstStatics.ilrscSet) = 0)) = true := by
    with_unfolding_all decide
  obtain ⟨m, hm, hfacts⟩ := (Option.any_eq_true ..).mp hfacts
  simp only [Bool.and_eq_true, decide_eq_true_iff] at hfacts
  obtain ⟨⟨⟨⟨hdispatch, hlr⟩, hsc⟩, hx5⟩, hclear⟩ := hfacts
  let s₀ : Executor := ⟨userStartAddr, 0, 0, 0, m⟩
  have hsound : Sound s₀ := sound_of_run hm (List.forall_mem_nil MemoryOp.Valid) rfl rfl
  have hpc : isUserMemory userStartAddr ∧ isAligned userStartAddr := by decide
  have hread : (firstStatics.hart s₀.machineView).read 5 = 0x20000 := (if_neg (by decide)).trans hx5
  have haddr : isUserMemory 0x20000 ∧ isAligned 0x20000 := by decide
  have hnone : (firstStatics.hart s₀.machineView).reservation = none := if_neg (by
    show m.word (waddr firstStatics.ilrscSet) ≠ 1
    rw [hclear]
    decide)
  obtain ⟨s₁, v, h⟩ := (atomics_emulated firstStatics 3 (fault .panicked)).emulated s₀ ⟨.lr, 0, 5, 0⟩ hsound rfl hpc.1 hpc.2 hdispatch hlr
    (by rw [hread]; exact haddr.1) (by rw [hread]; exact haddr.2)
  -- where the kernel returns to: the words of the reservation are written
  obtain ⟨f, hf⟩ := id hsound
  obtain ⟨m₁, -, hm₁⟩ := hf.store (show ¬memoryEndAddr ≤ waddr firstStatics.ilrsc by decide) 0x20000
  obtain ⟨m₂, -, hm₂⟩ := hm₁.store (show ¬memoryEndAddr ≤ waddr firstStatics.ilrscSet by decide) 1
  have hwords : m₂.word = update (update m.word (waddr firstStatics.ilrsc) 0x20000) (waddr firstStatics.ilrscSet) 1 := by
    rw [funext hm₂.words, funext hf.words]
    rfl
  let s : Executor := ⟨userStartAddr + 4, 0, 0, 0, m₂⟩
  have hview : firstStatics.hart s.machineView = ((firstStatics.hart s₀.machineView).reserve (some 0x20000)).next := by
    rw [← hart_reserve]
    show firstStatics.hart ⟨_, _, _, m₂.word⟩ = _
    rw [hwords]
    rfl
  have hsame : firstStatics.hart s.machineView = firstStatics.hart v := by
    rw [h.hart, hview, ← hread]
    rfl
  have hrun : UserRun firstStatics 3 (fault .panicked) s₀ [(.lr, 0x20000)] s := by
    have hnext : nextAtomic firstStatics s₀ = some (.lr, 0x20000) := by
      rw [← hread, nextAtomic, hlr]
      rfl
    have hstep := UserRun.start.step (.traps s₁ v h.step (by rw [h.dispatched.1]; decide) h.handled ⟨_, hm₂⟩ h.returned.1.symm hsame)
    rw [hnext] at hstep
    exact hstep
  have hword {addr : ℕ} (hne : addr ≠ waddr firstStatics.ilrsc) (hne' : addr ≠ waddr firstStatics.ilrscSet) : m₂.word addr = m.word addr := by
    rw [hwords, update_of_ne hne', update_of_ne hne]
  have hread' : (firstStatics.hart s.machineView).read 5 = 0x20000 := by
    rw [hview]
    exact hread
  have hsc : Instr.decode (m₂.word (waddr (userStartAddr + 4))) = some ⟨.sc, 1, 5, 5⟩ := by rwa [hword (by decide) (by decide)]
  have hpc' : isUserMemory (userStartAddr + 4) ∧ isAligned (userStartAddr + 4) := by decide
  obtain ⟨s₂, v', h'⟩ := (atomics_emulated firstStatics 3 (fault .panicked)).emulated s ⟨.sc, 1, 5, 5⟩ ⟨_, hm₂⟩ rfl hpc'.1 hpc'.2
    (by rw [hword (by decide) (by decide)]; exact hdispatch) hsc (by rw [hread']; exact haddr.1) (by rw [hread']; exact haddr.2)
  refine ⟨s₀, s, s₂, v', hrun, h', fun s' hstep => ?_⟩
  have hstored := ((atomics_emulated firstStatics 3 (fault .panicked)).conditional s₀ s s' _ _ hsound rfl hnone hrun hsc rfl hstep).stored
    ⟨[], [], by rw [hread']; rfl, fun _ hmem => absurd hmem List.not_mem_nil⟩
  rw [hstored, hread', update_self]

/-- In the trap handler for `amoadd.w x1, x2, (x0)`. -/
def zeroPageView : MachineView where
  pc := kernelStartAddr
  userPc := userStartAddr
  mode := 1
  words addr := if addr = waddr mepcAddr then userStartAddr else if addr = waddr userStartAddr then 0x002020af else 0

/-- The address 0 is a multiple of four below the kernel, but the handler cannot read it. -/
theorem not_emulated_zero_page :
    ∃ i, Instr.decode (zeroPageView.words (waddr (zeroPageView.words (waddr mepcAddr)))) = some i ∧ i.op = .amo .add ∧
      isAligned ((firstStatics.hart zeroPageView).read i.rs1) ∧ (firstStatics.hart zeroPageView).read i.rs1 < kernelStartAddr ∧
      Kernel.trapHandler firstStatics zeroPageView = .error (.trapped 0) := by
  refine ⟨⟨.amo .add, 1, 0, 2⟩, by decide, rfl, by decide, by decide, ?_⟩
  rfl

end VerifiableCompute.Rv32im
