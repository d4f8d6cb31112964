import VerifiableCompute.Lib.Runs
import VerifiableCompute.Rv32im.Isolation

/-! What is seen of the whole machine, whatever its mode: the program counters, the mode
and a word at every address. Each operation of the executor runs from one such view
to another. -/

namespace VerifiableCompute.Rv32im

open Lib PagedMemory Function

structure MachineView where
  pc : ByteAddr
  userPc : ByteAddr
  mode : Word
  words : ℕ → Word

namespace MachineView

variable (v : MachineView)

def store (addr : ℕ) (word : Word) : MachineView := { v with words := Function.update v.words addr word }

def jump (pc : ByteAddr) : MachineView := { v with pc := pc }

/-- The register file that the mode selects. -/
def regs : ℕ := if v.mode ≠ 0 then machineRegs else userRegs

@[simp] theorem store_mode (addr : ℕ) (word : Word) : (v.store addr word).mode = v.mode := rfl

@[simp] theorem jump_pc (pc : ByteAddr) : (v.jump pc).pc = pc := rfl

theorem store_words (addr : ℕ) (word : Word) (a : ℕ) :
    (v.store addr word).words a = if a = addr then word else v.words a := update_apply ..

theorem store_words_self (addr : ℕ) (word : Word) : (v.store addr word).words addr = word :=
  update_self ..

theorem store_words_of_ne {addr a : ℕ} (word : Word) (h : a ≠ addr) : (v.store addr word).words a = v.words a :=
  update_of_ne h ..

theorem regs_file : v.regs = userRegs ∨ v.regs = machineRegs := by
  unfold regs
  split_ifs
  · exact .inr rfl
  · exact .inl rfl

end MachineView

namespace Executor

variable {c : Prop} {v : MachineView}

structure Shows (v : MachineView) (s : Executor) : Prop where
  pc : s.pc = v.pc
  userPc : s.userPc = v.userPc
  mode : s.machineMode = v.mode
  sound : s.Sound
  words : ∀ addr, s.pager.word addr = v.words addr

/-- What a state shows. -/
def machineView (s : Executor) : MachineView := ⟨s.pc, s.userPc, s.machineMode, s.pager.word⟩

variable {s s' : Executor} {addr base : ℕ}

theorem shows_machineView (hs : s.Sound) : Shows s.machineView s := ⟨rfl, rfl, rfl, hs, fun _ => rfl⟩

theorem Shows.machineView_eq (hs : Shows v s) : s.machineView = v := by
  obtain ⟨pc, userPc, mode, words⟩ := v
  have hwords : s.pager.word = words := funext hs.words
  rw [machineView, hs.pc, hs.userPc, hs.mode, hwords]

theorem Unchanged.shows (h : Unchanged s s') (hs : Shows v s) : Shows v s' where
  pc := h.pc.trans hs.pc
  userPc := h.userPc.trans hs.userPc
  mode := h.mode.trans hs.mode
  sound := hs.sound.imp h.memory
  words addr := (h.word hs.sound addr).trans (hs.words addr)

theorem StoredAt.shows {word : Word} (h : StoredAt addr word s s') (hs : Shows v s) : Shows (v.store addr word) s' where
  pc := h.pc.trans hs.pc
  userPc := h.userPc.trans hs.userPc
  mode := h.mode.trans hs.mode
  sound := by
    obtain ⟨f, hf⟩ := hs.sound
    exact ⟨_, h.memory f hf⟩
  words a := by
    obtain ⟨f, hf⟩ := hs.sound
    rw [(h.memory f hf).words, MachineView.store_words]
    show update f.words addr word a = _
    rw [update_apply, ← hf.words, hs.words]

theorem loadU32_runs (op : LoadOp) (v : MachineView) (haddr : c → ¬ memoryEndAddr ≤ addr) :
    RunsIf c Shows (loadU32 op addr) v (v.words addr) v := by
  by_cases hend : memoryEndAddr ≤ addr
  · refine runs_of_fails (fun hc => haddr hc hend) fun s _ => ?_
    cases op with
    | peek => exact ⟨.memory (.invalidPeekAddress addr), by rw [loadU32, PagedMemory.peek, if_pos hend]; rfl⟩
    | load => exact ⟨.memory (.invalidLoadAddress addr), by rw [loadU32, PagedMemory.load, if_pos hend]; rfl⟩
    | record => exact ⟨.memory (.invalidLoadAddress addr), by rw [loadU32, PagedMemory.load, if_pos hend]; rfl⟩
  · refine runs_of_total fun s hs => ?_
    obtain ⟨s', hrun, hkeeps⟩ := loadU32_run op hend hs.sound
    exact ⟨s', hs.words addr ▸ hrun, hkeeps.shows hs⟩

variable (v : MachineView)

theorem storeU32_runs (haddr : c → ¬ memoryEndAddr ≤ addr) (word : Word) :
    RunsIf c Shows (storeU32 addr word) v () (v.store addr word) := by
  by_cases hend : memoryEndAddr ≤ addr
  · refine runs_of_fails (fun hc => haddr hc hend) fun s _ => ?_
    exact ⟨.memory (.invalidStoreAddress addr), by rw [storeU32, PagedMemory.store, if_pos hend]; rfl⟩
  · refine runs_of_total fun s hs => ?_
    obtain ⟨s', hrun, hstored⟩ := storeU32_run hend word hs.sound
    exact ⟨s', hrun, hstored.shows hs⟩

theorem loadRegister_runs (hbase : base = userRegs ∨ base = machineRegs) (idx : Fin 32) :
    RunsIf c Shows (loadRegister base idx) v (v.words (base + idx)) v := by
  refine runs_of_total fun s hs => ?_
  obtain ⟨f, hf⟩ := hs.sound
  refine ⟨s, ?_, hs⟩
  rw [loadRegister, hf.loadRegister hbase idx, ← hf.words, hs.words]
  rfl

theorem storeRegister_runs (hbase : base = userRegs ∨ base = machineRegs) (idx : Fin 32)
    (word : Word) : RunsIf c Shows (storeRegister base idx word) v () (v.store (base + idx) word) := by
  refine runs_of_total fun s hs => ?_
  have hstore (f : FlatMemory) (hf : Refines s.pager f) :
      ∃ m, ((s.pager.storeRegister base idx word).map fun pager => ((.ok () : Except MemoryError Unit), pager)) =
        some (.ok (), m) ∧ Refines m (f.store (base + idx) word) := by
    obtain ⟨m, hm, hrefines⟩ := hf.storeRegister hbase idx word
    exact ⟨m, by rw [hm]; rfl, hrefines⟩
  obtain ⟨m, hm, hstored⟩ := ofMemory_run (g := FlatMemory.store (base + idx) word) hs.sound hstore
  have hat : StoredAt (base + idx) word s { s with pager := m } := ⟨rfl, rfl, rfl, hstored⟩
  exact ⟨_, hm, hat.shows hs⟩

theorem getPc_runs : RunsIf c Shows getPc v v.pc v :=
  runs_of_total fun s hs => ⟨s, by rw [getPc, hs.pc], hs⟩

theorem setPc_runs (pc : ByteAddr) : RunsIf c Shows (setPc pc) v () (v.jump pc) :=
  runs_of_total fun _ hs => ⟨_, rfl, rfl, hs.userPc, hs.mode, hs.sound, hs.words⟩

theorem incUserCycles_runs (count : ℕ) : RunsIf c Shows (incUserCycles count) v () v :=
  runs_of_total fun _ hs => ⟨_, rfl, hs.pc, hs.userPc, hs.mode, hs.sound, hs.words⟩

theorem isMachineMode_runs : RunsIf c Shows isMachineMode v (decide (v.mode ≠ 0)) v :=
  runs_of_total fun s hs => ⟨s, by rw [isMachineMode, hs.mode], hs⟩

end Executor

namespace Risc0Machine

open Executor

variable {c : Prop}

theorem regsBaseAddr_runs (v : MachineView) : RunsIf c Shows regsBaseAddr v v.regs v := by
  refine (isMachineMode_runs v).bind ?_
  unfold MachineView.regs
  by_cases hmode : v.mode = 0
  · rw [if_neg (by simpa using hmode), if_neg (by simpa using hmode)]
    exact runs_pure v userRegs
  · rw [if_pos (by simpa using hmode), if_pos hmode]
    exact runs_pure v machineRegs

theorem loadRegister_runs (v : MachineView) (idx : Fin 32) :
    RunsIf c Shows (loadRegister idx) v (v.words (v.regs + idx)) v :=
  (regsBaseAddr_runs v).bind (Executor.loadRegister_runs v v.regs_file idx)

/-- Where the mode writes a register to. -/
def writeAddr (v : MachineView) (idx : Fin 32) : ℕ := if idx = 0 then v.regs + regMax * 2 else v.regs + idx

theorem storeRegister_runs (v : MachineView) (idx : Fin 32) (word : Word) :
    RunsIf c Shows (storeRegister idx word) v () (v.store (writeAddr v idx) word) := by
  refine (regsBaseAddr_runs v).bind ?_
  unfold writeAddr
  split_ifs
  · refine storeU32_runs v (fun _ => ?_) word
    have hlt : machineRegs + regMax * 2 < memoryEndAddr ∧ userRegs + regMax * 2 < memoryEndAddr := by decide
    rcases v.regs_file with hregs | hregs <;> rw [hregs] <;> omega
  · exact Executor.storeRegister_runs v v.regs_file idx word

end Risc0Machine

end VerifiableCompute.Rv32im
