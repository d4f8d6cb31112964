import VerifiableCompute.Rv32im.Executor
import VerifiableCompute.Rv32im.PagedRuns

/-! What the executor sees in user mode, and what it may do there. It reads the user
registers, user memory and the two dispatch words. It either goes on, with at most one
word written, or enters one of the dispatch addresses. -/

namespace VerifiableCompute.Rv32im

open Lib PagedMemory

structure UserView where
  pc : ByteAddr
  regs : Fin 32 → Word
  memory : ℕ → Word
  ecallDispatch : Word
  trapDispatch : Word

inductive UserUpdate where
  | goes (pc : ByteAddr) (write : Option (ℕ × Word))
  | enters (dispatchAddr : ByteAddr)

def IsUserWord (addr : ℕ) : Prop := waddr userStartAddr ≤ addr ∧ addr < waddr userEndAddr

/-- The word that takes the writes to the zero register. -/
def shuntAddr : ℕ := userRegs + regMax * 2

def UserWritable (addr : ℕ) : Prop := IsUserWord addr ∨ (∃ i : Fin 32, addr = userRegs + i) ∨ addr = shuntAddr

def FlatMemory.written (write : Option (ℕ × Word)) (f : FlatMemory) : FlatMemory :=
  write.elim f fun w => f.store w.1 w.2

namespace Executor

structure Sees (s : Executor) (v : UserView) : Prop where
  mode : s.machineMode = 0
  pc : s.pc = v.pc
  sound : ∃ f, Refines s.pager f
  regs : ∀ i : Fin 32, s.pager.word (userRegs + i) = v.regs i
  memory : ∀ addr, IsUserWord addr → s.pager.word addr = v.memory addr
  ecallDispatch : s.pager.word (waddr ecallDispatchAddr) = v.ecallDispatch
  trapDispatch : s.pager.word (waddr trapDispatchAddr) = v.trapDispatch

/-- What is cached and what is counted may differ. -/
structure Unchanged (s s' : Executor) : Prop where
  pc : s'.pc = s.pc
  userPc : s'.userPc = s.userPc
  mode : s'.machineMode = s.machineMode
  memory : ∀ f, Refines s.pager f → Refines s'.pager f

/-- What an update leaves. -/
structure Applied (pc userPc : ByteAddr) (mode : Word) (write : Option (ℕ × Word)) (s s' : Executor) : Prop where
  pc : s'.pc = pc
  userPc : s'.userPc = userPc
  mode : s'.machineMode = mode
  memory : ∀ f, Refines s.pager f → Refines s'.pager (f.written write)

def Applies (u : UserUpdate) (s s' : Executor) : Prop :=
  match u with
  | .goes pc write => Applied pc s.userPc s.machineMode write s s'
  | .enters dispatchAddr => Applied dispatchAddr s.pc 1 (some (waddr mepcAddr, s.pc)) s s'

variable {s s' s'' : Executor} {v : UserView} {u : UserUpdate}

theorem Unchanged.refl (s : Executor) : Unchanged s s := ⟨rfl, rfl, rfl, fun _ h => h⟩

theorem Unchanged.trans (h : Unchanged s s') (h' : Unchanged s' s'') : Unchanged s s'' :=
  ⟨h'.pc.trans h.pc, h'.userPc.trans h.userPc, h'.mode.trans h.mode, fun f hf => h'.memory f (h.memory f hf)⟩

theorem Unchanged.word (h : Unchanged s s') (hs : ∃ f, Refines s.pager f) (addr : ℕ) :
    s'.pager.word addr = s.pager.word addr := by
  obtain ⟨f, hf⟩ := hs
  rw [hf.words, (h.memory f hf).words]

theorem Unchanged.sees (h : Unchanged s s') (hs : Sees s v) : Sees s' v where
  mode := h.mode.trans hs.mode
  pc := h.pc.trans hs.pc
  sound := hs.sound.imp h.memory
  regs i := (h.word hs.sound _).trans (hs.regs i)
  memory addr ha := (h.word hs.sound _).trans (hs.memory addr ha)
  ecallDispatch := (h.word hs.sound _).trans hs.ecallDispatch
  trapDispatch := (h.word hs.sound _).trans hs.trapDispatch

theorem Unchanged.applies (h : Unchanged s s') (hu : Applies u s' s'') : Applies u s s'' := by
  cases u with
  | goes pc write =>
    exact ⟨hu.pc, hu.userPc.trans h.userPc, hu.mode.trans h.mode, fun f hf => hu.memory f (h.memory f hf)⟩
  | enters dispatchAddr =>
    refine ⟨hu.pc, hu.userPc.trans h.pc, hu.mode, fun f hf => ?_⟩
    rw [← h.pc]
    exact hu.memory f (h.memory f hf)

theorem Applies.unchanged (hu : Applies u s s') (h : Unchanged s' s'') : Applies u s s'' := by
  cases u with
  | goes pc write =>
    exact ⟨h.pc.trans hu.pc, h.userPc.trans hu.userPc, h.mode.trans hu.mode, fun f hf => h.memory _ (hu.memory f hf)⟩
  | enters dispatchAddr =>
    exact ⟨h.pc.trans hu.pc, h.userPc.trans hu.userPc, h.mode.trans hu.mode, fun f hf => h.memory _ (hu.memory f hf)⟩

def userMode : Observation Executor UserView UserUpdate where
  sees := Sees
  keeps := Unchanged
  applies := Applies
  keeps_refl := Unchanged.refl
  keeps_trans := Unchanged.trans
  sees_of_keeps := Unchanged.sees
  applies_of_keeps := Unchanged.applies
  keeps_of_applies := Applies.unchanged

def Allowed (v : UserView) : UserUpdate → Prop
  | .goes _ write => ∀ w ∈ write, UserWritable w.1
  | .enters dispatchAddr => (dispatchAddr = v.ecallDispatch ∨ dispatchAddr = v.trapDispatch) ∧
      isAligned dispatchAddr ∧ isKernelMemory dispatchAddr

/-- An operation that answers alike whatever flat memory is refined, and does the same
to each of them. -/
theorem ofMemory_run {α : Type} {r : Option (Except MemoryError α × PagedMemory)} {a : α} {g : FlatMemory → FlatMemory}
    (hs : ∃ f, Refines s.pager f) (h : ∀ f, Refines s.pager f → ∃ m, r = some (.ok a, m) ∧ Refines m (g f)) :
    ∃ m, s.ofMemory r = .ok (a, { s with pager := m }) ∧ ∀ f, Refines s.pager f → Refines m (g f) := by
  obtain ⟨f, hf⟩ := hs
  obtain ⟨m, rfl, -⟩ := h f hf
  refine ⟨m, rfl, fun f' hf' => ?_⟩
  obtain ⟨m', hm', hrefines⟩ := h f' hf'
  cases hm'
  exact hrefines

/-- A load answers with the word, and nothing else is seen to change. -/
theorem loadU32_run (op : LoadOp) {addr : ℕ} (haddr : ¬ memoryEndAddr ≤ addr) (hs : ∃ f, Refines s.pager f) :
    ∃ s', loadU32 op addr s = .ok (s.pager.word addr, s') ∧ Unchanged s s' := by
  have hload : ∃ m, s.ofMemory (s.pager.load addr) = .ok (s.pager.word addr, { s with pager := m }) ∧
      ∀ f, Refines s.pager f → Refines m f :=
    ofMemory_run (g := id) hs fun f hf => hf.words addr ▸ hf.load haddr
  cases op with
  | peek =>
    obtain ⟨m, hm, hkeeps⟩ := ofMemory_run (g := id) hs fun f hf => hf.words addr ▸ hf.peek haddr
    exact ⟨_, hm, rfl, rfl, rfl, hkeeps⟩
  | load =>
    obtain ⟨m, hm, hkeeps⟩ := hload
    exact ⟨_, hm, rfl, rfl, rfl, hkeeps⟩
  | record =>
    obtain ⟨m, hm, hkeeps⟩ := hload
    exact ⟨_, hm, rfl, rfl, rfl, hkeeps⟩

/-- Only one word of memory changes. -/
structure StoredAt (addr : ℕ) (word : Word) (s s' : Executor) : Prop where
  pc : s'.pc = s.pc
  userPc : s'.userPc = s.userPc
  mode : s'.machineMode = s.machineMode
  memory : ∀ f, Refines s.pager f → Refines s'.pager (f.store addr word)

theorem storeU32_run {addr : ℕ} (haddr : ¬ memoryEndAddr ≤ addr) (word : Word) (hs : ∃ f, Refines s.pager f) :
    ∃ s', storeU32 addr word s = .ok ((), s') ∧ StoredAt addr word s s' := by
  obtain ⟨m, hm, hstore⟩ := ofMemory_run (g := FlatMemory.store addr word) hs fun f hf => hf.store haddr word
  exact ⟨_, hm, rfl, rfl, rfl, hstore⟩

theorem loadRegister_run (idx : Fin 32) (hs : ∃ f, Refines s.pager f) :
    ∃ s', loadRegister userRegs idx s = .ok (s.pager.word (userRegs + idx), s') ∧ Unchanged s s' := by
  have hload (f : FlatMemory) (hf : Refines s.pager f) :
      ∃ m, ((s.pager.loadRegister userRegs idx).map fun word => ((.ok word : Except MemoryError Word), s.pager)) =
        some (.ok (s.pager.word (userRegs + idx)), m) ∧ Refines m f :=
    ⟨s.pager, by rw [hf.loadRegister (.inl rfl) idx, ← hf.words]; rfl, hf⟩
  obtain ⟨m, hm, hkeeps⟩ := ofMemory_run (g := id) hs hload
  exact ⟨_, hm, rfl, rfl, rfl, hkeeps⟩

theorem storeRegister_run (idx : Fin 32) (word : Word) (hs : ∃ f, Refines s.pager f) :
    ∃ s', storeRegister userRegs idx word s = .ok ((), s') ∧ StoredAt (userRegs + idx) word s s' := by
  have hstore (f : FlatMemory) (hf : Refines s.pager f) :
      ∃ m, ((s.pager.storeRegister userRegs idx word).map fun pager => ((.ok () : Except MemoryError Unit), pager)) =
        some (.ok (), m) ∧ Refines m (f.store (userRegs + idx) word) := by
    obtain ⟨m, hm, hrefines⟩ := hf.storeRegister (.inl rfl) idx word
    exact ⟨m, by rw [hm]; rfl, hrefines⟩
  obtain ⟨m, hm, hstored⟩ := ofMemory_run (g := FlatMemory.store (userRegs + idx) word) hs hstore
  exact ⟨_, hm, rfl, rfl, rfl, hstored⟩

end Executor

end VerifiableCompute.Rv32im
