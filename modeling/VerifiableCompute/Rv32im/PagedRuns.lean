import VerifiableCompute.Rv32im.Commit

/-! Runs of the paged memory from an image. Every answer is that of the flat memory
with the words of the image, through any number of commits. -/

namespace VerifiableCompute.Rv32im

open Lib

/-- The words of an image, where what is missing is zero. -/
def FlatMemory.ofImage (image : MemoryImage) : FlatMemory :=
  ⟨fun addr => (imagePage image.pages (pageIdx addr)).load addr, []⟩

namespace PagedMemory

variable {m : PagedMemory} {f : FlatMemory}

theorem getPage_some {image : MemoryImage} {p : ℕ} {page : Page} (h : image.getPage p = some page) :
    page = imagePage image.pages p := by
  unfold MemoryImage.getPage at h
  unfold imagePage
  cases hp : image.pages.get? p with
  | some page' =>
    rw [hp] at h
    exact (Option.some.inj h).symm
  | none =>
    rw [hp] at h
    exact (Option.some.inj (Option.ite_none_right_eq_some.mp h).2).symm

theorem new_spec {image : MemoryImage} {tracingEnabled : Bool} (h : PagedMemory.new image tracingEnabled = some m) :
    Refines m (.ofImage image) := by
  obtain ⟨page, hpage, heq⟩ := Option.bind_eq_some_iff.mp h
  have hpage := getPage_some hpage
  cases heq
  refine ⟨⟨[], PageTable.current_new, .nil, fun p hp => ?_, rfl, fun p c => ?_, fun p => ?_,
    PageStates.listed_empty, fun p c hc => ?_⟩, fun addr => ?_, fun p _ => ?_⟩
  · cases hp
  · rw [PageTable.get_new]
    simp
  · simp [PageStates.new, PageStates.get]
  · cases hc
  · show _ = (imagePage image.pages (pageIdx addr)).load addr
    rw [PagedMemory.word]
    rcases register_cases addr with ⟨i, rfl⟩ | ⟨i, rfl⟩ | hnone
    · rw [tryLoadRegister_user, pageIdx_userRegs_add, ← hpage]
      rfl
    · rw [tryLoadRegister_machine, pageIdx_machineRegs_add, ← hpage]
      rfl
    · rw [(hnone _).1, PagedMemory.page, PageTable.get_new]
      rfl
  · simp [dirty, PageStates.new, PageStates.get, FlatMemory.ofImage]

/-- Past the end of memory nothing happens. -/
structure OutOfRange (m : PagedMemory) (addr : ℕ) : Prop where
  load : m.load addr = some (.error (.invalidLoadAddress addr), m)
  peek : m.peek addr = some (.error (.invalidPeekAddress addr), m)
  store : ∀ word, m.store addr word = some (.error (.invalidStoreAddress addr), m)

theorem outOfRange (m : PagedMemory) {addr : ℕ} (h : memoryEndAddr ≤ addr) : OutOfRange m addr := by
  constructor
  · rw [PagedMemory.load, if_pos h]
  · rw [PagedMemory.peek, if_pos h]
  · intro word
    rw [PagedMemory.store, if_pos h]

section

variable (h : Refines m f) {base : ℕ} (hbase : base = userRegs ∨ base = machineRegs) (idx : Fin 32)

include h base hbase idx

theorem Refines.storeRegister (w : Word) :
    ∃ m', m.storeRegister base idx w = some m' ∧ Refines m' (f.store (base + idx) w) := by
  rcases hbase with rfl | rfl
  · exact ⟨_, if_pos rfl, h.setUser idx w⟩
  · have hne : machineRegs ≠ userRegs := by decide
    exact ⟨_, by rw [PagedMemory.storeRegister, if_neg hne, if_pos rfl], h.setMachine idx w⟩

theorem Refines.loadRegister : m.loadRegister base idx = some (f.words (base + idx)) := by
  rcases hbase with rfl | rfl
  · rw [PagedMemory.loadRegister, if_pos rfl, ← h.words, PagedMemory.word, tryLoadRegister_user]
    rfl
  · have hne : machineRegs ≠ userRegs := by decide
    rw [PagedMemory.loadRegister, if_neg hne, if_pos rfl, ← h.words, PagedMemory.word, tryLoadRegister_machine]
    rfl

end

theorem exec_spec (op : MemoryOp) (m : PagedMemory) (f : FlatMemory) (hop : op.Valid) (h : Refines m f) :
    ∃ answer m', op.exec m = some (answer, m') ∧ answer.flat = (op.flat f).1 ∧ Refines m' (op.flat f).2 := by
  cases op with
  | load addr =>
    unfold MemoryOp.exec MemoryOp.flat
    dsimp only
    split_ifs with haddr
    · rw [(m.outOfRange haddr).load]
      exact ⟨_, m, rfl, rfl, h⟩
    · obtain ⟨m', hload, hrefines⟩ := h.load haddr
      rw [hload]
      exact ⟨_, m', rfl, rfl, hrefines⟩
  | peek addr =>
    unfold MemoryOp.exec MemoryOp.flat
    dsimp only
    split_ifs with haddr
    · rw [(m.outOfRange haddr).peek]
      exact ⟨_, m, rfl, rfl, h⟩
    · obtain ⟨m', hpeek, hrefines⟩ := h.peek haddr
      rw [hpeek]
      exact ⟨_, m', rfl, rfl, hrefines⟩
  | store addr word =>
    unfold MemoryOp.exec MemoryOp.flat
    dsimp only
    split_ifs with haddr
    · rw [(m.outOfRange haddr).store]
      exact ⟨_, m, rfl, rfl, h⟩
    · obtain ⟨m', hstore, hrefines⟩ := h.store haddr word
      rw [hstore]
      exact ⟨_, m', rfl, rfl, hrefines⟩
  | loadRegister base idx =>
    unfold MemoryOp.exec
    dsimp only
    rw [h.loadRegister hop]
    exact ⟨_, m, rfl, rfl, h⟩
  | storeRegister base idx word =>
    obtain ⟨m', hstore, hrefines⟩ := h.storeRegister hop idx word
    unfold MemoryOp.exec
    dsimp only
    rw [hstore]
    exact ⟨_, m', rfl, rfl, hrefines⟩
  | commit =>
    obtain ⟨partialImage, m', hcommit, hanswer, hrefines⟩ := h.commit
    unfold MemoryOp.exec
    dsimp only
    rw [hcommit]
    exact ⟨_, m'.reset, rfl, hanswer, hrefines⟩

/-- The paged memory never panics, answers as the flat memory does, and leaves
addresses past the end of memory alone. -/
theorem paged_refines_flat {image : MemoryImage} {tracingEnabled : Bool}
    (h : PagedMemory.new image tracingEnabled = some m) (ops : List MemoryOp) (hops : ∀ op ∈ ops, op.Valid) :
    ∃ os m', runOps MemoryOp.exec ops m = some (os, m') ∧
      os.map MemoryAnswer.flat = (answers MemoryOp.flat ops (.ofImage image)).1 ∧
      ∀ addr, memoryEndAddr ≤ addr → OutOfRange m' addr := by
  obtain ⟨os, m', hrun, hanswers, -⟩ :=
    simulate MemoryAnswer.flat Refines MemoryOp.Valid exec_spec ops hops m _ (new_spec h)
  exact ⟨os, m', hrun, hanswers, fun addr haddr => m'.outOfRange haddr⟩

/-- A word survives a commit, and a register is read through memory. -/
theorem paged_refines_flat_sample : ∃ m os m', PagedMemory.new ⟨.empty, fun _ => true⟩ false = some m ∧
      runOps MemoryOp.exec [.store 0x4000 7, .storeRegister userRegs 5 9, .commit, .load 0x4000,
        .load (userRegs + 5), .load memoryEndAddr] m = some (os, m') ∧
      (os.map MemoryAnswer.flat).drop 3 = [.word 7, .word 9, .error (.invalidLoadAddress memoryEndAddr)] := by
  have hnew : PagedMemory.new ⟨.empty, fun _ => true⟩ false = some _ := rfl
  obtain ⟨os, m', hrun, hanswers, -⟩ := paged_refines_flat hnew
    [.store 0x4000 7, .storeRegister userRegs 5 9, .commit, .load 0x4000, .load (userRegs + 5), .load memoryEndAddr]
    (by simp [MemoryOp.Valid])
  exact ⟨_, os, m', rfl, hrun, hanswers ▸ rfl⟩

end PagedMemory

end VerifiableCompute.Rv32im
