import VerifiableCompute.Rv32im.FlatMemory

/-! Every operation of the paged memory answers as the flat one does, in every state
that a run reaches, also when the epochs of the table have started again. -/

namespace VerifiableCompute.Rv32im

open Lib PagedMemory Function

namespace PagedMemory

variable {m : PagedMemory} {pages : List ℕ} {f : FlatMemory}

/-- The two memories have the same words, and the dirty pages are those stored to. -/
structure Refines (m : PagedMemory) (f : FlatMemory) : Prop where
  resident : ∃ pages, m.Resident pages
  words : ∀ addr, m.word addr = f.words addr
  dirty : ∀ p ≠ regsPage, (m.dirty p ↔ p ∈ f.stored.map pageIdx)

variable {addr : ℕ} {m' : PagedMemory}

theorem pageIdx_lt (h : ¬ memoryEndAddr ≤ addr) : pageIdx addr < memoryPages := by
  unfold memoryEndAddr at h
  unfold pageIdx pageWords memoryPages
  omega

theorem regsPage_lt : regsPage < memoryPages := by decide

theorem Keeps.word (h : Keeps m m') (addr : ℕ) : m'.word addr = m.word addr := by
  unfold PagedMemory.word tryLoadRegister
  rw [h.page, h.userRegisters, h.machineRegisters]

theorem Refines.keeps (h : Refines m f) (hkeeps : Keeps m m') {pages' : List ℕ}
    (hresident : Resident m' pages') : Refines m' f :=
  ⟨⟨pages', hresident⟩, fun addr => (hkeeps.word addr).trans (h.words addr),
    fun p hne => (hkeeps.dirty p).trans (h.dirty p hne)⟩

theorem Refines.load (h : Refines m f) (haddr : ¬ memoryEndAddr ≤ addr) :
    ∃ m', m.load addr = some (.ok (f.words addr), m') ∧ Refines m' f := by
  obtain ⟨pages, hresident⟩ := h.resident
  rw [PagedMemory.load, if_neg haddr, ← h.words, PagedMemory.word]
  cases hreg : m.tryLoadRegister addr with
  | some word => exact ⟨m, rfl, h⟩
  | none =>
    obtain ⟨m', pages', hload, hresident', hkeeps⟩ := loadRam_spec hresident (pageIdx_lt haddr)
    refine ⟨m', ?_, h.keeps hkeeps hresident'⟩
    dsimp only
    rw [hload]
    rfl

theorem Refines.peek (h : Refines m f) (haddr : ¬ memoryEndAddr ≤ addr) :
    ∃ m', m.peek addr = some (.ok (f.words addr), m') ∧ Refines m' f := by
  obtain ⟨pages, hresident⟩ := h.resident
  rw [PagedMemory.peek, if_neg haddr, ← h.words, PagedMemory.word]
  cases hreg : m.tryLoadRegister addr with
  | some word => exact ⟨m, rfl, h⟩
  | none =>
    obtain ⟨m', hpeek, hresident', hkeeps⟩ := peekRam_spec hresident addr
    refine ⟨m', ?_, h.keeps hkeeps hresident'⟩
    dsimp only
    rw [hpeek]
    rfl

theorem tryStoreRegister_user (m : PagedMemory) (i : Fin 32) (w : Word) : m.tryStoreRegister (userRegs + i) w =
    some { m with userRegisters := update m.userRegisters i w } := by
  obtain ⟨huser, hidx⟩ := user_register i
  rw [tryStoreRegister, if_pos huser, hidx]

theorem tryStoreRegister_machine (m : PagedMemory) (i : Fin 32) (w : Word) : m.tryStoreRegister (machineRegs + i) w =
      some { m with machineRegisters := update m.machineRegisters i w } := by
  obtain ⟨huser, hmachine, hidx⟩ := machine_register i
  rw [tryStoreRegister, if_neg huser, if_pos hmachine, hidx]

theorem Refines.write (h : Refines m f) {w : Word} (hresident : ∃ pages, m'.Resident pages)
    (hwords : ∀ a, m'.word a = if a = addr then w else m.word a)
    (hdirty : ∀ p ≠ regsPage, (m'.dirty p ↔ p = pageIdx addr ∨ m.dirty p)) : Refines m' (f.store addr w) := by
  refine ⟨hresident, fun a => ?_, fun p hne => ?_⟩
  · show m'.word a = update f.words addr w a
    rw [hwords, update_apply, h.words]
  · rw [hdirty p hne, FlatMemory.store, List.map_cons, List.mem_cons, h.dirty p hne]

theorem word_setUser (m : PagedMemory) (i : Fin 32) (w : Word) (addr : ℕ) :
    ({ m with userRegisters := update m.userRegisters i w } : PagedMemory).word addr =
      if addr = userRegs + i then w else m.word addr := by
  rcases register_cases addr with ⟨j, rfl⟩ | ⟨j, rfl⟩ | hnone
  · rw [word, word, tryLoadRegister_user, tryLoadRegister_user]
    show update m.userRegisters i w j = _
    rw [update_apply, Option.getD_some]
    simp only [Nat.add_left_cancel_iff, Fin.ext_iff]
  · have hne : ¬ machineRegs + (j : ℕ) = userRegs + i := by
      have := j.isLt
      rw [machineRegs_eq, userRegs_eq]
      omega
    rw [word, word, tryLoadRegister_machine, tryLoadRegister_machine, if_neg hne]
    rfl
  · have hne : addr ≠ userRegs + i := by
      rintro rfl
      have := (hnone m).1
      rw [tryLoadRegister_user] at this
      cases this
    rw [word, word, (hnone _).1, (hnone m).1, if_neg hne]
    rfl

theorem word_setMachine (m : PagedMemory) (i : Fin 32) (w : Word) (addr : ℕ) :
    ({ m with machineRegisters := update m.machineRegisters i w } : PagedMemory).word addr =
      if addr = machineRegs + i then w else m.word addr := by
  rcases register_cases addr with ⟨j, rfl⟩ | ⟨j, rfl⟩ | hnone
  · have hne : ¬ userRegs + (j : ℕ) = machineRegs + i := by
      have := i.isLt
      rw [machineRegs_eq, userRegs_eq]
      omega
    rw [word, word, tryLoadRegister_user, tryLoadRegister_user, if_neg hne]
    rfl
  · rw [word, word, tryLoadRegister_machine, tryLoadRegister_machine]
    show update m.machineRegisters i w j = _
    rw [update_apply, Option.getD_some]
    simp only [Nat.add_left_cancel_iff, Fin.ext_iff]
  · have hne : addr ≠ machineRegs + i := by
      rintro rfl
      have := (hnone m).1
      rw [tryLoadRegister_machine] at this
      cases this
    rw [word, word, (hnone _).1, (hnone m).1, if_neg hne]
    rfl

theorem Refines.setUser (h : Refines m f) (i : Fin 32) (w : Word) :
    Refines { m with userRegisters := update m.userRegisters i w } (f.store (userRegs + i) w) := by
  obtain ⟨pages, hr⟩ := h.resident
  refine h.write ⟨pages, ⟨hr.table, hr.nodup, hr.lt, hr.length, hr.get_iff, hr.states, hr.listed, hr.clean⟩⟩
    (word_setUser m i w) fun p hne => ?_
  rw [pageIdx_userRegs_add]
  exact (or_iff_right hne).symm

theorem Refines.setMachine (h : Refines m f) (i : Fin 32) (w : Word) :
    Refines { m with machineRegisters := update m.machineRegisters i w } (f.store (machineRegs + i) w) := by
  obtain ⟨pages, hr⟩ := h.resident
  refine h.write ⟨pages, ⟨hr.table, hr.nodup, hr.lt, hr.length, hr.get_iff, hr.states, hr.listed, hr.clean⟩⟩
    (word_setMachine m i w) fun p hne => ?_
  rw [pageIdx_machineRegs_add]
  exact (or_iff_right hne).symm

theorem Refines.storeRam (h : Refines m f) (haddr : ¬ memoryEndAddr ≤ addr)
    (hreg : ∀ m : PagedMemory, m.tryLoadRegister addr = none) (w : Word) :
    ∃ m', m.storeRam addr w = some m' ∧ Refines m' (f.store addr w) := by
  obtain ⟨pages, hresident⟩ := h.resident
  obtain ⟨c, m', pages', hwrite, hresident', hc, hpage, hdirty, huser, hmachine⟩ :=
    pageForWriting_spec hresident (pageIdx_lt haddr)
  have hmarked : m'.dirty (pageIdx addr) := (hdirty _).mpr (.inl rfl)
  obtain ⟨hresident'', hpage'⟩ := hresident'.modify hc hmarked (Page.store addr w)
  refine ⟨_, by rw [PagedMemory.storeRam, hwrite]; rfl, h.write ⟨pages', hresident''⟩ (fun a => ?_)
    fun p _ => hdirty p⟩
  have hregs (a : ℕ) : tryLoadRegister a { m' with pageCache := m'.pageCache.modify c (Page.store addr w) } =
      m.tryLoadRegister a := by
    unfold tryLoadRegister
    rw [← huser, ← hmachine]
  rw [PagedMemory.word, PagedMemory.word, hregs, hpage', hpage, hpage]
  by_cases ha : a = addr
  · subst ha
    rw [hreg, if_pos rfl, Option.getD_none, Page.load_store, if_pos rfl, if_pos rfl]
  · rw [if_neg ha]
    split_ifs with hsame
    · rw [Page.load_store, if_neg, hsame]
      unfold pageIdx pageWords at hsame
      omega
    · rfl

theorem Refines.store (h : Refines m f) (haddr : ¬ memoryEndAddr ≤ addr) (w : Word) :
    ∃ m', m.store addr w = some (.ok (), m') ∧ Refines m' (f.store addr w) := by
  rw [PagedMemory.store, if_neg haddr]
  rcases register_cases addr with ⟨i, rfl⟩ | ⟨i, rfl⟩ | hnone
  · rw [tryStoreRegister_user]
    exact ⟨_, rfl, h.setUser i w⟩
  · rw [tryStoreRegister_machine]
    exact ⟨_, rfl, h.setMachine i w⟩
  · obtain ⟨m', hstore, hrefines⟩ := h.storeRam haddr (fun m => (hnone m).1) w
    refine ⟨m', ?_, hrefines⟩
    rw [(hnone m).2 w]
    dsimp only
    rw [hstore]
    rfl

end PagedMemory

end VerifiableCompute.Rv32im
