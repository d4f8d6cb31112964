import VerifiableCompute.Rv32im.PagerRefinement

/-! A commit writes the registers to their page and copies the dirty pages to the
image. Afterwards the image alone has the words that the memory had, and a reset
forgets which pages were resident and which were stored to. -/

namespace VerifiableCompute.Rv32im

open Lib List

namespace PagedMemory

variable {m : PagedMemory} {pages : List ℕ} {f : FlatMemory} {p : ℕ}

theorem mod_pageWords_iff {addr addr' : ℕ} (h : pageIdx addr = pageIdx addr') :
    addr % 256 = addr' % 256 ↔ addr = addr' := by
  unfold pageIdx pageWords at h
  omega

theorem store_registers (m : PagedMemory) (page : Page) (i : Fin 32) {addr : ℕ} (haddr : pageIdx addr = regsPage) :
    ((page.store (machineRegs + i) (m.machineRegisters i)).store (userRegs + i) (m.userRegisters i)).load addr =
      if addr = machineRegs + i ∨ addr = userRegs + i then (m.tryLoadRegister addr).getD 0 else page.load addr := by
  have huserRegs := mod_pageWords_iff (haddr.trans (pageIdx_userRegs_add i).symm)
  have hmachineRegs := mod_pageWords_iff (haddr.trans (pageIdx_machineRegs_add i).symm)
  simp only [Page.load_store, huserRegs, hmachineRegs]
  by_cases huser : addr = userRegs + i
  · rw [if_pos huser, if_pos (.inr huser), huser, tryLoadRegister_user]
    rfl
  · rw [if_neg huser]
    by_cases hmachine : addr = machineRegs + i
    · rw [if_pos hmachine, if_pos (.inl hmachine), hmachine, tryLoadRegister_machine]
      rfl
    · rw [if_neg hmachine, if_neg (not_or.mpr ⟨hmachine, huser⟩)]

theorem foldl_store_registers (m : PagedMemory) (l : List (Fin 32)) (page : Page) {addr : ℕ}
    (haddr : pageIdx addr = regsPage) : (l.foldl (fun (page : Page) (i : Fin 32) =>
      (page.store (machineRegs + i) (m.machineRegisters i)).store (userRegs + i) (m.userRegisters i)) page).load addr =
      if ∃ i ∈ l, addr = machineRegs + i ∨ addr = userRegs + i then (m.tryLoadRegister addr).getD 0
      else page.load addr := by
  induction l generalizing page with
  | nil => simp
  | cons i l ih =>
    rw [foldl_cons, ih, store_registers m page i haddr]
    by_cases hl : ∃ i ∈ l, addr = machineRegs + i ∨ addr = userRegs + i
    · rw [if_pos hl, if_pos]
      exact hl.imp fun j hj => ⟨mem_cons_of_mem i hj.1, hj.2⟩
    · rw [if_neg hl]
      congr 1
      simp only [exists_mem_cons_iff, hl, or_false]

/-- The register page as it is committed. -/
theorem load_registersPage (m : PagedMemory) (page : Page) {addr : ℕ} (haddr : pageIdx addr = regsPage) :
    (m.registersPage page).load addr = (m.tryLoadRegister addr).getD (page.load addr) := by
  rw [registersPage, foldl_store_registers m _ page haddr]
  rcases register_cases addr with ⟨i, rfl⟩ | ⟨i, rfl⟩ | hnone
  · rw [if_pos ⟨i, mem_finRange i, .inr rfl⟩, tryLoadRegister_user]
    rfl
  · rw [if_pos ⟨i, mem_finRange i, .inl rfl⟩, tryLoadRegister_machine]
    rfl
  · rw [(hnone m).1, if_neg]
    · rfl
    · rintro ⟨i, -, rfl | rfl⟩
      · have := (hnone m).1
        rw [tryLoadRegister_machine] at this
        cases this
      · have := (hnone m).1
        rw [tryLoadRegister_user] at this
        cases this

theorem tryLoadRegister_other (m : PagedMemory) {addr : ℕ} (haddr : pageIdx addr ≠ regsPage) :
    m.tryLoadRegister addr = none := by
  rcases register_cases addr with ⟨i, rfl⟩ | ⟨i, rfl⟩ | hnone
  · exact absurd (pageIdx_userRegs_add i) haddr
  · exact absurd (pageIdx_machineRegs_add i) haddr
  · exact (hnone m).1

theorem writeRegisters_spec (h : Resident m pages) : ∃ m' pages', m.writeRegisters = some m' ∧ Resident m' pages' ∧
      (∀ addr, (m'.page (pageIdx addr)).load addr = m.word addr) ∧ (∀ q, m'.dirty q ↔ q = regsPage ∨ m.dirty q) ∧
      m'.userRegisters = m.userRegisters ∧ m'.machineRegisters = m.machineRegisters := by
  obtain ⟨c, m', pages', hwrite, hresident, hc, hpage, hdirty, huser, hmachine⟩ := pageForWriting_spec h regsPage_lt
  obtain ⟨hresident', hpage'⟩ := hresident.modify hc ((hdirty _).mpr (.inl rfl)) m'.registersPage
  refine ⟨_, pages', by rw [writeRegisters, hwrite]; rfl, hresident', fun addr => ?_, hdirty, huser, hmachine⟩
  have hregs : m'.tryLoadRegister addr = m.tryLoadRegister addr := by
    unfold tryLoadRegister
    rw [huser, hmachine]
  rw [hpage', hpage, hpage, PagedMemory.word]
  by_cases haddr : pageIdx addr = regsPage
  · rw [if_pos haddr, load_registersPage m' _ haddr, hregs, haddr]
  · rw [if_neg haddr, tryLoadRegister_other m haddr]
    rfl

theorem commitNodes_spec (h : Resident m pages) (nodes : List ℕ) (images : WorkingImage × WorkingImage) :
    ∃ images', m.commitNodes nodes images = some images' ∧
      (∀ p, nodeIdx p ∈ nodes ∧ m.dirty p →
        images'.1.get? p = some (m.page p) ∧ images'.2.get? p = some (m.page p)) ∧
      ∀ p, ¬ (nodeIdx p ∈ nodes ∧ m.dirty p) →
        images'.1.get? p = images.1.get? p ∧ images'.2.get? p = images.2.get? p := by
  induction nodes generalizing images with
  | nil =>
    refine ⟨images, rfl, fun p hp => ?_, fun p _ => ⟨rfl, rfl⟩⟩
    cases hp.1
  | cons node nodes ih =>
    rw [commitNodes]
    split_ifs with hskip
    · obtain ⟨images', hrun, hcommitted, hkept⟩ := ih images
      have hiff (p : ℕ) : nodeIdx p ∈ node :: nodes ∧ m.dirty p ↔ nodeIdx p ∈ nodes ∧ m.dirty p := by
        constructor
        · rintro ⟨hmem, hdirty⟩
          rcases mem_cons.mp hmem with rfl | hmem
          · rcases hskip with hlt | hstate
            · unfold nodeIdx at hlt
              omega
            · exact absurd hdirty hstate
          · exact ⟨hmem, hdirty⟩
        · exact fun hp => ⟨mem_cons_of_mem _ hp.1, hp.2⟩
      refine ⟨images', hrun, fun p hp => hcommitted p ((hiff p).mp hp), fun p hp => hkept p fun hp' => ?_⟩
      exact hp ((hiff p).mpr hp')
    · have hge : memoryPages ≤ node := by
        by_contra hlt
        exact hskip (.inl (Nat.lt_of_not_le hlt))
      obtain ⟨q, rfl⟩ : ∃ q, node = nodeIdx q := ⟨node - memoryPages, (Nat.add_sub_cancel' hge).symm⟩
      have hdirty : m.dirty q := by
        by_contra hdirty
        exact hskip (.inr hdirty)
      have hmem : q ∈ pages := (h.states q).mp (by rw [show m.pageStates.get (nodeIdx q) = .dirty from hdirty]; decide)
      obtain ⟨c, hc⟩ := getElem?_of_mem hmem
      obtain ⟨page, hpage, heq⟩ := h.page_of_get hc
      have hsub : nodeIdx q - memoryPages = q := Nat.add_sub_cancel_left ..
      obtain ⟨images', hrun, hcommitted, hkept⟩ := ih (images.1.insert q page, images.2.insert q page)
      simp only [hsub, (h.get_iff q c).mpr hc, hpage, Option.bind_eq_bind, Option.bind_some]
      refine ⟨images', hrun, fun p hp => ?_, fun p hp => ?_⟩
      · by_cases hp' : nodeIdx p ∈ nodes ∧ m.dirty p
        · exact hcommitted p hp'
        · have hpq : p = q := by
            rcases mem_cons.mp hp.1 with heq | hmem
            · exact nodeIdx_inj.mp heq
            · exact absurd ⟨hmem, hp.2⟩ hp'
          obtain ⟨h1, h2⟩ := hkept p hp'
          rw [h1, h2, OrderedMap.get?_insert, OrderedMap.get?_insert, if_pos hpq, if_pos hpq, hpq, heq]
          exact ⟨rfl, rfl⟩
      · have hpq : p ≠ q := by
          rintro rfl
          exact hp ⟨mem_cons_self, hdirty⟩
        obtain ⟨h1, h2⟩ := hkept p fun hp' => hp ⟨mem_cons_of_mem _ hp'.1, hp'.2⟩
        rw [h1, h2, OrderedMap.get?_insert, OrderedMap.get?_insert, if_neg hpq, if_neg hpq]
        exact ⟨rfl, rfl⟩

/-- The dirty pages and only these are returned; the image has every page. -/
theorem commit_spec (h : Resident m pages) :
    ∃ partialImage m', m.commit = some (partialImage, m') ∧ m'.pageTable.Current ∧
      (∀ addr, (imagePage m'.image (pageIdx addr)).load addr = m.word addr) ∧
      (∀ p, (p = regsPage ∨ m.dirty p) → partialImage.get? p = some (imagePage m'.image p)) ∧
      (∀ p, ¬ (p = regsPage ∨ m.dirty p) → partialImage.get? p = none) ∧
      m'.userRegisters = m.userRegisters ∧ m'.machineRegisters = m.machineRegisters := by
  obtain ⟨m', pages', hwrite, hresident, hwords, hdirty, huser, hmachine⟩ := writeRegisters_spec h
  obtain ⟨images, hrun, hcommitted, hkept⟩ :=
    commitNodes_spec hresident (m'.pageStates.indexes.insertionSort (· ≤ ·)) (m'.image, .empty)
  have hmem (p : ℕ) : nodeIdx p ∈ m'.pageStates.indexes.insertionSort (· ≤ ·) ∧ m'.dirty p ↔ m'.dirty p := by
    rw [mem_insertionSort, hresident.listed.mem_iff]
    exact ⟨And.right, fun hp => ⟨by rw [show m'.pageStates.get (nodeIdx p) = .dirty from hp]; decide, hp⟩⟩
  simp only [hmem] at hcommitted hkept
  have himage (p : ℕ) : imagePage images.1 p = m'.page p := by
    by_cases hp : m'.dirty p
    · rw [imagePage, (hcommitted p hp).1]
      rfl
    · rw [imagePage, (hkept p hp).1, hresident.page_of_not_dirty hp]
      rfl
  refine ⟨images.2, { m' with image := images.1 }, ?_, hresident.table, fun addr => ?_, fun p hp => ?_,
    fun p hp => ?_, huser, hmachine⟩
  · rw [commit, hwrite]
    simp only [Option.bind_eq_bind, Option.bind_some, hrun]
    rfl
  · rw [← hwords, ← himage]
  · rw [(hcommitted p ((hdirty p).mpr hp)).2, himage]
  · rw [(hkept p fun hp' => hp ((hdirty p).mp hp')).2, OrderedMap.get?_empty]

theorem reset_spec (h : m.pageTable.Current) : Resident m.reset [] ∧ (∀ p, m.reset.page p = imagePage m.image p) ∧
    ∀ p, ¬ m.reset.dirty p := by
  obtain ⟨hcurrent, hget⟩ := h.clear
  have hstates (n : ℕ) : m.reset.pageStates.get n = .unloaded := rfl
  refine ⟨⟨hcurrent, .nil, fun p hp => ?_, rfl, fun p c => ?_, fun p => ?_, PageStates.listed_empty,
    fun p c hc => ?_⟩, fun p => ?_, fun p => ?_⟩
  · cases hp
  · show m.pageTable.clear.get p = some c ↔ _
    rw [hget]
    simp
  · rw [hstates]
    simp
  · cases hc
  · rw [PagedMemory.page, show m.reset.pageTable.get p = none from hget p]
    rfl
  · rw [dirty, hstates]
    decide

theorem Refines.page_eq (h : ∀ addr, (imagePage m.image (pageIdx addr)).load addr = f.words addr) (p : ℕ) :
    imagePage m.image p = f.page p := by
  funext i
  rw [FlatMemory.page, ← h, ← Page.load_add (imagePage m.image p) p i]
  have hidx : pageIdx (pageWords * p + i) = p := by
    have := i.isLt
    unfold pageIdx pageWords
    omega
  rw [hidx]

theorem Refines.commit (h : Refines m f) : ∃ partialImage m', m.commit = some (partialImage, m') ∧
      (MemoryAnswer.committed partialImage m'.image).flat = (MemoryOp.commit.flat f).1 ∧
      Refines m'.reset (MemoryOp.commit.flat f).2 := by
  obtain ⟨pages, hresident⟩ := h.resident
  obtain ⟨partialImage, m', hcommit, hcurrent, hwords, hdirty, hclean, huser, hmachine⟩ := commit_spec hresident
  obtain ⟨hresident', hpage, hnone⟩ := reset_spec hcurrent
  have hflat (addr : ℕ) : (imagePage m'.image (pageIdx addr)).load addr = f.words addr :=
    (hwords addr).trans (h.words addr)
  refine ⟨partialImage, m', hcommit, ?_, ⟨⟨[], hresident'⟩, fun addr => ?_, fun p _ => ?_⟩⟩
  · have hkept : partialImage.get? =
        fun p => if p = regsPage ∨ p ∈ f.stored.map pageIdx then some (f.page p) else none := by
      funext p
      have hiff : p = regsPage ∨ m.dirty p ↔ p = regsPage ∨ p ∈ f.stored.map pageIdx := by
        by_cases hp : p = regsPage
        · simp [hp]
        · rw [h.dirty p hp]
      by_cases hp : p = regsPage ∨ p ∈ f.stored.map pageIdx
      · rw [if_pos hp, hdirty p (hiff.mpr hp), Refines.page_eq hflat]
      · rw [if_neg hp, hclean p fun hp' => hp (hiff.mp hp')]
    show FlatAnswer.committed _ _ = FlatAnswer.committed _ _
    rw [hkept, funext hflat]
  · have hregs : m'.reset.tryLoadRegister addr = m.tryLoadRegister addr := by
      unfold tryLoadRegister
      rw [← huser, ← hmachine]
      rfl
    show m'.reset.word addr = f.words addr
    rw [PagedMemory.word, hregs, hpage, hwords, ← h.words, PagedMemory.word]
    cases m.tryLoadRegister addr <;> rfl
  · exact ⟨fun hp => absurd hp (hnone p), fun hp => by cases hp⟩

end PagedMemory

end VerifiableCompute.Rv32im
