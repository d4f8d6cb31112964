import VerifiableCompute.Binfmt.Updates

/-! Runs of updates, and what reading a digest gives. -/

namespace VerifiableCompute.Binfmt

open Lib Finset

namespace MemoryImage

variable {H : TreeHash} {m m' m'' : MemoryImage} {leaf : ℕ → Digest} {n : ℕ}

/-- The same pages and the same leaves, with no more dirty nodes. -/
structure Refreshes (H : TreeHash) (leaf : ℕ → Digest) (m m' : MemoryImage) : Prop where
  pages : m'.pages = m.pages
  dirty : m'.dirty ⊆ m.dirty
  wellFormed : m'.WellFormed
  tracks : m'.Tracks H leaf
  available : ∀ p < memoryPages, m.Available H p → m'.Available H p

theorem Refreshes.refl (hw : m.WellFormed) (ht : m.Tracks H leaf) : Refreshes H leaf m m :=
  ⟨rfl, Subset.refl _, hw, ht, fun _ _ h => h⟩

theorem Refreshes.trans (h : Refreshes H leaf m m') (h' : Refreshes H leaf m' m'') : Refreshes H leaf m m'' :=
  ⟨h'.pages.trans h.pages, Subset.trans h'.dirty h.dirty, h'.wellFormed, h'.tracks,
    fun p hp ha => h'.available p hp (h.available p hp ha)⟩

theorem Cleans.refreshes (h : Cleans H leaf n m m') (hw : m.WellFormed) (ht : m.Tracks H leaf) (hn : n ∈ m.dirty)
    (hclean : ∀ c, c / 2 = n → c ∉ m.dirty) : Refreshes H leaf m m' :=
  ⟨h.pages, fun _ => h.dirty_subset, h.wellFormed hw hn hclean, h.tracks hw ht hn hclean,
    fun _ hp ha => h.available hw hn hp ha⟩

/-- The nodes still to be updated are taken as dirty here; in the code the marks are gone. -/
theorem foldlM_updateDirtyDigest (l : List ℕ) (hl : l.Pairwise (· > ·)) (hdirty : m.dirty = l.toFinset)
    (hw : m.WellFormed) (ht : m.Tracks H leaf) :
    ∃ m', l.foldlM (fun m idx => m.updateDirtyDigest H idx) { m with dirty := ∅ } = .ok m' ∧ m'.dirty = ∅ ∧
      Refreshes H leaf m m' := by
  induction l generalizing m with
  | nil =>
    have hempty : m.dirty = ∅ := hdirty
    have hm : { m with dirty := ∅ } = m := by
      rw [← hempty]
    exact ⟨m, congrArg Except.ok hm, hempty, .refl hw ht⟩
  | cons n l ih =>
    rw [List.pairwise_cons] at hl
    have hn : n ∈ m.dirty := by
      rw [hdirty]
      simp
    have hclean : ∀ c, c / 2 = n → c ∉ m.dirty := by
      intro c hc hmem
      rw [hdirty, List.mem_toFinset, List.mem_cons] at hmem
      have hn1 := (hw.node (.inr hn)).1
      rcases hmem with heq | hmem
      · omega
      · have := hl.1 c hmem
        omega
    obtain ⟨m₁, hcleans, hstep⟩ := updateDirtyDigest_spec hw ht hn hclean ∅
    have hdirty1 : m₁.dirty = l.toFinset := by
      have hnotin : n ∉ l := fun h => lt_irrefl n (hl.1 n h)
      rw [hcleans.dirty, hdirty, List.toFinset_cons, erase_insert (by simpa using hnotin)]
    have hrefresh := hcleans.refreshes hw ht hn hclean
    obtain ⟨m', hrun, hempty, hrest⟩ := ih hl.2 hdirty1 hrefresh.wellFormed hrefresh.tracks
    refine ⟨m', ?_, hempty, hrefresh.trans hrest⟩
    rw [List.foldlM_cons, hstep]
    exact hrun

theorem updateDigests_spec (hw : m.WellFormed) (ht : m.Tracks H leaf) :
    ∃ m', m.updateDigests H = .ok m' ∧ m'.dirty = ∅ ∧ Refreshes H leaf m m' := by
  apply foldlM_updateDirtyDigest (m.dirty.sort (· ≥ ·)) ?_ ?_ hw ht
  · exact m.dirty.sortedGT_sort.pairwise
  · exact (m.dirty.sort_toFinset (· ≥ ·)).symm

/-- From `m` to `m'` the dirty nodes of the subtree of `n` are updated and no others. -/
structure UpdatesSubtree (H : TreeHash) (leaf : ℕ → Digest) (n : ℕ) (m m' : MemoryImage) : Prop where
  refreshes : Refreshes H leaf m m'
  clean : n ∉ m'.dirty
  populated : n ∈ m.dirty → m'.Populated n
  unchanged : n ∉ m.dirty → m' = m
  keeps : ∀ x ∈ m.dirty, ¬ Below n x → x ∈ m'.dirty

/-- Nodes above the subtree whose marks the recursion has taken off already are in `above`. -/
theorem updateSubtreeDigests_spec (levels : ℕ) (above : Finset ℕ) (hn : Node n)
    (hlevels : merkleTreeDepth < levels + n.log2) (habove : ∀ x ∈ above, ¬ Below n x)
    (hw : m.WellFormed) (ht : m.Tracks H leaf) :
    ∃ m', updateSubtreeDigests H levels n { m with dirty := m.dirty \ above } =
        .ok { m' with dirty := m'.dirty \ above } ∧ UpdatesSubtree H leaf n m m' := by
  induction levels generalizing n m above with
  | zero =>
    have := hn.log2_le
    omega
  | succ levels ih =>
    have hnotabove : n ∉ above := fun h => habove n h (.refl n)
    have hn0 : n ≠ 0 := by
      have := hn.1
      omega
    rw [updateSubtreeDigests]
    by_cases hdirty : n ∈ m.dirty
    · have hmem : ¬ n ∉ m.dirty \ above := not_not.mpr (mem_sdiff.mpr ⟨hdirty, hnotabove⟩)
      have herase (d : Finset ℕ) : (d \ above).erase n = d \ insert n above := by
        ext x
        simp only [mem_erase, mem_sdiff, mem_insert]
        tauto
      rw [if_neg hmem]
      simp only [herase]
      by_cases hinner : n < memoryPages
      · have habove' (c : ℕ) (hc : c / 2 = n) : ∀ x ∈ insert n above, ¬ Below c x := by
          intro x hx hb
          rcases mem_insert.mp hx with rfl | hx
          · have := hb.le
            omega
          · exact habove x hx ((hc ▸ below_half c).trans hb)
        have hnode (c : ℕ) (hc : c / 2 = n) : Node c ∧ merkleTreeDepth < levels + c.log2 := by
          rw [log2_child hn0 hc]
          refine ⟨⟨by omega, by omega⟩, by omega⟩
        have hleft : n * 2 / 2 = n := by omega
        have hright : (n * 2 + 1) / 2 = n := by omega
        obtain ⟨m₁, hrun1, h1⟩ :=
          ih (insert n above) (hnode _ hleft).1 (hnode _ hleft).2 (habove' _ hleft) hw ht
        obtain ⟨m₂, hrun2, h2⟩ :=
          ih (insert n above) (hnode _ hright).1 (hnode _ hright).2 (habove' _ hright) h1.refreshes.wellFormed
            h1.refreshes.tracks
        have hrefresh := h1.refreshes.trans h2.refreshes
        have hkeep (x : ℕ) (hx : x ∈ m.dirty) (hb : ¬ Below (n * 2) x) (hb' : ¬ Below (n * 2 + 1) x) : x ∈ m₂.dirty :=
          h2.keeps x (h1.keeps x hx hb) hb'
        have hn2 : n ∈ m₂.dirty := hkeep n hdirty (habove' _ hleft n (by simp)) (habove' _ hright n (by simp))
        have hclean : ∀ c, c / 2 = n → c ∉ m₂.dirty := by
          intro c hc hmem
          have hcases : c = n * 2 ∨ c = n * 2 + 1 := by omega
          rcases hcases with rfl | rfl
          · exact h1.clean (h2.refreshes.dirty hmem)
          · exact h2.clean hmem
        obtain ⟨m₃, hcleans, hstep⟩ :=
          updateDirtyDigest_spec hrefresh.wellFormed hrefresh.tracks hn2 hclean (m₂.dirty \ insert n above)
        refine ⟨m₃, ?_, hrefresh.trans (hcleans.refreshes hrefresh.wellFormed hrefresh.tracks hn2 hclean), ?_,
          fun _ => hcleans.populated_self, fun h => absurd hdirty h, ?_⟩
        · rw [if_pos hinner, hrun1]
          show (updateSubtreeDigests H levels (n * 2 + 1) _ >>= _) = _
          rw [hrun2, hcleans.dirty, erase_sdiff_comm, herase]
          exact hstep
        · rw [hcleans.dirty]
          simp
        · intro x hx hb
          have hne : x ≠ n := fun h => hb (h ▸ .refl x)
          rw [hcleans.dirty]
          refine mem_erase.mpr ⟨hne, hkeep x hx (fun h => hb ?_) fun h => hb ?_⟩
          · exact (hleft ▸ below_half (n * 2)).trans h
          · exact (hright ▸ below_half (n * 2 + 1)).trans h
      · have hclean : ∀ c, c / 2 = n → c ∉ m.dirty := by
          intro c hc hmem
          have := (hw.node (.inr hmem)).2
          omega
        obtain ⟨m₁, hcleans, hstep⟩ := updateDirtyDigest_spec hw ht hdirty hclean (m.dirty \ insert n above)
        refine ⟨m₁, ?_, hcleans.refreshes hw ht hdirty hclean, ?_, fun _ => hcleans.populated_self,
          fun h => absurd hdirty h, ?_⟩
        · rw [if_neg hinner, hcleans.dirty, erase_sdiff_comm, herase]
          exact hstep
        · rw [hcleans.dirty]
          simp
        · intro x hx hb
          rw [hcleans.dirty]
          exact mem_erase.mpr ⟨fun h => hb (h ▸ .refl x), hx⟩
    · have hmem : n ∉ m.dirty \ above := fun h => hdirty (mem_sdiff.mp h).1
      rw [if_pos hmem]
      exact ⟨m, rfl, .refl hw ht, hdirty, fun h => absurd h hdirty, fun _ => rfl, fun _ hx _ => hx⟩

theorem getDigest_spec (hw : m.WellFormed) (ht : m.Tracks H leaf) (hn : Node n) (hclean : n ∉ m.dirty)
    (hread : m.Populated n ∨ m.ReadsZero H n) : m.getDigest H n = .ok (reference H leaf n) := by
  rw [getDigest, if_neg hclean]
  cases hd : m.digests.get? n with
  | some digest => exact congrArg Except.ok (ht.digest hd hclean)
  | none =>
    have hunknown : ¬ m.Known n := by
      rintro (⟨digest, h⟩ | h)
      · rw [hd] at h
        cases h
      · exact hclean h
    have hzero := hread.resolve_left fun h => hunknown (.inl h)
    obtain ⟨b, hb, hiff⟩ := isZero_spec (H := H) hw (x := n) hn.1
    rw [hb, hiff.mpr hzero, hw.reference_of_readsZero ht hn hunknown hzero]
    rfl

theorem Complete.readable (hc : m.Complete H) (hw : m.WellFormed) (hn : Node n) (hclean : n ∉ m.dirty) :
    m.Populated n ∨ m.ReadsZero H n := by
  by_cases hp : m.Populated n
  · exact .inl hp
  · right
    have hunknown : ¬ m.Known n := fun h => h.elim hp hclean
    have hn0 : n ≠ 0 := by
      have := hn.1
      omega
    have hdiv : n * 2 ^ height n / 2 ^ height n = n := Nat.mul_div_cancel n (by positivity)
    obtain ⟨hleaf, hbelow⟩ := leaf_of_div hn hdiv
    obtain ⟨p, hp'⟩ := Nat.exists_eq_add_of_le hleaf.1
    have hlt : p < memoryPages := by
      have := hleaf.2
      omega
    rw [hp'] at hbelow
    have hloaded : ¬ m.Loaded p := fun h => hunknown (hw.known_above hn0 hbelow (hw.leaf h))
    exact (hw.readsZero_below hn0 hunknown hbelow).mpr ((hc p hlt).resolve_left hloaded)

theorem getOrUpdateDigest_spec (hw : m.WellFormed) (ht : m.Tracks H leaf) (hn : Node n)
    (hread : n ∉ m.dirty → m.Populated n ∨ m.ReadsZero H n) :
    ∃ m', m.getOrUpdateDigest H n = .ok (reference H leaf n, m') ∧ UpdatesSubtree H leaf n m m' := by
  have hempty (m : MemoryImage) : { m with dirty := m.dirty \ ∅ } = m := by
    rw [sdiff_empty]
  have hlevels : merkleTreeDepth < merkleTreeDepth + 1 + n.log2 := by omega
  obtain ⟨m', hrun, h⟩ := updateSubtreeDigests_spec (merkleTreeDepth + 1) ∅ hn hlevels (by simp) hw ht
  rw [hempty, hempty] at hrun
  have hread' : m'.Populated n ∨ m'.ReadsZero H n := by
    by_cases hdirty : n ∈ m.dirty
    · exact .inl (h.populated hdirty)
    · rw [h.unchanged hdirty]
      exact hread hdirty
  have hdigest := getDigest_spec h.refreshes.wellFormed h.refreshes.tracks hn h.clean hread'
  refine ⟨m', ?_, h⟩
  rw [getOrUpdateDigest, hrun]
  show (do
    let digest ← m'.getDigest H n
    pure (digest, m')) = _
  rw [hdigest]
  rfl

theorem imageId_spec (hw : m.WellFormed) (ht : m.Tracks H leaf) :
    ∃ m', m.imageId H = .ok (reference H leaf 1, m') ∧ m'.dirty = ∅ ∧ Refreshes H leaf m m' := by
  obtain ⟨m', hrun, hdirty, h⟩ := updateDigests_spec hw ht
  have hclean : 1 ∉ m'.dirty := by
    rw [hdirty]
    exact notMem_empty 1
  have hdigest := getDigest_spec h.wellFormed h.tracks ⟨le_refl 1, by decide⟩ hclean (.inl h.wellFormed.root)
  refine ⟨m', ?_, hdirty, h⟩
  rw [imageId, hrun]
  show (do
    let digest ← unwrap (m'.getDigest H 1)
    pure (digest, m')) = _
  rw [hdigest]
  rfl

end MemoryImage

end VerifiableCompute.Binfmt
