import VerifiableCompute.Binfmt.Reachable

/-! Partial images. A segment is given the pages that it touches and, instead of the rest
of the memory, the digests beside the paths from these pages to the root. -/

namespace VerifiableCompute.Binfmt

open Lib List Set

namespace MemoryImage

variable (H : TreeHash)

/-- A page whose leaf is among the indexes. -/
def copyPage (input image : MemoryImage) (nodeIdx : ℕ) : Except Fault MemoryImage := do
  let page ← unwrap (input.getPage H (nodeIdx - memoryPages))
  return image.setPage (nodeIdx - memoryPages) page

section

variable (indexes : Finset ℕ)

/-- The digest of a child that is not among the indexes. The input updates it first. -/
def addUncle (childIdx : ℕ) (images : MemoryImage × MemoryImage) : Except Fault (MemoryImage × MemoryImage) :=
  if childIdx ∈ indexes then .ok images
  else do
    let (digest, input) ← unwrap (images.2.getOrUpdateDigest H childIdx)
    return (images.1.setDigest childIdx digest, input)

def addUncles (images : MemoryImage × MemoryImage) (nodeIdx : ℕ) : Except Fault (MemoryImage × MemoryImage) := do
  let images ← addUncle H indexes (nodeIdx * 2) images
  addUncle H indexes (nodeIdx * 2 + 1) images

def leafIndexes : List ℕ := (indexes.filter (memoryPages ≤ ·)).sort (· ≤ ·)

def innerIndexes : List ℕ := (indexes.filter (· < memoryPages)).sort (· ≤ ·)

def computePartialImage (input : MemoryImage) : Except Fault (MemoryImage × MemoryImage) := do
  let image ← (leafIndexes indexes).foldlM (copyPage H input) (default H)
  (innerIndexes indexes).foldlM (addUncles H indexes) (image, input)

end

variable {n p c : ℕ}

theorem mem_leafIndexes {indexes : Finset ℕ} : n ∈ leafIndexes indexes ↔ n ∈ indexes ∧ memoryPages ≤ n := by
  rw [leafIndexes, Finset.mem_sort, Finset.mem_filter]

theorem mem_innerIndexes {indexes : Finset ℕ} : n ∈ innerIndexes indexes ↔ n ∈ indexes ∧ n < memoryPages := by
  rw [innerIndexes, Finset.mem_sort, Finset.mem_filter]

variable {H} {m image : MemoryImage} {leaf : ℕ → Digest} {L U : Set ℕ} {indexes : Finset ℕ}

/-- The image holds the pages of the leaves `L` and the digests of `U`, with all above them marked. -/
structure Gathers (H : TreeHash) (m : MemoryImage) (leaf : ℕ → Digest) (L U : Set ℕ) (image : MemoryImage) : Prop where
  page : ∀ q, memoryPages + q ∈ L → image.pages.get? q = some (m.contents q)
  no_page : ∀ q, memoryPages + q ∉ L → image.pages.get? q = none
  digest : ∀ c ∈ U, image.digests.get? c = some (reference H leaf c)
  root : 1 ∉ U → image.digests.get? 1 = some (zeroCache H 0)
  no_digest : ∀ c ∉ U, c ≠ 1 → image.digests.get? c = none
  dirty : ∀ x, x ∈ image.dirty ↔ x ≠ 0 ∧ ((∃ n ∈ L, Below x n) ∨ ∃ c ∈ U, Below x (c / 2))

namespace Gathers

theorem default : Gathers H m leaf ∅ ∅ (default H) where
  page _ h := absurd h (notMem_empty _)
  no_page q _ := rfl
  digest _ h := absurd h (notMem_empty _)
  root _ := default_digest
  no_digest c _ hc := by rw [MemoryImage.default, OrderedMap.get?_insert, if_neg hc]; rfl
  dirty x := by simp [MemoryImage.default]

variable (h : Gathers H m leaf L U image)
include h

theorem markDirty (pages : OrderedMap ℕ Page) (digests : OrderedMap ℕ Digest) (idx : ℕ) :
    ∃ d, (⟨pages, digests, image.dirty⟩ : MemoryImage).markDirty idx = ⟨pages, digests, d⟩ ∧
      ∀ x, x ∈ d ↔ x ∈ image.dirty ∨ x ≠ 0 ∧ Below x idx := by
  apply markDirty_spec idx
  intro n _ hn a ha hb
  have hn : n ∈ image.dirty := hn
  rw [h.dirty] at hn
  show a ∈ image.dirty
  rw [h.dirty]
  exact ⟨ha, hn.2.imp (fun ⟨x, hx, hnx⟩ => ⟨x, hx, hb.trans hnx⟩) fun ⟨c, hc, hnc⟩ => ⟨c, hc, hb.trans hnc⟩⟩

theorem setPage {p : ℕ} : Gathers H m leaf (insert (memoryPages + p) L) U (image.setPage p (m.contents p)) := by
  obtain ⟨d, heq, hd⟩ := h.markDirty (image.pages.insert p (m.contents p)) image.digests (memoryPages + p)
  have hiff (q : ℕ) : memoryPages + q = memoryPages + p ↔ q = p := by omega
  rw [MemoryImage.setPage, heq]
  constructor
  · intro q hq
    rw [OrderedMap.get?_insert]
    by_cases hqp : q = p
    · rw [if_pos hqp, hqp]
    · rw [if_neg hqp]
      exact h.page q (hq.resolve_left fun heq => hqp ((hiff q).mp heq))
  · intro q hq
    rw [Set.mem_insert_iff, not_or, hiff] at hq
    rw [OrderedMap.get?_insert, if_neg hq.1]
    exact h.no_page q hq.2
  · exact h.digest
  · exact h.root
  · exact h.no_digest
  · intro x
    show x ∈ d ↔ _
    rw [hd, h.dirty]
    constructor
    · rintro (⟨hx, ⟨n, hn, hb⟩ | hU⟩ | ⟨hx, hb⟩)
      · exact ⟨hx, .inl ⟨n, .inr hn, hb⟩⟩
      · exact ⟨hx, .inr hU⟩
      · exact ⟨hx, .inl ⟨_, .inl rfl, hb⟩⟩
    · rintro ⟨hx, ⟨n, rfl | hn, hb⟩ | hU⟩
      · exact .inr ⟨hx, hb⟩
      · exact .inl ⟨hx, .inl ⟨n, hn, hb⟩⟩
      · exact .inl ⟨hx, .inr hU⟩

theorem setDigest {c : ℕ} (hc : c ≠ 1) : Gathers H m leaf L (insert c U) (image.setDigest c (reference H leaf c)) := by
  obtain ⟨d, heq, hd⟩ := h.markDirty image.pages (image.digests.insert c (reference H leaf c)) (c / 2)
  rw [MemoryImage.setDigest, heq]
  constructor
  · exact h.page
  · exact h.no_page
  · intro x hx
    rw [OrderedMap.get?_insert]
    by_cases hxc : x = c
    · rw [if_pos hxc, hxc]
    · rw [if_neg hxc]
      exact h.digest x (hx.resolve_left hxc)
  · intro hroot
    rw [OrderedMap.get?_insert, if_neg (Ne.symm hc)]
    exact h.root fun hmem => hroot (.inr hmem)
  · intro x hx hx1
    rw [Set.mem_insert_iff, not_or] at hx
    rw [OrderedMap.get?_insert, if_neg hx.1]
    exact h.no_digest x hx.2 hx1
  · intro x
    show x ∈ d ↔ _
    rw [hd, h.dirty]
    constructor
    · rintro (⟨hx, hL | ⟨n, hn, hb⟩⟩ | ⟨hx, hb⟩)
      · exact ⟨hx, .inl hL⟩
      · exact ⟨hx, .inr ⟨n, .inr hn, hb⟩⟩
      · exact ⟨hx, .inr ⟨_, .inl rfl, hb⟩⟩
    · rintro ⟨hx, hL | ⟨n, rfl | hn, hb⟩⟩
      · exact .inl ⟨hx, .inl hL⟩
      · exact .inr ⟨hx, hb⟩
      · exact .inl ⟨hx, .inr ⟨n, hn, hb⟩⟩

end Gathers

theorem copyPage_available (hw : m.WellFormed) (hp : m.Available H p) :
    copyPage H m image (memoryPages + p) = .ok (image.setPage p (m.contents p)) := by
  rw [copyPage, Nat.add_sub_cancel_left, getPage_spec hw hp]
  rfl

theorem copyPage_ok (hw : m.WellFormed) {image' : MemoryImage} (hrun : copyPage H m image (memoryPages + p) = .ok image') :
    m.Available H p ∧ image' = image.setPage p (m.contents p) := by
  by_cases hp : m.Available H p
  · rw [copyPage_available hw hp] at hrun
    exact ⟨hp, (Except.ok.inj hrun).symm⟩
  · rw [copyPage, Nat.add_sub_cancel_left, getPage_of_unavailable hw hp] at hrun
    cases hrun

section

variable (hw : m.WellFormed) (l : List ℕ) (hl : ∀ n ∈ l, memoryPages ≤ n)

include hw l hl

theorem copyPages_ok {image' : MemoryImage}
    (h : Gathers H m leaf L U image) (hrun : l.foldlM (copyPage H m) image = .ok image') :
    (∀ n ∈ l, m.Available H (n - memoryPages)) ∧ Gathers H m leaf (L ∪ {n | n ∈ l}) U image' := by
  induction l generalizing L image with
  | nil =>
    cases hrun
    have hL : L ∪ {n | n ∈ ([] : List ℕ)} = L := by simp
    exact ⟨by simp, by rwa [hL]⟩
  | cons n l ih =>
    obtain ⟨p, rfl⟩ := Nat.exists_eq_add_of_le (hl n (by simp))
    rw [foldlM_cons] at hrun
    cases hstep : copyPage H m image (memoryPages + p) with
    | error fault =>
      rw [hstep] at hrun
      cases hrun
    | ok image₁ =>
      rw [hstep] at hrun
      obtain ⟨hp, rfl⟩ := copyPage_ok hw hstep
      obtain ⟨hrest, hgathers⟩ := ih (fun x hx => hl x (by simp [hx])) h.setPage hrun
      constructor
      · intro x hx
        rcases mem_cons.mp hx with rfl | hx
        · rwa [Nat.add_sub_cancel_left]
        · exact hrest x hx
      · have hL : L ∪ {x | x ∈ (memoryPages + p) :: l} = insert (memoryPages + p) L ∪ {x | x ∈ l} := by
          ext x
          simp only [mem_union, mem_ofPred_eq, mem_cons, Set.mem_insert_iff]
          tauto
        exact hL ▸ hgathers

theorem exists_copyPages (havailable : ∀ n ∈ l, m.Available H (n - memoryPages)) :
    ∃ image', l.foldlM (copyPage H m) image = .ok image' := by
  induction l generalizing image with
  | nil => exact ⟨image, rfl⟩
  | cons n l ih =>
    obtain ⟨p, rfl⟩ := Nat.exists_eq_add_of_le (hl n (by simp))
    have hp := havailable _ (mem_cons_self)
    rw [Nat.add_sub_cancel_left] at hp
    rw [foldlM_cons, copyPage_available hw hp]
    exact ih (fun x hx => hl x (by simp [hx])) fun x hx => havailable x (by simp [hx])

end

/-- What is gathered, and that the input is the one of the beginning but for updated digests. -/
structure Gathered (H : TreeHash) (m : MemoryImage) (leaf : ℕ → Digest) (L U : Set ℕ) (images : MemoryImage × MemoryImage) :
    Prop where
  image : Gathers H m leaf L U images.1
  input : Refreshes H leaf m images.2

variable {images images' : MemoryImage × MemoryImage}

theorem addUncle_ok (h : Gathered H m leaf L U images) (hc : Node c) (hc1 : c ≠ 1)
    (hrun : addUncle H indexes c images = .ok images') :
    Gathered H m leaf L (U ∪ {x | x = c ∧ x ∉ indexes}) images' := by
  by_cases hmem : c ∈ indexes
  · rw [addUncle, if_pos hmem] at hrun
    cases hrun
    have hU : U ∪ {x | x = c ∧ x ∉ indexes} = U := by
      ext x
      simp only [mem_union, mem_ofPred_eq, or_iff_left_iff_imp, and_imp]
      rintro rfl hx
      exact absurd hmem hx
    rwa [hU]
  · rw [addUncle, if_neg hmem] at hrun
    cases hdigest : images.2.getOrUpdateDigest H c with
    | error fault =>
      rw [hdigest] at hrun
      cases hrun
    | ok result =>
      obtain ⟨digest, input⟩ := result
      obtain ⟨rfl, hupdates⟩ := getOrUpdateDigest_ok h.input.wellFormed h.input.tracks hc hdigest
      rw [hdigest] at hrun
      cases hrun
      have hU : U ∪ {x | x = c ∧ x ∉ indexes} = insert c U := by
        ext x
        simp only [mem_union, mem_ofPred_eq, Set.mem_insert_iff]
        constructor
        · rintro (hx | ⟨rfl, -⟩)
          · exact .inr hx
          · exact .inl rfl
        · rintro (rfl | hx)
          · exact .inr ⟨rfl, hmem⟩
          · exact .inl hx
      exact ⟨hU ▸ h.image.setDigest hc1, h.input.trans hupdates.refreshes⟩

theorem exists_addUncle (h : Gathered H m leaf L U images) (hc : Node c)
    (hread : c ∉ indexes → c ∉ images.2.dirty → images.2.Populated c ∨ images.2.ReadsZero H c) :
    ∃ images', addUncle H indexes c images = .ok images' := by
  by_cases hmem : c ∈ indexes
  · exact ⟨images, if_pos hmem⟩
  · obtain ⟨input, heq, -⟩ := getOrUpdateDigest_spec h.input.wellFormed h.input.tracks hc (hread hmem)
    refine ⟨(images.1.setDigest c (reference H leaf c), input), ?_⟩
    rw [addUncle, if_neg hmem, heq]
    rfl

theorem child_node (hn : Node n) (hinner : n < memoryPages) (hc : c / 2 = n) : Node c ∧ c ≠ 1 := by
  have := hn.1
  exact ⟨⟨by omega, by omega⟩, by omega⟩

theorem addUncles_ok (h : Gathered H m leaf L U images) (hn : Node n) (hinner : n < memoryPages)
    (hrun : addUncles H indexes images n = .ok images') :
    Gathered H m leaf L (U ∪ {c | c / 2 = n ∧ c ∉ indexes}) images' := by
  have hleft := child_node hn hinner (show n * 2 / 2 = n by omega)
  have hright := child_node hn hinner (show (n * 2 + 1) / 2 = n by omega)
  rw [addUncles] at hrun
  cases hstep : addUncle H indexes (n * 2) images with
  | error fault =>
    rw [hstep] at hrun
    cases hrun
  | ok images₁ =>
    rw [hstep] at hrun
    have h1 := addUncle_ok h hleft.1 hleft.2 hstep
    have h2 := addUncle_ok h1 hright.1 hright.2 hrun
    have hU : U ∪ {c | c / 2 = n ∧ c ∉ indexes} =
        U ∪ {x | x = n * 2 ∧ x ∉ indexes} ∪ {x | x = n * 2 + 1 ∧ x ∉ indexes} := by
      ext c
      have hc : c / 2 = n ↔ c = n * 2 ∨ c = n * 2 + 1 := by omega
      simp only [mem_union, mem_ofPred_eq, hc]
      tauto
    exact hU ▸ h2

variable (l : List ℕ) (hl : ∀ n ∈ l, Node n ∧ n < memoryPages) (h : Gathered H m leaf L U images)

include l hl h

theorem uncles_ok (hrun : l.foldlM (addUncles H indexes) images = .ok images') :
    Gathered H m leaf L (U ∪ {c | c / 2 ∈ l ∧ c ∉ indexes}) images' := by
  induction l generalizing U images with
  | nil =>
    cases hrun
    have hU : U ∪ {c | c / 2 ∈ ([] : List ℕ) ∧ c ∉ indexes} = U := by simp
    rwa [hU]
  | cons n l ih =>
    rw [foldlM_cons] at hrun
    cases hstep : addUncles H indexes images n with
    | error fault =>
      rw [hstep] at hrun
      cases hrun
    | ok images₁ =>
      rw [hstep] at hrun
      obtain ⟨hn, hinner⟩ := hl n (by simp)
      have h1 := ih (fun x hx => hl x (by simp [hx])) (addUncles_ok h hn hinner hstep) hrun
      have hU : U ∪ {c | c / 2 ∈ n :: l ∧ c ∉ indexes} =
          U ∪ {c | c / 2 = n ∧ c ∉ indexes} ∪ {c | c / 2 ∈ l ∧ c ∉ indexes} := by
        ext c
        simp only [mem_union, mem_ofPred_eq, mem_cons]
        tauto
      exact hU ▸ h1

/-- What makes every missing digest readable makes the loop end. -/
theorem exists_uncles (hread : ∀ input, Refreshes H leaf m input → ∀ c, c / 2 ∈ l → c ∉ indexes → c ∉ input.dirty →
      input.Populated c ∨ input.ReadsZero H c) :
    ∃ images', l.foldlM (addUncles H indexes) images = .ok images' := by
  induction l generalizing U images with
  | nil => exact ⟨images, rfl⟩
  | cons n l ih =>
    obtain ⟨hn, hinner⟩ := hl n (by simp)
    have hleft := child_node hn hinner (show n * 2 / 2 = n by omega)
    have hright := child_node hn hinner (show (n * 2 + 1) / 2 = n by omega)
    obtain ⟨images₁, hstep1⟩ := exists_addUncle h hleft.1 (hread _ h.input _ (by simp))
    have h1 := addUncle_ok h hleft.1 hleft.2 hstep1
    obtain ⟨images₂, hstep2⟩ :=
      exists_addUncle h1 hright.1 (hread _ h1.input _ (by simp [show (n * 2 + 1) / 2 = n by omega]))
    have hstep : addUncles H indexes images n = .ok images₂ := by
      rw [addUncles, hstep1]
      exact hstep2
    rw [foldlM_cons, hstep]
    exact ih (fun x hx => hl x (by simp [hx])) (addUncles_ok h hn hinner hstep)
      fun input hinput c hc => hread input hinput c (by simp [hc])

end MemoryImage

end VerifiableCompute.Binfmt
