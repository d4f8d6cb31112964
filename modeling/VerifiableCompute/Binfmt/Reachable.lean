import VerifiableCompute.Binfmt.Writes

/-! Images reached by any calls of the mutators, with digests supplied by the caller. Each
is well formed and tracks some tree; the caller answers for that where it supplies a
digest. -/

namespace VerifiableCompute.Binfmt

open Lib

namespace MemoryImage

variable {H : TreeHash} {m m' : MemoryImage} {leaf : ℕ → Digest} {p n : ℕ}

section

variable (hw : m.WellFormed)

include hw

theorem isZero_of_unavailable (hp : ¬ m.Available H p) :
    m.pages.get? p = none ∧ m.isZero H (memoryPages + p) = .ok false := by
  constructor
  · cases hget : m.pages.get? p with
    | none => rfl
    | some page => exact absurd (.inl ⟨page, hget⟩) hp
  · have hpos : 0 < memoryPages + p := Nat.add_pos_left (by decide) p
    obtain ⟨b, hb, hiff⟩ := isZero_spec (H := H) hw hpos
    have hfalse : b = false := Bool.eq_false_iff.mpr fun h => hp (.inr (hiff.mp h))
    rw [hb, hfalse]

theorem getPage_of_unavailable (hp : ¬ m.Available H p) : m.getPage H p = .error (.unavailablePage p) := by
  obtain ⟨hnone, hzero⟩ := isZero_of_unavailable hw hp
  rw [getPage, hnone]
  show (m.isZero H (memoryPages + p) >>= _) = _
  rw [hzero]
  rfl

theorem getPageMut_of_unavailable (hp : ¬ m.Available H p) : m.getPageMut H p = .error (.unavailablePage p) := by
  obtain ⟨hnone, hzero⟩ := isZero_of_unavailable hw hp
  rw [getPageMut, hnone]
  show (m.isZero H (memoryPages + p) >>= _) = _
  rw [hzero]
  rfl

theorem touches_of_getPageMut (hp : p < memoryPages) {page : Page} (hrun : m.getPageMut H p = .ok (page, m'))
    (page' : Page) : Touches p page' m { m' with pages := m'.pages.insert p page' } := by
  by_cases havailable : m.Available H p
  · obtain ⟨m₁, heq, htouches⟩ := getPageMut_spec hw hp havailable
    obtain ⟨-, rfl⟩ := Prod.mk.inj (Except.ok.inj (hrun.symm.trans heq))
    exact htouches page'
  · rw [getPageMut_of_unavailable hw havailable] at hrun
    cases hrun

theorem getOrUpdateDigest_of_unreadable (hn : Node n) (hclean : n ∉ m.dirty) (hp : ¬ m.Populated n)
    (hzero : ¬ m.ReadsZero H n) : m.getOrUpdateDigest H n = .error (.unavailableDigest n) := by
  have hnone : m.digests.get? n = none := by
    cases hget : m.digests.get? n with
    | none => rfl
    | some digest => exact absurd ⟨digest, hget⟩ hp
  obtain ⟨b, hb, hiff⟩ := isZero_spec (H := H) hw (x := n) hn.1
  have hfalse : b = false := Bool.eq_false_iff.mpr fun h => hzero (hiff.mp h)
  have hupdate : m.updateSubtreeDigests H (merkleTreeDepth + 1) n = .ok m := by
    rw [updateSubtreeDigests, if_pos hclean]
    rfl
  have hdigest : m.getDigest H n = .error (.unavailableDigest n) := by
    rw [getDigest, if_neg hclean, hnone]
    show (m.isZero H n >>= _) = _
    rw [hb, hfalse]
    rfl
  rw [getOrUpdateDigest, hupdate]
  show (m.getDigest H n >>= _) = _
  rw [hdigest]
  rfl

theorem getOrUpdateDigest_ok (ht : m.Tracks H leaf) (hn : Node n) {digest : Digest}
    (hrun : m.getOrUpdateDigest H n = .ok (digest, m')) : digest = reference H leaf n ∧ UpdatesSubtree H leaf n m m' := by
  have hread : n ∉ m.dirty → m.Populated n ∨ m.ReadsZero H n := by
    intro hclean
    by_contra hnot
    rw [not_or] at hnot
    rw [getOrUpdateDigest_of_unreadable hw hn hclean hnot.1 hnot.2] at hrun
    cases hrun
  obtain ⟨m₁, heq, hupdates⟩ := getOrUpdateDigest_spec hw ht hn hread
  obtain ⟨rfl, rfl⟩ := Prod.mk.inj (Except.ok.inj (hrun.symm.trans heq))
  exact ⟨rfl, hupdates⟩

end

/-- From `m` to `m'` a digest is supplied and the path above it is marked. -/
structure Supplies (n : ℕ) (digest : Digest) (m m' : MemoryImage) : Prop where
  node : Node n
  digests : ∀ x, m'.digests.get? x = if x = n then some digest else m.digests.get? x
  dirty : ∀ x, x ∈ m'.dirty ↔ x ∈ m.dirty ∨ x ≠ 0 ∧ Below x (n / 2)

theorem setDigest_spec (hw : m.WellFormed) (hn : Node n) (digest : Digest) :
    Supplies n digest m (m.setDigest n digest) ∧ (m.setDigest n digest).pages = m.pages := by
  obtain ⟨d, heq, hd⟩ := hw.markDirty_of_dirty m.pages (m.digests.insert n digest) (n / 2)
  rw [setDigest, heq]
  exact ⟨⟨hn, fun x => OrderedMap.get?_insert .., hd⟩, rfl⟩

theorem setPageWithDigest_spec (hw : m.WellFormed) (hp : p < memoryPages) (page : Page) (digest : Digest) :
    Supplies (memoryPages + p) digest m (m.setPageWithDigest p page digest) ∧
      (m.setPageWithDigest p page digest).pages = m.pages.insert p page := by
  obtain ⟨d, heq, hd⟩ :=
    hw.markDirty_of_dirty (m.pages.insert p page) (m.digests.insert (memoryPages + p) digest) ((memoryPages + p) / 2)
  rw [setPageWithDigest, heq]
  exact ⟨⟨⟨by omega, by omega⟩, fun x => OrderedMap.get?_insert .., hd⟩, rfl⟩

namespace Supplies

variable {digest : Digest} (h : Supplies n digest m m')
include h

theorem populated_iff {x : ℕ} : m'.Populated x ↔ x = n ∨ m.Populated x := by
  rw [Populated, Populated, h.digests]
  by_cases hx : x = n
  · rw [if_pos hx]
    exact iff_of_true ⟨digest, rfl⟩ (.inl hx)
  · rw [if_neg hx]
    exact ⟨.inr, fun h => h.resolve_left hx⟩

theorem known_mono {x : ℕ} (hx : m.Known x) : m'.Known x :=
  hx.imp (fun hp => h.populated_iff.mpr (.inr hp)) fun hd => (h.dirty x).mpr (.inl hd)

/-- The loaded pages stay, and the page of a supplied leaf digest may be new. -/
theorem wellFormed (hw : m.WellFormed) (hload : ∀ q, m.Loaded q → m'.Loaded q)
    (hnew : ∀ q, m'.Loaded q → m.Loaded q ∨ memoryPages + q = n) : m'.WellFormed where
  node {x} hx := by
    rcases hx with hx | hx
    · rcases h.populated_iff.mp hx with rfl | hx
      · exact h.node
      · exact hw.node (.inl hx)
    · rcases (h.dirty x).mp hx with hx | ⟨hne, hb⟩
      · exact hw.node (.inr hx)
      · have := hb.le
        have := h.node.2
        constructor <;> omega
  loaded_lt {q} hq := by
    rcases hnew q hq with hq | heq
    · exact hw.loaded_lt hq
    · have := h.node.2
      omega
  dirty_parent {x} hx hne := by
    rw [h.dirty]
    rcases (h.dirty x).mp hx with hx | ⟨hne0, hb⟩
    · exact .inl (hw.dirty_parent hx hne)
    · exact .inr ⟨by omega, (below_half x).trans hb⟩
  root := h.populated_iff.mpr (.inr hw.root)
  parent {x} hx hne := by
    rcases h.populated_iff.mp hx with rfl | hx
    · have := h.node.1
      exact .inr ((h.dirty _).mpr (.inr ⟨by omega, .refl _⟩))
    · exact h.known_mono (hw.parent hx hne)
  leaf {q} hq := by
    rcases hnew q hq with hq | rfl
    · exact h.known_mono (hw.leaf hq)
    · exact .inl (h.populated_iff.mpr (.inl rfl))
  dirty_loaded {q} hq := by
    rcases (h.dirty _).mp hq with hq | ⟨-, hb⟩
    · exact hload q (hw.dirty_loaded hq)
    · have := hb.le
      have := h.node.2
      omega
  sibling {x} hx hne hparent := by
    rw [h.dirty, not_or] at hparent
    rcases h.populated_iff.mp hx with rfl | hx
    · have := h.node.1
      exact (hparent.2 ⟨by omega, .refl _⟩).elim
    · obtain ⟨hleft, hright⟩ := hw.sibling hx hne hparent.1
      exact ⟨h.populated_iff.mpr (.inr hleft), h.populated_iff.mpr (.inr hright)⟩

end Supplies

/-- The images that calls in range lead to. A digest is supplied only where the image then
still agrees with some tree: that is the caller's part. -/
inductive Reachable (H : TreeHash) : MemoryImage → Prop
  | default : Reachable H (default H)
  | setPage {m : MemoryImage} (h : Reachable H m) {p : ℕ} (hp : p < memoryPages) (page : Page) :
    Reachable H (m.setPage p page)
  | setWord {m m' : MemoryImage} (h : Reachable H m) {addr : ℕ} (haddr : addr < memoryPages * pageWords)
    (word : BitVec 32) (hrun : m.setWord H addr word = .ok m') : Reachable H m'
  | setPageWithDigest {m : MemoryImage} (h : Reachable H m) {p : ℕ} (hp : p < memoryPages) (page : Page) (digest : Digest)
    (hvalid : ∃ leaf, (m.setPageWithDigest p page digest).Tracks H leaf) :
    Reachable H (m.setPageWithDigest p page digest)
  | setDigest {m : MemoryImage} (h : Reachable H m) {n : ℕ} (hn : Node n) (digest : Digest)
    (hvalid : ∃ leaf, (m.setDigest n digest).Tracks H leaf) : Reachable H (m.setDigest n digest)
  | getOrUpdateDigest {m m' : MemoryImage} (h : Reachable H m) {n : ℕ} (hn : Node n) {digest : Digest}
    (hrun : m.getOrUpdateDigest H n = .ok (digest, m')) : Reachable H m'
  | updateDigests {m m' : MemoryImage} (h : Reachable H m) (hrun : m.updateDigests H = .ok m') : Reachable H m'

def Tracked (H : TreeHash) (m : MemoryImage) : Prop := m.WellFormed ∧ ∃ leaf, m.Tracks H leaf

theorem Reachable.tracked (h : Reachable H m) : m.Tracked H := by
  induction h with
  | default => exact ⟨default_wellFormed, fun _ => H.page .zero, default_tracks fun _ _ => rfl⟩
  | setPage h hp page ih =>
    obtain ⟨hw, leaf, ht⟩ := ih
    have htouches := @setPage_spec _ _ page hw hp
    exact ⟨htouches.wellFormed hw, htouches.exists_tracks hw ht⟩
  | @setWord m m' h addr haddr word hrun ih =>
    obtain ⟨hw, leaf, ht⟩ := ih
    have hp : addr / pageWords < memoryPages := Nat.div_lt_of_lt_mul (by rwa [Nat.mul_comm] at haddr)
    cases hmut : m.getPageMut H (addr / pageWords) with
    | error fault =>
      rw [MemoryImage.setWord, hmut] at hrun
      cases hrun
    | ok result =>
      obtain ⟨page, m₁⟩ := result
      have htouches := touches_of_getPageMut hw hp hmut (page.store addr word)
      rw [MemoryImage.setWord, hmut] at hrun
      cases hrun
      exact ⟨htouches.wellFormed hw, htouches.exists_tracks hw ht⟩
  | @setPageWithDigest m h p hp page digest hvalid ih =>
    obtain ⟨hsupplies, hpages⟩ := setPageWithDigest_spec ih.1 hp page digest
    refine ⟨hsupplies.wellFormed ih.1 (fun q hq => ?_) fun q hq => ?_, hvalid⟩
    · rw [Loaded, hpages, OrderedMap.get?_insert]
      by_cases hqp : q = p
      · rw [if_pos hqp]
        exact ⟨page, rfl⟩
      · rwa [if_neg hqp]
    · rw [Loaded, hpages, OrderedMap.get?_insert] at hq
      by_cases hqp : q = p
      · exact .inr (by rw [hqp])
      · rw [if_neg hqp] at hq
        exact .inl hq
  | setDigest h hn digest hvalid ih =>
    obtain ⟨hsupplies, hpages⟩ := setDigest_spec ih.1 hn digest
    refine ⟨hsupplies.wellFormed ih.1 (fun q hq => ?_) fun q hq => .inl ?_, hvalid⟩
    · rwa [Loaded, hpages]
    · rwa [Loaded, hpages] at hq
  | getOrUpdateDigest h hn hrun ih =>
    obtain ⟨hw, leaf, ht⟩ := ih
    have hrefresh := (getOrUpdateDigest_ok hw ht hn hrun).2.refreshes
    exact ⟨hrefresh.wellFormed, leaf, hrefresh.tracks⟩
  | updateDigests h hrun ih =>
    obtain ⟨hw, leaf, ht⟩ := ih
    obtain ⟨m', heq, -, hrefresh⟩ := updateDigests_spec hw ht
    obtain rfl := Except.ok.inj (hrun.symm.trans heq)
    exact ⟨hrefresh.wellFormed, leaf, hrefresh.tracks⟩

end MemoryImage

end VerifiableCompute.Binfmt
