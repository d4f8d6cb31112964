import VerifiableCompute.Binfmt.Refresh

/-! Writing a page. Every mutator of the contents puts one page into the map and marks the
path from its leaf to the root; the image then tracks the leaves with that one changed. -/

namespace VerifiableCompute.Binfmt

open Lib Function

namespace MemoryImage

variable {H : TreeHash} {m m' : MemoryImage} {leaf : ℕ → Digest} {p : ℕ} {page : Page}

/-- A mark ends the walk, so the path above every mark has to be marked already. -/
theorem markDirty_spec (idx : ℕ) (h : ∀ n ≤ idx, n ∈ m.dirty → ∀ a ≠ 0, Below a n → a ∈ m.dirty) :
    ∃ d, m.markDirty idx = { m with dirty := d } ∧ ∀ x, x ∈ d ↔ x ∈ m.dirty ∨ x ≠ 0 ∧ Below x idx := by
  induction idx using Nat.strong_induction_on generalizing m with
  | _ idx ih =>
    rw [markDirty]
    by_cases h0 : idx = 0
    · refine ⟨m.dirty, if_pos h0, fun x => ⟨.inl, fun hx => hx.elim id fun ⟨hne, hb⟩ => ?_⟩⟩
      have := hb.le
      omega
    · rw [if_neg h0]
      by_cases hmem : idx ∈ m.dirty
      · exact ⟨m.dirty, if_pos hmem, fun x => ⟨.inl, fun hx => hx.elim id fun ⟨hne, hb⟩ => h idx le_rfl hmem x hne hb⟩⟩
      · have hstep : ∀ n ≤ idx / 2, n ∈ insert idx m.dirty → ∀ a ≠ 0, Below a n → a ∈ insert idx m.dirty := by
          intro n hn hmem a ha hb
          rcases Finset.mem_insert.mp hmem with rfl | hmem
          · omega
          · exact Finset.mem_insert_of_mem (h n (by omega) hmem a ha hb)
        obtain ⟨d, heq, hd⟩ := @ih (idx / 2) (by omega) ⟨m.pages, m.digests, insert idx m.dirty⟩ hstep
        refine ⟨d, by rw [if_neg hmem, heq], fun x => ?_⟩
        rw [hd, Finset.mem_insert]
        constructor
        · rintro ((rfl | hx) | ⟨hne, hb⟩)
          · exact .inr ⟨h0, .refl x⟩
          · exact .inl hx
          · exact .inr ⟨hne, hb.trans (below_half idx)⟩
        · rintro (hx | ⟨hne, hb⟩)
          · exact .inl (.inr hx)
          · by_cases heq : x = idx
            · exact .inl (.inl heq)
            · exact .inr ⟨hne, hb.of_ne heq⟩

/-- From `m` to `m'` the page `p` is set and the path to its leaf is marked. -/
structure Touches (p : ℕ) (page : Page) (m m' : MemoryImage) : Prop where
  lt : p < memoryPages
  pages : ∀ q, m'.pages.get? q = if q = p then some page else m.pages.get? q
  digests : m'.digests = m.digests
  dirty : ∀ x, x ∈ m'.dirty ↔ x ∈ m.dirty ∨ x ≠ 0 ∧ Below x (memoryPages + p)

theorem eq_of_below_leaf {p q : ℕ} (hp : p < memoryPages) (h : Below (memoryPages + q) (memoryPages + p)) : q = p := by
  by_contra hne
  have hb := (h.of_ne (by omega)).le
  omega

namespace Touches

variable (h : Touches p page m m')
include h

theorem leaf_node : Node (memoryPages + p) := by
  have hlt := h.lt
  constructor <;> omega

theorem loaded_self : m'.Loaded p := ⟨page, by rw [h.pages, if_pos rfl]⟩

theorem loaded_iff {q : ℕ} (hq : q ≠ p) : m'.Loaded q ↔ m.Loaded q := by
  rw [Loaded, Loaded, h.pages, if_neg hq]

theorem populated_iff {x : ℕ} : m'.Populated x ↔ m.Populated x := by
  rw [Populated, Populated, h.digests]

theorem nearest_iff {u x : ℕ} : m'.Nearest u x ↔ m.Nearest u x := by
  constructor
  · exact fun hu => ⟨hu.below, h.populated_iff.mp hu.populated,
      fun y hy hy' hp => hu.between y hy hy' (h.populated_iff.mpr hp)⟩
  · exact fun hu => ⟨hu.below, h.populated_iff.mpr hu.populated,
      fun y hy hy' hp => hu.between y hy hy' (h.populated_iff.mp hp)⟩

theorem dirty_self : memoryPages + p ∈ m'.dirty :=
  (h.dirty _).mpr (.inr ⟨by have := h.leaf_node.1; omega, .refl _⟩)

theorem known_mono {x : ℕ} (hx : m.Known x) : m'.Known x :=
  hx.imp h.populated_iff.mpr fun hd => (h.dirty x).mpr (.inl hd)

theorem wellFormed (hw : m.WellFormed) : m'.WellFormed where
  node {x} hx := by
    rcases hx with hx | hx
    · exact hw.node (.inl (h.populated_iff.mp hx))
    · rcases (h.dirty x).mp hx with hx | ⟨hne, hb⟩
      · exact hw.node (.inr hx)
      · have := hb.le
        have := h.leaf_node.2
        constructor <;> omega
  loaded_lt {q} hq := by
    by_cases hqp : q = p
    · exact hqp ▸ h.lt
    · exact hw.loaded_lt ((h.loaded_iff hqp).mp hq)
  dirty_parent {x} hx hne := by
    rw [h.dirty]
    rcases (h.dirty x).mp hx with hx | ⟨hne0, hb⟩
    · exact .inl (hw.dirty_parent hx hne)
    · exact .inr ⟨by omega, (below_half x).trans hb⟩
  root := h.populated_iff.mpr hw.root
  parent hx hne := h.known_mono (hw.parent (h.populated_iff.mp hx) hne)
  leaf {q} hq := by
    by_cases hqp : q = p
    · exact .inr (hqp ▸ h.dirty_self)
    · exact h.known_mono (hw.leaf ((h.loaded_iff hqp).mp hq))
  dirty_loaded {q} hq := by
    by_cases hqp : q = p
    · exact hqp ▸ h.loaded_self
    · rw [h.loaded_iff hqp]
      rcases (h.dirty _).mp hq with hq | ⟨-, hb⟩
      · exact hw.dirty_loaded hq
      · exact absurd (eq_of_below_leaf h.lt hb) hqp
  sibling {x} hx hne hparent := by
    have hparent : x / 2 ∉ m.dirty := fun hmem => hparent ((h.dirty _).mpr (.inl hmem))
    obtain ⟨hleft, hright⟩ := hw.sibling (h.populated_iff.mp hx) hne hparent
    exact ⟨h.populated_iff.mpr hleft, h.populated_iff.mpr hright⟩

theorem readsZero_cases {q : ℕ} (hzero : m'.ReadsZero H (memoryPages + q)) : m.ReadsZero H (memoryPages + q) ∨
      ∃ u, m.Nearest u (memoryPages + q) ∧ u ∉ m.dirty ∧ Below u (memoryPages + p) := by
  obtain ⟨u, hu, hread⟩ := hzero
  rw [h.nearest_iff] at hu
  rw [h.digests, h.dirty] at hread
  by_cases hdirty : u ∈ m.dirty
  · exact .inl ⟨u, hu, .inr hdirty⟩
  · rcases hread with hread | hread | ⟨-, hb⟩
    · exact .inl ⟨u, hu, .inl hread⟩
    · exact absurd hread hdirty
    · exact .inr ⟨u, hu, hdirty, hb⟩

theorem readsZero (hw : m.WellFormed) (havailable : m.Available H p) {q : ℕ} (hq : q ≠ p)
    (hqlt : q < memoryPages) (hzero : m'.ReadsZero H (memoryPages + q)) : m.ReadsZero H (memoryPages + q) := by
  rcases h.readsZero_cases hzero with hzero | ⟨u, hu, hdirty, hb⟩
  · exact hzero
  · have hne : u ≠ memoryPages + q := fun heq => hq (eq_of_below_leaf h.lt (heq ▸ hb))
    have hne' : u ≠ memoryPages + p := fun heq => hq (eq_of_below_leaf hqlt (heq ▸ hu.below)).symm
    have hunknown := hw.unknown_below hdirty hu hne hb hne'
    have hzero : m.ReadsZero H (memoryPages + p) := havailable.resolve_left fun hl => hunknown (hw.leaf hl)
    obtain ⟨u', hu', hread⟩ := hzero
    obtain rfl := hu'.unique (hw.nearest_beside hdirty hu hne hb)
    exact ⟨u', hu, hread⟩

theorem tracks (hw : m.WellFormed) (havailable : m.Available H p) (ht : m.Tracks H leaf) :
    m'.Tracks H (update leaf (memoryPages + p) (H.page page)) where
  page {q page'} hq := by
    rw [h.pages] at hq
    by_cases hqp : q = p
    · rw [if_pos hqp] at hq
      rw [hqp, update_self, Option.some.inj hq]
    · rw [if_neg hqp] at hq
      rw [update_of_ne (by omega), ht.page hq]
  digest {x digest} hx hclean := by
    rw [h.digests] at hx
    rw [h.dirty, not_or] at hclean
    have hnode := hw.node (.inl ⟨digest, hx⟩)
    rw [ht.digest hx hclean.1]
    refine reference_congr hnode fun y _ hy => ?_
    have hne : y ≠ memoryPages + p := fun heq => hclean.2 ⟨by have := hnode.1; omega, heq ▸ hy⟩
    rw [update_of_ne hne]
  zero {q} hqlt hq hzero := by
    have hqp : q ≠ p := fun heq => hq (heq ▸ h.loaded_self)
    rw [update_of_ne (by omega)]
    exact ht.zero hqlt (fun hl => hq ((h.loaded_iff hqp).mpr hl)) (h.readsZero hw havailable hqp hqlt hzero)

/-- A page that was not available can be set too. Leaves beside it then read as zero. -/
theorem exists_tracks (hw : m.WellFormed) (ht : m.Tracks H leaf) : ∃ leaf', m'.Tracks H leaf' := by
  classical
  refine ⟨fun x => if x = memoryPages + p then H.page page
    else if m'.ReadsZero H x ∧ ¬ m.ReadsZero H x then H.page .zero else leaf x, ?_, ?_, ?_⟩
  · intro q page' hq
    rw [h.pages] at hq
    by_cases hqp : q = p
    · rw [if_pos hqp] at hq
      rw [if_pos (by rw [hqp]), Option.some.inj hq]
    · rw [if_neg hqp] at hq
      rw [if_neg (by omega), if_neg]
      · exact ht.page hq
      · rintro ⟨hzero, hnot⟩
        obtain ⟨u, hu, hdirty, hb⟩ := (h.readsZero_cases hzero).resolve_left hnot
        rcases hw.leaf ⟨page', hq⟩ with hp | hd
        · have := hu.between _ hu.below (.refl _) hp
          exact hqp (eq_of_below_leaf h.lt (this ▸ hb))
        · exact hdirty (hw.dirty_above (hw.populated_ne_zero hu.populated) hu.below hd)
  · intro x digest hx hclean
    rw [h.digests] at hx
    rw [h.dirty, not_or] at hclean
    have hnode := hw.node (.inl ⟨digest, hx⟩)
    have hx0 : x ≠ 0 := by
      have := hnode.1
      omega
    rw [ht.digest hx hclean.1]
    refine reference_congr hnode fun y hy hb => ?_
    have hne : y ≠ memoryPages + p := fun heq => hclean.2 ⟨hx0, heq ▸ hb⟩
    obtain ⟨q, rfl⟩ := Nat.exists_eq_add_of_le hy.1
    rw [if_neg hne, if_neg]
    rintro ⟨hzero, hnot⟩
    obtain ⟨u, hu, hdirty, hbelow⟩ := (h.readsZero_cases hzero).resolve_left hnot
    rcases hu.below.total hb with hux | hxu
    · have := hu.between x hux hb ⟨digest, hx⟩
      exact hclean.2 ⟨hx0, this ▸ hbelow⟩
    · exact hclean.2 ⟨hx0, hxu.trans hbelow⟩
  · intro q hqlt hq hzero
    have hqp : q ≠ p := fun heq => hq (heq ▸ h.loaded_self)
    have hne : memoryPages + q ≠ memoryPages + p := by omega
    rw [if_neg hne]
    by_cases hold : m.ReadsZero H (memoryPages + q)
    · rw [if_neg fun hand => hand.2 hold]
      exact ht.zero hqlt (fun hl => hq ((h.loaded_iff hqp).mpr hl)) hold
    · rw [if_pos ⟨hzero, hold⟩]

theorem available {q : ℕ} (hq : m.Available H q) : m'.Available H q := by
  by_cases hqp : q = p
  · exact .inl (hqp ▸ h.loaded_self)
  · rcases hq with hl | ⟨u, hu, hread⟩
    · exact .inl ((h.loaded_iff hqp).mpr hl)
    · refine .inr ⟨u, h.nearest_iff.mpr hu, ?_⟩
      rw [h.digests, h.dirty]
      exact hread.imp id .inl

end Touches

theorem WellFormed.markDirty_of_dirty (hw : m.WellFormed) (pages : OrderedMap ℕ Page) (digests : OrderedMap ℕ Digest)
    (idx : ℕ) : ∃ d, (⟨pages, digests, m.dirty⟩ : MemoryImage).markDirty idx = ⟨pages, digests, d⟩ ∧
      ∀ x, x ∈ d ↔ x ∈ m.dirty ∨ x ≠ 0 ∧ Below x idx :=
  markDirty_spec idx fun _ _ hmem _ ha hb => hw.dirty_above ha hb hmem

theorem setPage_spec (hw : m.WellFormed) (hp : p < memoryPages) : Touches p page m (m.setPage p page) := by
  obtain ⟨d, heq, hd⟩ := hw.markDirty_of_dirty (m.pages.insert p page) m.digests (memoryPages + p)
  rw [setPage, heq]
  exact ⟨hp, fun q => OrderedMap.get?_insert .., rfl, hd⟩

def contents (m : MemoryImage) (p : ℕ) : Page := (m.pages.get? p).getD .zero

theorem isZero_of_missing (hw : m.WellFormed) (hp : m.Available H p) (hget : m.pages.get? p = none) :
    m.isZero H (memoryPages + p) = .ok true := by
  have hloaded : ¬ m.Loaded p := by
    rintro ⟨page, h⟩
    rw [hget] at h
    cases h
  have hpos : 0 < memoryPages + p := Nat.add_pos_left (by decide) p
  obtain ⟨b, hb, hiff⟩ := isZero_spec (H := H) hw hpos
  rw [hb, hiff.mpr (hp.resolve_left hloaded)]

theorem getPage_spec (hw : m.WellFormed) (hp : m.Available H p) : m.getPage H p = .ok (m.contents p) := by
  rw [getPage, contents]
  cases hget : m.pages.get? p with
  | some page => rfl
  | none =>
    rw [isZero_of_missing hw hp hget]
    rfl

theorem getPageMut_spec (hw : m.WellFormed) (hlt : p < memoryPages) (hp : m.Available H p) :
    ∃ m', m.getPageMut H p = .ok (m.contents p, m') ∧
      ∀ page, Touches p page m { m' with pages := m'.pages.insert p page } := by
  obtain ⟨d, heq, hd⟩ := hw.markDirty_of_dirty m.pages m.digests (memoryPages + p)
  rw [getPageMut, contents, heq]
  cases hget : m.pages.get? p with
  | some page => exact ⟨_, rfl, fun page => ⟨hlt, fun q => OrderedMap.get?_insert .., rfl, hd⟩⟩
  | none =>
    refine ⟨⟨m.pages.insert p .zero, m.digests, d⟩, ?_, fun page => ⟨hlt, fun q => ?_, rfl, hd⟩⟩
    · rw [isZero_of_missing hw hp hget]
      rfl
    · rw [OrderedMap.get?_insert, OrderedMap.get?_insert]
      by_cases hq : q = p
      · rw [if_pos hq, if_pos hq]
      · rw [if_neg hq, if_neg hq, if_neg hq]

end MemoryImage

end VerifiableCompute.Binfmt
