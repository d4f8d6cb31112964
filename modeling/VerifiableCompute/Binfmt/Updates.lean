import VerifiableCompute.Binfmt.Tracking

/-! Updating digests. One dirty node whose children are clean becomes clean; the image
stays well formed and tracks the same leaves. Both ways to update go through the dirty
nodes in such an order. -/

namespace VerifiableCompute.Binfmt

open Lib Finset

namespace MemoryImage

variable {H : TreeHash} {m m' : MemoryImage} {leaf : ℕ → Digest} {n : ℕ}

theorem nearest_spec (hroot : m.Populated 1) {x : ℕ} (hx : 0 < x) :
    ∃ u, m.nearest x x.log2 = (u, u.log2) ∧ m.Nearest u x := by
  induction x using Nat.strong_induction_on with
  | _ x ih =>
    rw [nearest]
    by_cases hp : m.Populated x
    · have hsome : x = 0 ∨ (m.digests.get? x).isSome := .inr (Option.isSome_iff_exists.mpr hp)
      exact ⟨x, if_pos hsome, .refl x, hp, fun y hb hb' _ => hb'.antisymm hb⟩
    · have hne : x ≠ 1 := fun h => hp (h ▸ hroot)
      have hnone : ¬ (x = 0 ∨ (m.digests.get? x).isSome) := by
        rintro (h | h)
        · omega
        · exact hp (Option.isSome_iff_exists.mp h)
      obtain ⟨u, heq, hu⟩ := ih (x / 2) (by omega) (by omega)
      have hlog : x.log2 - 1 = (x / 2).log2 := by
        rw [log2_child (n := x / 2) (by omega) rfl, Nat.add_sub_cancel]
      rw [if_neg hnone, hlog, heq]
      refine ⟨u, rfl, hu.below.trans (below_half x), hu.populated, fun y hb hb' hy => ?_⟩
      have hyx : y ≠ x := fun h => hp (h ▸ hy)
      exact hu.between y hb (hb'.of_ne hyx) hy

theorem isZero_spec (hw : m.WellFormed) {x : ℕ} (hx : 0 < x) :
    ∃ b : Bool, m.isZero H x = .ok b ∧ (b = true ↔ m.ReadsZero H x) := by
  obtain ⟨u, heq, hu⟩ := nearest_spec hw.root hx
  obtain ⟨digest, hdigest⟩ := hu.populated
  refine ⟨decide (digest = zeroCache H u.log2 ∨ u ∈ m.dirty), ?_, ?_⟩
  · unfold isZero
    rw [if_neg (by omega), heq]
    dsimp only [bind, Except.bind]
    rw [hdigest]
  · rw [decide_eq_true_iff]
    constructor
    · intro h
      refine ⟨u, hu, ?_⟩
      rw [hdigest]
      exact h.imp (congrArg some) id
    · rintro ⟨u', hu', h⟩
      obtain rfl := hu.unique hu'
      rw [hdigest] at h
      exact h.imp Option.some.inj id

/-- From `m` to `m'` the dirty node `n` becomes clean, and its children are populated. -/
structure Cleans (H : TreeHash) (leaf : ℕ → Digest) (n : ℕ) (m m' : MemoryImage) : Prop where
  pages : m'.pages = m.pages
  dirty : m'.dirty = m.dirty.erase n
  self : m'.digests.get? n = some (reference H leaf n)
  child : n < memoryPages → ∀ c, c / 2 = n → m'.digests.get? c = some ((m.digests.get? c).getD (zeroCache H c.log2))
  other : ∀ x, x ≠ n → (n < memoryPages → x / 2 ≠ n) → m'.digests.get? x = m.digests.get? x

theorem populate_eq (digestIdx childDepth : ℕ) (m : MemoryImage) :
    ∃ m', m.populate H digestIdx childDepth = ((m.digests.get? digestIdx).getD (zeroCache H childDepth), m') ∧
      m'.pages = m.pages ∧ m'.dirty = m.dirty ∧ ∀ x, m'.digests.get? x =
        if x = digestIdx then some ((m.digests.get? digestIdx).getD (zeroCache H childDepth)) else m.digests.get? x := by
  unfold populate
  cases hd : m.digests.get? digestIdx with
  | some digest =>
    refine ⟨m, rfl, rfl, rfl, fun x => ?_⟩
    by_cases hx : x = digestIdx
    · rw [if_pos hx, hx, hd]
      rfl
    · rw [if_neg hx]
  | none => exact ⟨_, rfl, rfl, rfl, fun x => OrderedMap.get?_insert ..⟩

theorem child_digest (hw : m.WellFormed) (ht : m.Tracks H leaf) (hn : n ∈ m.dirty) (hinner : n < memoryPages) {c : ℕ}
    (hc : c / 2 = n) (hclean : c ∉ m.dirty) : (m.digests.get? c).getD (zeroCache H c.log2) = reference H leaf c := by
  have hn0 := (hw.node (.inr hn)).1
  cases hd : m.digests.get? c with
  | some digest => exact ht.digest hd hclean
  | none =>
    have hunknown : ¬ m.Known c := by
      rintro (⟨digest, h⟩ | h)
      · rw [hd] at h
        cases h
      · exact hclean h
    have hnode : Node c := by
      constructor <;> omega
    exact (hw.reference_of_unknown ht hnode hunknown (hc ▸ hn)).symm

theorem updateDirtyDigest_spec (hw : m.WellFormed) (ht : m.Tracks H leaf) (hn : n ∈ m.dirty)
    (hclean : ∀ c, c / 2 = n → c ∉ m.dirty) (d : Finset ℕ) :
    ∃ m', Cleans H leaf n m m' ∧ updateDirtyDigest H n { m with dirty := d } = .ok { m' with dirty := d } := by
  have hnode := hw.node (.inr hn)
  by_cases hinner : n < memoryPages
  · have hn0 : n ≠ 0 := by
      have := hnode.1
      omega
    have hleft : n * 2 / 2 = n := by omega
    have hright : (n * 2 + 1) / 2 = n := by omega
    obtain ⟨m₁, heq1, hpages1, hdirty1, hget1⟩ := populate_eq (H := H) (n * 2) (n.log2 + 1) { m with dirty := d }
    obtain ⟨m₂, heq2, hpages2, hdirty2, hget2⟩ := populate_eq (H := H) (n * 2 + 1) (n.log2 + 1) m₁
    have hlhs : (m.digests.get? (n * 2)).getD (zeroCache H (n.log2 + 1)) = reference H leaf (n * 2) := by
      rw [← log2_child hn0 hleft]
      exact child_digest hw ht hn hinner hleft (hclean _ hleft)
    have hrhs : (m.digests.get? (n * 2 + 1)).getD (zeroCache H (n.log2 + 1)) = reference H leaf (n * 2 + 1) := by
      rw [← log2_child hn0 hright]
      exact child_digest hw ht hn hinner hright (hclean _ hright)
    have hget1' : m₁.digests.get? (n * 2 + 1) = m.digests.get? (n * 2 + 1) := by
      rw [hget1, if_neg (by omega)]
    refine ⟨⟨m₂.pages, m₂.digests.insert n (reference H leaf n), m.dirty.erase n⟩, ?_, ?_⟩
    · constructor
      · rw [hpages2, hpages1]
      · rfl
      · rw [OrderedMap.get?_insert, if_pos rfl]
      · intro _ c hc
        have hcn : c ≠ n := by omega
        rw [OrderedMap.get?_insert, if_neg hcn, hget2, log2_child hn0 hc]
        by_cases h : c = n * 2 + 1
        · rw [if_pos h, h, hget1']
        · have h' : c = n * 2 := by omega
          rw [if_neg h, hget1, if_pos h', h']
      · intro x hx hxn
        rw [OrderedMap.get?_insert, if_neg hx, hget2, if_neg (by omega), hget1, if_neg (by omega)]
    · have hpair : reference H leaf n = H.pair (reference H leaf (n * 2)) (reference H leaf (n * 2 + 1)) := by
        rw [Nat.mul_comm]
        exact reference_inner leaf hn0 hinner
      have hbad : ¬ (n = 0 ∨ memoryPages ≤ n) := by omega
      rw [updateDirtyDigest, if_pos hinner, updateInnerDigest, if_neg hbad]
      simp only [heq1, heq2, hget1', hlhs, hrhs, ← hpair, hdirty2, hdirty1]
  · have hleaf : Leaf n := ⟨by omega, hnode.2⟩
    obtain ⟨p, rfl⟩ := Nat.exists_eq_add_of_le hleaf.1
    obtain ⟨page, hpage⟩ := hw.dirty_loaded hn
    refine ⟨⟨m.pages, m.digests.insert (memoryPages + p) (reference H leaf (memoryPages + p)),
      m.dirty.erase (memoryPages + p)⟩, ?_, ?_⟩
    · constructor
      · rfl
      · rfl
      · rw [OrderedMap.get?_insert, if_pos rfl]
      · exact fun h => absurd h hinner
      · intro x hx _
        rw [OrderedMap.get?_insert, if_neg hx]
    · have hinner' : ¬ memoryPages + p < memoryPages := hinner
      rw [updateDirtyDigest, if_neg hinner, updatePageDigest, if_neg hinner', Nat.add_sub_cancel_left]
      dsimp only
      rw [hpage, reference_leaf leaf hleaf, ht.page hpage]

namespace Cleans

variable (h : Cleans H leaf n m m')
include h

theorem loaded_iff {p : ℕ} : m'.Loaded p ↔ m.Loaded p := by
  rw [Loaded, Loaded, h.pages]

theorem dirty_subset {x : ℕ} (hx : x ∈ m'.dirty) : x ∈ m.dirty := by
  rw [h.dirty] at hx
  exact mem_of_mem_erase hx

theorem populated_self : m'.Populated n := ⟨_, h.self⟩

theorem populated_child (hinner : n < memoryPages) {c : ℕ} (hc : c / 2 = n) : m'.Populated c :=
  ⟨_, h.child hinner c hc⟩

theorem populated_mono {x : ℕ} (hx : m.Populated x) : m'.Populated x := by
  by_cases hself : x = n
  · exact hself ▸ h.populated_self
  · by_cases hchild : n < memoryPages ∧ x / 2 = n
    · exact h.populated_child hchild.1 hchild.2
    · rw [Populated, h.other x hself fun hinner hc => hchild ⟨hinner, hc⟩]
      exact hx

theorem known_mono {x : ℕ} (hx : m.Known x) : m'.Known x := by
  by_cases hself : x = n
  · exact .inl (hself ▸ h.populated_self)
  · rcases hx with hx | hx
    · exact .inl (h.populated_mono hx)
    · rw [Known, h.dirty]
      exact .inr (mem_erase.mpr ⟨hself, hx⟩)

/-- A node populated by the step is the node itself or a child of it. -/
theorem populated_cases {x : ℕ} (hx : m'.Populated x) : x = n ∨ n < memoryPages ∧ x / 2 = n ∨ m.Populated x := by
  by_cases hself : x = n
  · exact .inl hself
  · by_cases hchild : n < memoryPages ∧ x / 2 = n
    · exact .inr (.inl hchild)
    · rw [Populated, h.other x hself fun hinner hc => hchild ⟨hinner, hc⟩] at hx
      exact .inr (.inr hx)

theorem wellFormed (hw : m.WellFormed) (hn : n ∈ m.dirty) (hclean : ∀ c, c / 2 = n → c ∉ m.dirty) : m'.WellFormed where
  node {x} hx := by
    have hnode := hw.node (.inr hn)
    rcases hx with hx | hx
    · rcases h.populated_cases hx with rfl | ⟨hinner, hc⟩ | hx
      · exact hnode
      · have := hnode.1
        constructor <;> omega
      · exact hw.node (.inl hx)
    · exact hw.node (.inr (h.dirty_subset hx))
  loaded_lt hp := hw.loaded_lt (h.loaded_iff.mp hp)
  dirty_parent {x} hx hne := by
    have hparent := hw.dirty_parent (h.dirty_subset hx) hne
    rw [h.dirty]
    exact mem_erase.mpr ⟨fun heq => hclean x heq (h.dirty_subset hx), hparent⟩
  root := h.populated_mono hw.root
  parent {x} hx hne := by
    rcases h.populated_cases hx with rfl | ⟨hinner, hc⟩ | hx
    · exact h.known_mono (.inr (hw.dirty_parent hn hne))
    · exact .inl (hc ▸ h.populated_self)
    · exact h.known_mono (hw.parent hx hne)
  leaf hp := h.known_mono (hw.leaf (h.loaded_iff.mp hp))
  dirty_loaded hx := h.loaded_iff.mpr (hw.dirty_loaded (h.dirty_subset hx))
  sibling {x} hx hne hparent := by
    by_cases hxn : x / 2 = n
    · have hnode := hw.node (.inr hn)
      by_cases hinner : n < memoryPages
      · exact ⟨h.populated_child hinner (by omega), h.populated_child hinner (by omega)⟩
      · rcases h.populated_cases hx with heq | ⟨hlt, -⟩ | hx
        · have := hnode.1
          omega
        · exact absurd hlt hinner
        · have := (hw.node (.inl hx)).2
          omega
    · have hparent : x / 2 ∉ m.dirty := fun hmem => hparent (h.dirty ▸ mem_erase.mpr ⟨hxn, hmem⟩)
      rcases h.populated_cases hx with rfl | ⟨-, hc⟩ | hx
      · exact absurd (hw.dirty_parent hn hne) hparent
      · exact absurd hc hxn
      · obtain ⟨hleft, hright⟩ := hw.sibling hx hne hparent
        exact ⟨h.populated_mono hleft, h.populated_mono hright⟩

/-- The nearest populated node of a leaf that is not loaded was so before, or it is a child
that the step set to zeros. -/
theorem nearest_cases (hw : m.WellFormed) (hn : n ∈ m.dirty) {p u : ℕ} (hp : ¬ m.Loaded p)
    (hu : m'.Nearest u (memoryPages + p)) (hlt : p < memoryPages) :
    n < memoryPages ∧ u / 2 = n ∧ m.digests.get? u = none ∨
      m.Nearest u (memoryPages + p) ∧ u ≠ n ∧ m'.digests.get? u = m.digests.get? u := by
  have hne : n ≠ memoryPages + p := fun heq => hp (hw.dirty_loaded (heq ▸ hn))
  have hnode := hw.node (.inr hn)
  have hun : u ≠ n := by
    rintro rfl
    have hinner : u < memoryPages := by
      by_contra hge
      have hb := hu.below
      have hdiv : Below u ((memoryPages + p) / 2) := hb.of_ne hne
      have := hdiv.le
      omega
    rcases hu.below.child hne with hb | hb
    · have := hu.between _ (below_left u) hb (h.populated_child hinner (by omega))
      have := hnode.1
      omega
    · have := hu.between _ (below_right u) hb (h.populated_child hinner (by omega))
      omega
  by_cases hchild : n < memoryPages ∧ u / 2 = n
  · cases hd : m.digests.get? u with
    | none => exact .inl ⟨hchild.1, hchild.2, rfl⟩
    | some digest =>
      refine .inr ⟨⟨hu.below, ⟨digest, hd⟩, fun y hb hb' hy => hu.between y hb hb' (h.populated_mono hy)⟩, hun, ?_⟩
      rw [h.child hchild.1 u hchild.2, hd]
      rfl
  · have hget := h.other u hun fun hinner hc => hchild ⟨hinner, hc⟩
    refine .inr ⟨⟨hu.below, ?_, fun y hb hb' hy => hu.between y hb hb' (h.populated_mono hy)⟩, hun, hget⟩
    rw [Populated, ← hget]
    exact hu.populated

theorem tracks (hw : m.WellFormed) (ht : m.Tracks H leaf) (hn : n ∈ m.dirty) (hclean : ∀ c, c / 2 = n → c ∉ m.dirty) :
    m'.Tracks H leaf where
  page hp := ht.page (h.pages ▸ hp)
  digest {x digest} hx hxd := by
    by_cases hself : x = n
    · rw [hself, h.self] at hx
      rw [hself]
      exact (Option.some.inj hx).symm
    · by_cases hchild : n < memoryPages ∧ x / 2 = n
      · rw [h.child hchild.1 x hchild.2, child_digest hw ht hn hchild.1 hchild.2 (hclean x hchild.2)] at hx
        exact (Option.some.inj hx).symm
      · rw [h.other x hself fun hinner hc => hchild ⟨hinner, hc⟩] at hx
        exact ht.digest hx fun hmem => hxd (h.dirty ▸ mem_erase.mpr ⟨hself, hmem⟩)
  zero {p} hlt hp hzero := by
    have hp : ¬ m.Loaded p := fun hl => hp (h.loaded_iff.mpr hl)
    obtain ⟨u', hu', hread⟩ := hzero
    rcases h.nearest_cases hw hn hp hu' hlt with ⟨hinner, hc, hnone⟩ | ⟨hu, hne, hget⟩
    · have hpos : 0 < memoryPages + p := by
        unfold memoryPages
        omega
      obtain ⟨u, hu⟩ := exists_nearest hw.root hpos
      refine ht.zero hlt hp ⟨u, hu, .inr ?_⟩
      have hu0 := hw.populated_ne_zero hu.populated
      have hunpopulated : ¬ m.Populated u' := by
        rintro ⟨digest, hd⟩
        rw [hnone] at hd
        cases hd
      rcases hu.below.total hu'.below with hb | hb
      · have hne : u ≠ u' := fun heq => hunpopulated (heq ▸ hu.populated)
        exact hw.dirty_above hu0 (hc ▸ hb.of_ne hne) hn
      · have := hu'.between u hb hu.below (h.populated_mono hu.populated)
        exact absurd (this ▸ hu.populated) hunpopulated
    · rw [hget] at hread
      exact ht.zero hlt hp ⟨u', hu, hread.imp id h.dirty_subset⟩

theorem available (hw : m.WellFormed) (hn : n ∈ m.dirty) {p : ℕ} (hlt : p < memoryPages) (havailable : m.Available H p) :
    m'.Available H p := by
  by_cases hp : m.Loaded p
  · exact .inl (h.loaded_iff.mpr hp)
  obtain ⟨u, hu, hread⟩ := havailable.resolve_left hp
  have hpos : 0 < memoryPages + p := Nat.add_pos_left (by decide) p
  obtain ⟨u', hu'⟩ := exists_nearest (h.populated_mono hw.root) hpos
  refine .inr ⟨u', hu', ?_⟩
  rcases h.nearest_cases hw hn hp hu' hlt with ⟨hinner, hc, hnone⟩ | ⟨hu'', hne, hget⟩
  · left
    rw [h.child hinner u' hc, hnone]
    rfl
  · obtain rfl := hu.unique hu''
    rw [hget, h.dirty]
    exact hread.imp id fun hmem => mem_erase.mpr ⟨hne, hmem⟩

end Cleans

end MemoryImage

end VerifiableCompute.Binfmt
