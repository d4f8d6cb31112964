import VerifiableCompute.Binfmt.Image
import VerifiableCompute.Lib.CompleteTree

/-! What an image says about the leaves of its tree. A leaf function gives the digest of
every page; an image tracks it when its clean digests, its pages and what it reads as
zero are those of the tree over these leaves. -/

namespace VerifiableCompute.Binfmt

open Lib

/-- The numbers of the nodes. -/
def Node (n : ℕ) : Prop := 1 ≤ n ∧ n < 2 * memoryPages

instance : DecidablePred Node := fun n => inferInstanceAs (Decidable (1 ≤ n ∧ n < 2 * memoryPages))

/-- The numbers of the leaves. -/
def Leaf (n : ℕ) : Prop := memoryPages ≤ n ∧ n < 2 * memoryPages

def height (n : ℕ) : ℕ := merkleTreeDepth - n.log2

variable (H : TreeHash)

def reference (leaf : ℕ → Digest) (n : ℕ) : Digest := subtree H.pair leaf (height n) n

variable {H}
variable {n : ℕ} {leaf : ℕ → Digest}

theorem log2_bounds (h : n ≠ 0) : 2 ^ n.log2 ≤ n ∧ n < 2 ^ (n.log2 + 1) :=
  ⟨Nat.log2_self_le h, Nat.lt_log2_self⟩

theorem log2_child {c : ℕ} (h : n ≠ 0) (hc : c / 2 = n) : c.log2 = n.log2 + 1 := by
  have hb := log2_bounds h
  have hc0 : c ≠ 0 := by omega
  apply (Nat.log2_eq_iff hc0).mpr
  rw [pow_succ, pow_succ] at *
  omega

theorem Node.log2_le (h : Node n) : n.log2 ≤ merkleTreeDepth := by
  have hb := log2_bounds (n := n) (by have := h.1; omega)
  have hlt : 2 ^ n.log2 < 2 ^ (merkleTreeDepth + 1) := by
    have := h.2
    unfold memoryPages merkleTreeDepth at *
    omega
  have := (Nat.pow_lt_pow_iff_right (by decide : 1 < 2)).mp hlt
  omega

theorem Leaf.log2_eq (h : Leaf n) : n.log2 = merkleTreeDepth := by
  have hn : n ≠ 0 := by
    have := h.1
    unfold memoryPages at this
    omega
  apply (Nat.log2_eq_iff hn).mpr
  have := h.1
  have := h.2
  unfold memoryPages merkleTreeDepth at *
  omega

theorem log2_lt_depth (hn : n ≠ 0) (h : n < memoryPages) : n.log2 < merkleTreeDepth := by
  have hb := log2_bounds hn
  have hlt : 2 ^ n.log2 < 2 ^ merkleTreeDepth := by
    unfold memoryPages merkleTreeDepth at *
    omega
  exact (Nat.pow_lt_pow_iff_right (by decide : 1 < 2)).mp hlt

theorem reference_leaf (leaf : ℕ → Digest) (h : Leaf n) : reference H leaf n = leaf n := by
  rw [reference, height, h.log2_eq, Nat.sub_self, subtree]

theorem reference_inner (leaf : ℕ → Digest) (hn : n ≠ 0) (h : n < memoryPages) :
    reference H leaf n = H.pair (reference H leaf (2 * n)) (reference H leaf (2 * n + 1)) := by
  have hlt := log2_lt_depth hn h
  have hheight : height n = height (2 * n) + 1 := by
    unfold height
    rw [log2_child hn (by omega : 2 * n / 2 = n)]
    omega
  have hheight' : height (2 * n + 1) = height (2 * n) := by
    unfold height
    rw [log2_child hn (by omega : 2 * n / 2 = n), log2_child hn (by omega : (2 * n + 1) / 2 = n)]
  rw [reference, hheight, subtree, reference, reference, hheight']

/-- The leaves that a node's digest covers, in the numbering of the heap. -/
theorem leaf_of_div {x : ℕ} (hn : Node n) (h : x / 2 ^ height n = n) : Leaf x ∧ Below n x := by
  refine ⟨?_, height n, h⟩
  have hb := log2_bounds (n := n) (by have := hn.1; omega)
  have hle := hn.log2_le
  have hpos : 0 < 2 ^ height n := by positivity
  have hlow : n * 2 ^ height n ≤ x := (Nat.le_div_iff_mul_le hpos).mp h.ge
  have hhigh : x < (n + 1) * 2 ^ height n := (Nat.div_lt_iff_lt_mul hpos).mp (by omega)
  have hpages : 2 ^ n.log2 * 2 ^ height n = memoryPages := by
    rw [← pow_add, height, Nat.add_sub_cancel' hle]
    rfl
  have hlow' := Nat.mul_le_mul_right (2 ^ height n) hb.1
  have hhigh' := Nat.mul_le_mul_right (2 ^ height n) (show n + 1 ≤ 2 * 2 ^ n.log2 by
    have := hb.2
    rw [pow_succ] at this
    omega)
  rw [Nat.mul_assoc, hpages] at hhigh'
  rw [hpages] at hlow'
  exact ⟨hlow'.trans hlow, lt_of_lt_of_le hhigh hhigh'⟩

theorem reference_congr {leaf' : ℕ → Digest} (hn : Node n)
    (h : ∀ x, Leaf x → Below n x → leaf x = leaf' x) : reference H leaf n = reference H leaf' n := by
  apply subtree_congr
  intro x hx
  obtain ⟨hleaf, hbelow⟩ := leaf_of_div hn hx
  exact h x hleaf hbelow

theorem reference_zero (hn : Node n)
    (h : ∀ x, Leaf x → Below n x → leaf x = H.page .zero) : reference H leaf n = zeroCache H n.log2 := by
  apply subtree_of_leaves fun k _ => rfl
  intro x hx
  obtain ⟨hleaf, hbelow⟩ := leaf_of_div hn hx
  exact h x hleaf hbelow

namespace MemoryImage

variable {m : MemoryImage}

def Populated (m : MemoryImage) (n : ℕ) : Prop := ∃ digest, m.digests.get? n = some digest

def Loaded (m : MemoryImage) (p : ℕ) : Prop := ∃ page, m.pages.get? p = some page

/-- The image says something about this node. -/
def Known (m : MemoryImage) (n : ℕ) : Prop := m.Populated n ∨ n ∈ m.dirty

/-- `u` is the nearest populated node on the way from `x` to the root. -/
structure Nearest (m : MemoryImage) (u x : ℕ) : Prop where
  below : Below u x
  populated : m.Populated u
  between : ∀ y, Below u y → Below y x → m.Populated y → y = u

def ReadsZero (H : TreeHash) (m : MemoryImage) (x : ℕ) : Prop :=
  ∃ u, m.Nearest u x ∧ (m.digests.get? u = some (zeroCache H u.log2) ∨ u ∈ m.dirty)

/-- The contents of the page are known to the image. -/
def Available (H : TreeHash) (m : MemoryImage) (p : ℕ) : Prop := m.Loaded p ∨ m.ReadsZero H (memoryPages + p)

def Complete (H : TreeHash) (m : MemoryImage) : Prop := ∀ p, p < memoryPages → m.Available H p

/-- How the pages, the digests and the dirty marks of an image hang together. -/
structure WellFormed (m : MemoryImage) : Prop where
  node : ∀ {n}, m.Known n → Node n
  loaded_lt : ∀ {p}, m.Loaded p → p < memoryPages
  dirty_parent : ∀ {n}, n ∈ m.dirty → n ≠ 1 → n / 2 ∈ m.dirty
  root : m.Populated 1
  parent : ∀ {n}, m.Populated n → n ≠ 1 → m.Known (n / 2)
  leaf : ∀ {p}, m.Loaded p → m.Known (memoryPages + p)
  dirty_loaded : ∀ {p}, memoryPages + p ∈ m.dirty → m.Loaded p
  sibling : ∀ {n}, m.Populated n → n ≠ 1 → n / 2 ∉ m.dirty → m.Populated (2 * (n / 2)) ∧ m.Populated (2 * (n / 2) + 1)

/-- The image agrees with the tree over these leaf digests. -/
structure Tracks (H : TreeHash) (m : MemoryImage) (leaf : ℕ → Digest) : Prop where
  page : ∀ {p page}, m.pages.get? p = some page → leaf (memoryPages + p) = H.page page
  digest : ∀ {n digest}, m.digests.get? n = some digest → n ∉ m.dirty → digest = reference H leaf n
  zero : ∀ {p}, p < memoryPages → ¬ m.Loaded p → m.ReadsZero H (memoryPages + p) →
    leaf (memoryPages + p) = H.page .zero

variable {leaf : ℕ → Digest}

theorem Tracks.congr {H : TreeHash} {leaf' : ℕ → Digest} (ht : m.Tracks H leaf) (hw : m.WellFormed)
    (h : ∀ x, Leaf x → leaf x = leaf' x) : m.Tracks H leaf' where
  page {p page} hp := by
    have hlt := hw.loaded_lt ⟨page, hp⟩
    rw [← h (memoryPages + p) ⟨by omega, by omega⟩]
    exact ht.page hp
  digest {n digest} hn hclean := by
    rw [ht.digest hn hclean]
    exact reference_congr (hw.node (.inl ⟨digest, hn⟩)) fun x hx _ => h x hx
  zero {p} hlt hp hzero := by
    rw [← h (memoryPages + p) ⟨by omega, by omega⟩]
    exact ht.zero hlt hp hzero

theorem Nearest.unique {u u' x : ℕ} (h : m.Nearest u x) (h' : m.Nearest u' x) : u = u' := by
  rcases h.below.total h'.below with hb | hb
  · exact (h.between u' hb h'.below h'.populated).symm
  · exact h'.between u hb h.below h.populated

theorem exists_nearest (hroot : m.Populated 1) {x : ℕ} (hx : 0 < x) : ∃ u, m.Nearest u x := by
  induction x using Nat.strong_induction_on with
  | _ x ih =>
    by_cases hp : m.Populated x
    · exact ⟨x, .refl x, hp, fun y hb hb' _ => hb'.antisymm hb⟩
    · have hne : x ≠ 1 := fun h => hp (h ▸ hroot)
      obtain ⟨u, hu⟩ := ih (x / 2) (by omega) (by omega)
      refine ⟨u, hu.below.trans (below_half x), hu.populated, fun y hb hb' hy => ?_⟩
      have hyx : y ≠ x := fun h => hp (h ▸ hy)
      exact hu.between y hb (hb'.of_ne hyx) hy

namespace WellFormed

variable (hw : m.WellFormed)
include hw

variable {n a x u y : ℕ} {leaf : ℕ → Digest}

theorem known_parent (h : m.Known n) (hne : n ≠ 1) : m.Known (n / 2) :=
  h.elim (fun hp => hw.parent hp hne) fun hd => .inr (hw.dirty_parent hd hne)

theorem known_above (ha : a ≠ 0) (hb : Below a x) (h : m.Known x) : m.Known a := by
  apply hb.induct (P := m.Known) h
  intro y hay _ hne hy
  apply hw.known_parent hy
  have := hay.le
  omega

theorem dirty_above (ha : a ≠ 0) (hb : Below a x) (h : x ∈ m.dirty) : a ∈ m.dirty := by
  apply hb.induct (P := (· ∈ m.dirty)) h
  intro y hay _ hne hy
  apply hw.dirty_parent hy
  have := hay.le
  omega

theorem populated_ne_zero (h : m.Populated n) : n ≠ 0 := by
  have := (hw.node (.inl h)).1
  omega

/-- What is nearest above an unknown node is nearest above all that is below it. -/
theorem nearest_below (hn : n ≠ 0) (hunknown : ¬ m.Known n) (hb : Below n x) : m.Nearest u n ↔ m.Nearest u x := by
  have hnot : ∀ y, Below n y → ¬ m.Populated y := fun y hy hp => hunknown (hw.known_above hn hy (.inl hp))
  constructor
  · intro hu
    refine ⟨hu.below.trans hb, hu.populated, fun y huy hyx hy => ?_⟩
    rcases hyx.total hb with hyn | hny
    · exact hu.between y huy hyn hy
    · exact absurd hy (hnot y hny)
  · intro hu
    rcases hu.below.total hb with hun | hnu
    · exact ⟨hun, hu.populated, fun y huy hyn hy => hu.between y huy (hyn.trans hb) hy⟩
    · exact absurd hu.populated (hnot u hnu)

/-- Below a clean node either both children are known or nothing is. -/
theorem unknown_below (hclean : u ∉ m.dirty) (hu : m.Nearest u x) (hx : u ≠ x) (hb : Below u y)
    (hy : u ≠ y) : ¬ m.Known y := by
  have hu0 := hw.populated_ne_zero hu.populated
  have hchild : ∀ c, c / 2 = u → ¬ m.Known c := by
    intro c hc hknown
    have hc1 : c ≠ 1 := by omega
    rcases hknown with hp | hd
    · obtain ⟨hleft, hright⟩ := hw.sibling hp hc1 (hc ▸ hclean)
      rw [hc] at hleft hright
      rcases hu.below.child hx with hb' | hb'
      · have := hu.between _ (below_left u) hb' hleft
        omega
      · have := hu.between _ (below_right u) hb' hright
        omega
    · exact hclean (hc ▸ hw.dirty_parent hd hc1)
  intro hknown
  rcases hb.child hy with hb' | hb'
  · exact hchild (2 * u) (by omega) (hw.known_above (by omega) hb' hknown)
  · exact hchild (2 * u + 1) (by omega) (hw.known_above (by omega) hb' hknown)

/-- Above a clean node with nothing known below it, all see the same nearest node. -/
theorem nearest_beside (hclean : u ∉ m.dirty) (hu : m.Nearest u x) (hx : u ≠ x) (hb : Below u y) : m.Nearest u y := by
  refine ⟨hb, hu.populated, fun z huz hzy hz => ?_⟩
  by_contra hne
  exact hw.unknown_below hclean hu hx huz (Ne.symm hne) (.inl hz)

theorem readsZero_below {H : TreeHash} (hn : n ≠ 0) (hunknown : ¬ m.Known n) (hb : Below n x) :
    m.ReadsZero H n ↔ m.ReadsZero H x := by
  unfold ReadsZero
  simp only [hw.nearest_below hn hunknown hb]

/-- An unknown node that reads as zero covers zero pages only. -/
theorem reference_of_readsZero {H : TreeHash} (ht : m.Tracks H leaf) (hn : Node n)
    (hunknown : ¬ m.Known n) (hzero : m.ReadsZero H n) : reference H leaf n = zeroCache H n.log2 := by
  have hn0 : n ≠ 0 := by
    have := hn.1
    omega
  apply reference_zero hn
  intro x hx hbelow
  obtain ⟨p, rfl⟩ := Nat.exists_eq_add_of_le hx.1
  have hp : p < memoryPages := by
    have := hx.2
    omega
  have hloaded : ¬ m.Loaded p := fun h => hunknown (hw.known_above hn0 hbelow (hw.leaf h))
  exact ht.zero hp hloaded ((hw.readsZero_below hn0 hunknown hbelow).mp hzero)

/-- A node that the image says nothing about, under a dirty one, reads as zero. -/
theorem readsZero_of_unknown {H : TreeHash} (hn : Node n) (hunknown : ¬ m.Known n) (hdirty : n / 2 ∈ m.dirty) :
    m.ReadsZero H n := by
  have hpos : 0 < n := hn.1
  obtain ⟨u, hu⟩ := exists_nearest hw.root hpos
  have hne : u ≠ n := fun h => hunknown (.inl (h ▸ hu.populated))
  exact ⟨u, hu, .inr (hw.dirty_above (hw.populated_ne_zero hu.populated) (hu.below.of_ne hne) hdirty)⟩

theorem readable_beside {H : TreeHash} {c c' p : ℕ} (hc : Node c) (hc1 : c ≠ 1) (hc1' : c' ≠ 1) (hbeside : c / 2 = c' / 2)
    (hb : Below c' (memoryPages + p)) (hp : m.Available H p) (hclean : c ∉ m.dirty) : m.Populated c ∨ m.ReadsZero H c := by
  by_cases hpop : m.Populated c
  · exact .inl hpop
  right
  have hunknown : ¬ m.Known c := fun h => h.elim hpop hclean
  by_cases hdirty : c / 2 ∈ m.dirty
  · exact hw.readsZero_of_unknown hc hunknown hdirty
  · have hunknown' : ¬ m.Known c' := by
      rintro (hp | hd)
      · obtain ⟨hleft, hright⟩ := hw.sibling hp hc1' (hbeside ▸ hdirty)
        rw [← hbeside] at hleft hright
        have hcases : c = 2 * (c / 2) ∨ c = 2 * (c / 2) + 1 := by omega
        rcases hcases with heq | heq
        · exact hpop (heq ▸ hleft)
        · exact hpop (heq ▸ hright)
      · exact hdirty (hbeside ▸ hw.dirty_parent hd hc1')
    have hc0' : c' ≠ 0 := by
      have := hc.1
      omega
    have hzero : m.ReadsZero H c' := by
      rw [hw.readsZero_below hc0' hunknown' hb]
      exact hp.resolve_left fun hl => hunknown' (hw.known_above hc0' hb (hw.leaf hl))
    obtain ⟨v, hv, hread⟩ := hzero
    have hvc' : v ≠ c' := fun h => hunknown' (.inl (h ▸ hv.populated))
    refine ⟨v, ⟨(hbeside ▸ hv.below.of_ne hvc').trans (below_half c), hv.populated, fun y hvy hyc hy => ?_⟩, hread⟩
    have hyne : y ≠ c := fun h => hpop (h ▸ hy)
    exact hv.between y hvy ((hbeside ▸ hyc.of_ne hyne).trans (below_half c')) hy

/-- A node that the image says nothing about, under a dirty one, covers zero pages only. -/
theorem reference_of_unknown {H : TreeHash} (ht : m.Tracks H leaf) (hn : Node n)
    (hunknown : ¬ m.Known n) (hdirty : n / 2 ∈ m.dirty) : reference H leaf n = zeroCache H n.log2 :=
  hw.reference_of_readsZero ht hn hunknown (hw.readsZero_of_unknown hn hunknown hdirty)

end WellFormed

variable {H : TreeHash}

theorem default_populated {n : ℕ} : (default H).Populated n ↔ n = 1 := by
  rw [Populated, default]
  constructor
  · rintro ⟨digest, h⟩
    by_contra hne
    rw [OrderedMap.get?_insert, if_neg hne] at h
    cases h
  · rintro rfl
    exact ⟨zeroCache H 0, by rw [OrderedMap.get?_insert, if_pos rfl]⟩

theorem default_not_loaded (p : ℕ) : ¬ (default H).Loaded p := by
  rintro ⟨page, h⟩
  cases h

theorem default_not_dirty (n : ℕ) : n ∉ (default H).dirty := Finset.notMem_empty n

theorem default_wellFormed : (default H).WellFormed where
  node hn := by
    rcases hn with hn | hn
    · rw [default_populated.mp hn]
      exact ⟨le_rfl, by decide⟩
    · exact absurd hn (default_not_dirty _)
  loaded_lt h := absurd h (default_not_loaded _)
  dirty_parent h := absurd h (default_not_dirty _)
  root := default_populated.mpr rfl
  parent h hne := absurd (default_populated.mp h) hne
  leaf h := absurd h (default_not_loaded _)
  dirty_loaded h := absurd h (default_not_dirty _)
  sibling h hne := absurd (default_populated.mp h) hne

theorem default_digest : (default H).digests.get? 1 = some (zeroCache H 0) := by
  rw [default, OrderedMap.get?_insert, if_pos rfl]

theorem default_complete : (default H).Complete H := by
  intro p _
  have hpos : 0 < memoryPages + p := Nat.add_pos_left (by decide) p
  obtain ⟨u, hu⟩ := exists_nearest (default_wellFormed (H := H)).root hpos
  obtain rfl := default_populated.mp hu.populated
  exact .inr ⟨1, hu, .inl default_digest⟩

theorem default_tracks (hzero : ∀ x, Leaf x → leaf x = H.page .zero) : (default H).Tracks H leaf where
  page h := absurd ⟨_, h⟩ (default_not_loaded _)
  digest {n digest} hd _ := by
    obtain rfl := default_populated.mp ⟨digest, hd⟩
    rw [default_digest] at hd
    have href := reference_zero (H := H) (n := 1) ⟨le_rfl, by decide⟩ fun x hx _ => hzero x hx
    exact (Option.some.inj hd).symm.trans href.symm
  zero {p} hp _ _ := hzero _ ⟨by omega, by omega⟩

end MemoryImage

end VerifiableCompute.Binfmt
