import VerifiableCompute.Binfmt.PartialImage

/-! A partial image has the root of the image it was computed from, and keeps it when the
same pages are set in both. -/

namespace VerifiableCompute.Binfmt

open Lib

namespace MemoryImage

variable {H : TreeHash} {m m' image : MemoryImage} {leaf leaf' : ℕ → Digest} {indexes : Finset ℕ}

/-- Nodes with the root among them and the parent of each. -/
structure Closed (indexes : Finset ℕ) : Prop where
  node : ∀ n ∈ indexes, Node n
  root : 1 ∈ indexes
  parent : ∀ n ∈ indexes, n ≠ 1 → n / 2 ∈ indexes

/-- The children that are not among the indexes. -/
def Uncle (indexes : Finset ℕ) (c : ℕ) : Prop := (c / 2 ∈ indexes ∧ c / 2 < memoryPages) ∧ c ∉ indexes

namespace Closed

variable (h : Closed indexes)
include h

theorem above {a x : ℕ} (ha : a ≠ 0) (hb : Below a x) (hx : x ∈ indexes) : a ∈ indexes := by
  apply hb.induct (P := (· ∈ indexes)) hx
  intro y hay _ hne hy
  apply h.parent y hy
  have := hay.le
  omega

theorem uncle_node {c : ℕ} (hc : Uncle indexes c) : Node c ∧ c ≠ 1 :=
  child_node (h.node _ hc.1.1) hc.1.2 rfl

theorem not_below {c x : ℕ} (hc : Uncle indexes c) (hx : x ∈ indexes) : ¬ Below c x := by
  intro hb
  have := (h.uncle_node hc).1.1
  exact hc.2 (h.above (by omega) hb hx)

theorem uncle_unique {c c' x : ℕ} (hc : Uncle indexes c) (hc' : Uncle indexes c') (hb : Below c x) (hb' : Below c' x) :
    c = c' := by
  rcases hb.total hb' with hcc | hcc
  · by_contra hne
    exact h.not_below hc hc'.1.1 (hcc.of_ne hne)
  · by_contra hne
    exact h.not_below hc' hc.1.1 (hcc.of_ne (Ne.symm hne))

theorem exists_uncle {x : ℕ} (hx : Node x) (hmem : x ∉ indexes) : ∃ c, Uncle indexes c ∧ Below c x := by
  induction x using Nat.strong_induction_on with
  | _ x ih =>
    have hx1 : x ≠ 1 := fun heq => hmem (heq ▸ h.root)
    have hlow := hx.1
    have hhigh := hx.2
    by_cases hparent : x / 2 ∈ indexes
    · exact ⟨x, ⟨⟨hparent, by omega⟩, hmem⟩, .refl x⟩
    · obtain ⟨c, hc, hb⟩ := ih (x / 2) (by omega) ⟨by omega, by omega⟩ hparent
      exact ⟨c, hc, hb.trans (below_half x)⟩

end Closed

/-- The same leaves among the indexes, and the same digests beside them. -/
structure Agree (H : TreeHash) (indexes : Finset ℕ) (leaf leaf' : ℕ → Digest) : Prop where
  leaves : ∀ n ∈ indexes, Leaf n → leaf n = leaf' n
  uncles : ∀ c, Uncle indexes c → reference H leaf c = reference H leaf' c

/-- Down from the root, every digest is that of a leaf, of an uncle or of two more indexes. -/
theorem Agree.reference (ha : Agree H indexes leaf leaf') (h : Closed indexes) (gap : ℕ) {n : ℕ} (hn : n ∈ indexes)
    (hgap : 2 * memoryPages - n ≤ gap) : reference H leaf n = reference H leaf' n := by
  induction gap generalizing n with
  | zero =>
    have := (h.node n hn).2
    omega
  | succ gap ih =>
    have hnode := h.node n hn
    by_cases hinner : n < memoryPages
    · have hn0 : n ≠ 0 := by
        have := hnode.1
        omega
      have hchild (c : ℕ) (hc : c / 2 = n) : Binfmt.reference H leaf c = Binfmt.reference H leaf' c := by
        by_cases hmem : c ∈ indexes
        · exact ih hmem (by omega)
        · exact ha.uncles c ⟨⟨hc ▸ hn, hc ▸ hinner⟩, hmem⟩
      rw [reference_inner leaf hn0 hinner, reference_inner leaf' hn0 hinner, hchild _ (by omega), hchild _ (by omega)]
    · have hleaf : Leaf n := ⟨by omega, hnode.2⟩
      rw [reference_leaf leaf hleaf, reference_leaf leaf' hleaf, ha.leaves n hn hleaf]

theorem Agree.update (ha : Agree H indexes leaf leaf') (h : Closed indexes) {n : ℕ} (hn : n ∈ indexes) (digest : Digest) :
    Agree H indexes (Function.update leaf n digest) (Function.update leaf' n digest) where
  leaves x hx hleaf := by
    by_cases hxn : x = n
    · rw [hxn, Function.update_self, Function.update_self]
    · rw [Function.update_of_ne hxn, Function.update_of_ne hxn, ha.leaves x hx hleaf]
  uncles c hc := by
    have hother (leaf : ℕ → Digest) : Binfmt.reference H (Function.update leaf n digest) c = Binfmt.reference H leaf c := by
      refine reference_congr (h.uncle_node hc).1 fun x _ hb => ?_
      have hne : x ≠ n := fun heq => h.not_below hc hn (heq ▸ hb)
      rw [Function.update_of_ne hne]
    rw [hother, hother, ha.uncles c hc]

/-- The leaves as the partial image reads them: all zero under an uncle with the digest of zeros. -/
noncomputable def partialLeaf (H : TreeHash) (indexes : Finset ℕ) (leaf : ℕ → Digest) (x : ℕ) : Digest :=
  open Classical in
  if ∃ c, Uncle indexes c ∧ Below c x ∧ reference H leaf c = zeroCache H c.log2 then H.page .zero else leaf x

theorem partialLeaf_agree (h : Closed indexes) : Agree H indexes leaf (partialLeaf H indexes leaf) where
  leaves n hn _ := by
    rw [partialLeaf, if_neg]
    rintro ⟨c, hc, hb, -⟩
    exact h.not_below hc hn hb
  uncles c hc := by
    have hnode := (h.uncle_node hc).1
    by_cases hzero : reference H leaf c = zeroCache H c.log2
    · rw [hzero, reference_zero hnode]
      intro x _ hb
      exact if_pos ⟨c, hc, hb, hzero⟩
    · refine reference_congr hnode fun x _ hb => ?_
      rw [partialLeaf, if_neg]
      rintro ⟨c', hc', hb', hzero'⟩
      exact hzero (h.uncle_unique hc' hc hb' hb ▸ hzero')

theorem Tracks.contents (ht : m.Tracks H leaf) {p : ℕ} (hp : p < memoryPages) (havailable : m.Available H p) :
    leaf (memoryPages + p) = H.page (m.contents p) := by
  rw [MemoryImage.contents]
  cases hget : m.pages.get? p with
  | some page => exact ht.page hget
  | none =>
    have hloaded : ¬ m.Loaded p := by
      rintro ⟨page, h⟩
      rw [hget] at h
      cases h
    exact ht.zero hp hloaded (havailable.resolve_left hloaded)

/-- The leaves and the uncles have been gathered. -/
abbrev GathersAll (H : TreeHash) (indexes : Finset ℕ) (m : MemoryImage) (leaf : ℕ → Digest) (image : MemoryImage) : Prop :=
  Gathers H m leaf {n | n ∈ indexes ∧ memoryPages ≤ n} {c | Uncle indexes c} image

namespace Gathers

variable (hg : GathersAll H indexes m leaf image) (h : Closed indexes)
include hg h

/-- Every index is marked: it is above a leaf among them or has a child that is an uncle. -/
theorem mem_dirty {x : ℕ} : x ∈ image.dirty ↔ x ∈ indexes := by
  rw [hg.dirty]
  constructor
  · rintro ⟨hx, ⟨n, hn, hb⟩ | ⟨c, hc, hb⟩⟩
    · exact h.above hx hb hn.1
    · exact h.above hx hb hc.1.1
  · intro hx
    have hx0 : x ≠ 0 := by
      have := (h.node x hx).1
      omega
    refine ⟨hx0, ?_⟩
    induction hgap : 2 * memoryPages - x using Nat.strong_induction_on generalizing x with
    | _ gap ih =>
      have hnode := h.node x hx
      by_cases hinner : x < memoryPages
      · have hhalf : 2 * x / 2 = x := by omega
        by_cases hmem : 2 * x ∈ indexes
        · exact (ih (2 * memoryPages - 2 * x) (by omega) hmem (by omega) rfl).imp
            (fun ⟨n, hn, hb⟩ => ⟨n, hn, (below_left x).trans hb⟩)
            fun ⟨c, hc, hb⟩ => ⟨c, hc, (below_left x).trans hb⟩
        · have huncle : Uncle indexes (2 * x) := by
            rw [Uncle, hhalf]
            exact ⟨⟨hx, hinner⟩, hmem⟩
          exact .inr ⟨2 * x, huncle, by rw [hhalf]; exact .refl x⟩
      · exact .inl ⟨x, ⟨hx, by omega⟩, .refl x⟩

omit h in
theorem loaded_iff {q : ℕ} : image.Loaded q ↔ memoryPages + q ∈ indexes := by
  constructor
  · rintro ⟨page, hpage⟩
    by_contra hmem
    rw [hg.no_page q fun hq => hmem hq.1] at hpage
    cases hpage
  · exact fun hmem => ⟨_, hg.page q ⟨hmem, by omega⟩⟩

theorem populated_iff {x : ℕ} : image.Populated x ↔ x = 1 ∨ Uncle indexes x := by
  constructor
  · rintro ⟨digest, hd⟩
    by_contra hnot
    rw [not_or] at hnot
    rw [hg.no_digest x hnot.2 hnot.1] at hd
    cases hd
  · rintro (rfl | hx)
    · exact ⟨_, hg.root fun hmem => hmem.2 h.root⟩
    · exact ⟨_, hg.digest x hx⟩

theorem wellFormed : image.WellFormed where
  node {x} hx := by
    rcases hx with hx | hx
    · rcases (hg.populated_iff h).mp hx with rfl | hx
      · exact h.node 1 h.root
      · exact (h.uncle_node hx).1
    · exact h.node x ((hg.mem_dirty h).mp hx)
  loaded_lt {q} hq := by
    have := (h.node _ ((hg.loaded_iff).mp hq)).2
    omega
  dirty_parent hx hne := (hg.mem_dirty h).mpr (h.parent _ ((hg.mem_dirty h).mp hx) hne)
  root := (hg.populated_iff h).mpr (.inl rfl)
  parent hx hne := .inr ((hg.mem_dirty h).mpr (((hg.populated_iff h).mp hx).resolve_left hne).1.1)
  leaf hq := .inr ((hg.mem_dirty h).mpr ((hg.loaded_iff).mp hq))
  dirty_loaded hx := (hg.loaded_iff).mpr ((hg.mem_dirty h).mp hx)
  sibling hx hne hparent :=
    absurd ((hg.mem_dirty h).mpr (((hg.populated_iff h).mp hx).resolve_left hne).1.1) hparent

theorem tracks (ht : m.Tracks H leaf) (havailable : ∀ p, memoryPages + p ∈ indexes → m.Available H p) :
    image.Tracks H (partialLeaf H indexes leaf) where
  page {p page} hpage := by
    have hmem := (hg.loaded_iff).mp ⟨page, hpage⟩
    have hnode := h.node _ hmem
    rw [hg.page p ⟨hmem, by omega⟩] at hpage
    rw [← (@partialLeaf_agree H leaf indexes h).leaves _ hmem ⟨by omega, hnode.2⟩, ← Option.some.inj hpage]
    apply ht.contents ?_ (havailable p hmem)
    have := hnode.2
    omega
  digest {x digest} hd hclean := by
    rw [hg.mem_dirty h] at hclean
    rcases (hg.populated_iff h).mp ⟨digest, hd⟩ with rfl | hx
    · exact absurd h.root hclean
    · rw [hg.digest x hx] at hd
      rw [← (partialLeaf_agree h).uncles x hx]
      exact (Option.some.inj hd).symm
  zero {p} hp hloaded hzero := by
    have hmem : memoryPages + p ∉ indexes := fun hmem => hloaded ((hg.loaded_iff).mpr hmem)
    obtain ⟨c, hc, hb⟩ := h.exists_uncle ⟨by omega, by omega⟩ hmem
    obtain ⟨u, hu, hread⟩ := hzero
    have hcpop := (hg.populated_iff h).mpr (.inr hc)
    have huc : u = c := by
      rcases (hg.populated_iff h).mp hu.populated with rfl | hu'
      · have hpos := (h.uncle_node hc).1.1
        exact (hu.between c (below_one hpos) hb hcpop).symm
      · exact h.uncle_unique hu' hc hu.below hb
    subst huc
    have hdigest := hread.resolve_right fun hd => hc.2 ((hg.mem_dirty h).mp hd)
    rw [hg.digest u hc] at hdigest
    exact if_pos ⟨u, hc, hb, Option.some.inj hdigest⟩

end Gathers

def setPages (writes : List (ℕ × Page)) (m : MemoryImage) : MemoryImage :=
  writes.foldl (fun m w => m.setPage w.1 w.2) m

/-- Two images whose trees agree on the indexes, with the pages among them available. -/
structure Mirrors (H : TreeHash) (indexes : Finset ℕ) (leaf leaf' : ℕ → Digest) (m image : MemoryImage) : Prop where
  wellFormed : m.WellFormed
  wellFormed' : image.WellFormed
  tracks : m.Tracks H leaf
  tracks' : image.Tracks H leaf'
  agree : Agree H indexes leaf leaf'
  available : ∀ p, memoryPages + p ∈ indexes → m.Available H p
  available' : ∀ p, memoryPages + p ∈ indexes → image.Available H p

namespace Mirrors

variable (h : Closed indexes)
include h

variable (hm : Mirrors H indexes leaf leaf' m image)

include hm

theorem setPage {p : ℕ} (hp : memoryPages + p ∈ indexes) (page : Page) :
    Mirrors H indexes (Function.update leaf (memoryPages + p) (H.page page))
      (Function.update leaf' (memoryPages + p) (H.page page)) (m.setPage p page) (image.setPage p page) := by
  have hlt : p < memoryPages := by
    have := (h.node _ hp).2
    omega
  have ht := @setPage_spec _ _ page hm.wellFormed hlt
  have ht' := @setPage_spec _ _ page hm.wellFormed' hlt
  exact ⟨ht.wellFormed hm.wellFormed, ht'.wellFormed hm.wellFormed',
    ht.tracks hm.wellFormed (hm.available p hp) hm.tracks, ht'.tracks hm.wellFormed' (hm.available' p hp) hm.tracks',
    hm.agree.update h hp _, fun q hq => ht.available (hm.available q hq), fun q hq => ht'.available (hm.available' q hq)⟩

theorem setPages (writes : List (ℕ × Page)) (hwrites : ∀ w ∈ writes, memoryPages + w.1 ∈ indexes) :
    ∃ leaf₁ leaf₁', Mirrors H indexes leaf₁ leaf₁' (m.setPages writes) (image.setPages writes) := by
  induction writes generalizing leaf leaf' m image with
  | nil => exact ⟨leaf, leaf', hm⟩
  | cons w writes ih =>
    exact ih (hm.setPage h (hwrites w (by simp)) w.2) fun x hx => hwrites x (by simp [hx])

theorem imageId : ∃ root m₁ image₁, m.imageId H = .ok (root, m₁) ∧ image.imageId H = .ok (root, image₁) := by
  obtain ⟨m₁, heq, -⟩ := imageId_spec hm.wellFormed hm.tracks
  obtain ⟨image₁, heq', -⟩ := imageId_spec hm.wellFormed' hm.tracks'
  rw [← hm.agree.reference h _ h.root le_rfl] at heq'
  exact ⟨_, m₁, image₁, heq, heq'⟩

end Mirrors

theorem Closed.mem_uncles {c : ℕ} : c / 2 ∈ innerIndexes indexes ∧ c ∉ indexes ↔ Uncle indexes c := by
  rw [mem_innerIndexes, Uncle]

theorem computePartialImage_ok (h : Closed indexes) (hw : m.WellFormed) (ht : m.Tracks H leaf)
    (hrun : m.computePartialImage H indexes = .ok (image, m')) :
    GathersAll H indexes m leaf image ∧ Refreshes H leaf m m' ∧ ∀ p, memoryPages + p ∈ indexes → m.Available H p := by
  rw [computePartialImage] at hrun
  cases hcopy : (leafIndexes indexes).foldlM (copyPage H m) (MemoryImage.default H) with
  | error fault =>
    rw [hcopy] at hrun
    cases hrun
  | ok image₁ =>
    rw [hcopy] at hrun
    obtain ⟨havailable, hgathers⟩ :=
      @copyPages_ok H m _ leaf _ _ hw _ (fun n hn => (mem_leafIndexes.mp hn).2) _ Gathers.default hcopy
    have hinner : ∀ n ∈ innerIndexes indexes, Node n ∧ n < memoryPages := fun n hn =>
      ⟨h.node n (mem_innerIndexes.mp hn).1, (mem_innerIndexes.mp hn).2⟩
    obtain ⟨hg, hrefresh⟩ := uncles_ok _ hinner ⟨hgathers, .refl hw ht⟩ hrun
    refine ⟨?_, hrefresh, fun p hp => ?_⟩
    · have hL : (∅ ∪ {n | n ∈ leafIndexes indexes} : Set ℕ) = {n | n ∈ indexes ∧ memoryPages ≤ n} := by
        ext n
        simp [mem_leafIndexes]
      have hU : (∅ ∪ {c | c / 2 ∈ innerIndexes indexes ∧ c ∉ indexes} : Set ℕ) = {c | Uncle indexes c} := by
        ext c
        simp [Closed.mem_uncles]
      rwa [hL, hU] at hg
    · have := havailable (memoryPages + p) (mem_leafIndexes.mpr ⟨hp, by omega⟩)
      rwa [Nat.add_sub_cancel_left] at this

/-- The indexes are those of leaves and of what is above them. -/
def FromLeaves (indexes : Finset ℕ) : Prop := ∀ n ∈ indexes, ∃ p, memoryPages + p ∈ indexes ∧ Below n (memoryPages + p)

/-- With the pages among the indexes available, a partial image is returned for the
indexes of any accesses, and for any indexes if all pages are available. -/
theorem exists_computePartialImage (h : Closed indexes) (hw : m.WellFormed) (ht : m.Tracks H leaf)
    (havailable : ∀ p, memoryPages + p ∈ indexes → m.Available H p) (hcan : FromLeaves indexes ∨ m.Complete H) :
    ∃ image m', m.computePartialImage H indexes = .ok (image, m') := by
  have hpages : ∀ n ∈ leafIndexes indexes, m.Available H (n - memoryPages) := by
    intro n hn
    obtain ⟨hmem, hle⟩ := mem_leafIndexes.mp hn
    obtain ⟨p, rfl⟩ := Nat.exists_eq_add_of_le hle
    rw [Nat.add_sub_cancel_left]
    exact havailable p hmem
  obtain ⟨image₁, hcopy⟩ := @exists_copyPages H m (MemoryImage.default H) hw _ (fun n hn => (mem_leafIndexes.mp hn).2) hpages
  obtain ⟨-, hgathers⟩ := @copyPages_ok H m _ leaf _ _ hw _ (fun n hn => (mem_leafIndexes.mp hn).2) _ Gathers.default hcopy
  have hinner : ∀ n ∈ innerIndexes indexes, Node n ∧ n < memoryPages := fun n hn =>
    ⟨h.node n (mem_innerIndexes.mp hn).1, (mem_innerIndexes.mp hn).2⟩
  have hread : ∀ input, Refreshes H leaf m input → ∀ c, c / 2 ∈ innerIndexes indexes → c ∉ indexes → c ∉ input.dirty →
      input.Populated c ∨ input.ReadsZero H c := by
    intro input hinput c hparent hc hclean
    have huncle : Uncle indexes c := Closed.mem_uncles.mp ⟨hparent, hc⟩
    obtain ⟨hnode, hc1⟩ := h.uncle_node huncle
    rcases hcan with hleaves | hcomplete
    · obtain ⟨p, hp, hb⟩ := hleaves _ huncle.1.1
      have hlt : p < memoryPages := by
        have := (h.node _ hp).2
        omega
      have hinner := huncle.1.2
      have hpos := (h.node _ huncle.1.1).1
      -- the leaf is below the other child
      obtain ⟨c', hbeside, hb'⟩ : ∃ c', c / 2 = c' / 2 ∧ Below c' (memoryPages + p) := by
        rcases hb.child (by omega) with hb | hb
        · exact ⟨_, by omega, hb⟩
        · exact ⟨_, by omega, hb⟩
      exact hinput.wellFormed.readable_beside hnode hc1 (by omega) hbeside hb'
        (hinput.available p hlt (havailable p hp)) hclean
    · exact Complete.readable (fun p hp => hinput.available p hp (hcomplete p hp)) hinput.wellFormed hnode hclean
  have hgathered : Gathered H m leaf _ _ (image₁, m) := ⟨hgathers, .refl hw ht⟩
  obtain ⟨⟨image, m'⟩, hrun⟩ := exists_uncles _ hinner hgathered hread
  refine ⟨image, m', ?_⟩
  rw [computePartialImage, hcopy]
  exact hrun

/-- What a partial image keeps: the pages among the indexes, and the root, also after the
same pages among them are set in it and in the image it was computed from. -/
structure KeepsRoot (H : TreeHash) (indexes : Finset ℕ) (m m' image : MemoryImage) : Prop where
  pages : ∀ p, memoryPages + p ∈ indexes → ∃ page, image.getPage H p = .ok page ∧ m.getPage H p = .ok page
  root : ∀ writes : List (ℕ × Page), (∀ w ∈ writes, memoryPages + w.1 ∈ indexes) →
    ∃ root image₁ m₁ m₂, (image.setPages writes).imageId H = .ok (root, image₁) ∧
      (m.setPages writes).imageId H = .ok (root, m₁) ∧ (m'.setPages writes).imageId H = .ok (root, m₂)

theorem partial_image_keeps_root (H : TreeHash) {m : MemoryImage} (hm : Reachable H m) {indexes : Finset ℕ}
    (h : Closed indexes) :
    (∀ image m', m.computePartialImage H indexes = .ok (image, m') → KeepsRoot H indexes m m' image) ∧
      ((∀ p, memoryPages + p ∈ indexes → m.Available H p) → FromLeaves indexes ∨ m.Complete H →
        ∃ image m', m.computePartialImage H indexes = .ok (image, m')) := by
  obtain ⟨hw, leaf, ht⟩ := hm.tracked
  refine ⟨fun image m' hrun => ?_, exists_computePartialImage h hw ht⟩
  obtain ⟨hg, hrefresh, havailable⟩ := computePartialImage_ok h hw ht hrun
  have hlt (p : ℕ) (hp : memoryPages + p ∈ indexes) : p < memoryPages := by
    have := (h.node _ hp).2
    omega
  have havailable' (p : ℕ) (hp : memoryPages + p ∈ indexes) : image.Available H p := .inl (hg.loaded_iff.mpr hp)
  have hmirrors : Mirrors H indexes leaf (partialLeaf H indexes leaf) m image :=
    ⟨hw, hg.wellFormed h, ht, hg.tracks h ht havailable, partialLeaf_agree h, havailable, havailable'⟩
  have hmirrors' : Mirrors H indexes leaf (partialLeaf H indexes leaf) m' image :=
    { hmirrors with
      wellFormed := hrefresh.wellFormed
      tracks := hrefresh.tracks
      available := fun p hp => hrefresh.available p (hlt p hp) (havailable p hp) }
  refine ⟨fun p hp => ?_, fun writes hwrites => ?_⟩
  · have hcontents : image.contents p = m.contents p := by
      rw [MemoryImage.contents, hg.page p ⟨hp, by omega⟩]
      rfl
    exact ⟨m.contents p, hcontents ▸ getPage_spec hmirrors.wellFormed' (havailable' p hp), getPage_spec hw (havailable p hp)⟩
  · obtain ⟨leaf₁, leaf₁', h₁⟩ := hmirrors.setPages h writes hwrites
    obtain ⟨leaf₂, leaf₂', h₂⟩ := hmirrors'.setPages h writes hwrites
    obtain ⟨root, m₁, image₁, heq, hroot⟩ := h₁.imageId h
    obtain ⟨root', m₂, image₂, heq', hroot'⟩ := h₂.imageId h
    obtain ⟨rfl, rfl⟩ := Prod.mk.inj (Except.ok.inj (hroot'.symm.trans hroot))
    exact ⟨root', image₂, m₁, m₂, hroot, heq, heq'⟩

theorem partial_image_keeps_root_sample : ∃ image m', computePartialImage .sample ((Finset.range 23).image (2 ^ ·))
        ((default .sample).setPage 1 (Page.zero.write 0 [7])) = .ok (image, m') ∧
      KeepsRoot .sample ((Finset.range 23).image (2 ^ ·)) ((default .sample).setPage 1 (Page.zero.write 0 [7])) m' image := by
  have hreachable : Reachable .sample ((default .sample).setPage 1 (Page.zero.write 0 [7])) :=
    .setPage .default (by decide) _
  have hclosed : Closed ((Finset.range 23).image (2 ^ ·)) := by
    constructor <;> decide
  have htouches := @setPage_spec _ 1 (Page.zero.write 0 [7]) (@default_wellFormed .sample) (by decide)
  have hcomplete : Complete .sample ((default .sample).setPage 1 (Page.zero.write 0 [7])) :=
    fun q hq => htouches.available (default_complete q hq)
  have havailable : ∀ p, memoryPages + p ∈ (Finset.range 23).image (2 ^ ·) →
      Available .sample ((default .sample).setPage 1 (Page.zero.write 0 [7])) p := by
    intro p hp
    have := (hclosed.node _ hp).2
    exact hcomplete p (by omega)
  obtain ⟨image, m', hrun⟩ := (partial_image_keeps_root .sample hreachable hclosed).2 havailable (.inr hcomplete)
  exact ⟨image, m', hrun, (partial_image_keeps_root .sample hreachable hclosed).1 image m' hrun⟩

end MemoryImage

end VerifiableCompute.Binfmt
