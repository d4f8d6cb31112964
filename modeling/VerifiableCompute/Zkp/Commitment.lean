import VerifiableCompute.Zkp.MerkleTree

/-! What the prover of a commitment writes, the verifier reads, and nothing but the committed
columns verifies. -/

namespace VerifiableCompute.Zkp

open Lib ElemWords MerkleTreeVerifier List

variable {Elem σ : Type} {H : HashFn Elem} {rng : Rng σ}

variable {L size : ℕ} {leaf nodes : ℕ → Digest}

theorem toPo2_two_pow (hL : L < 32) : toPo2 (2 ^ L) = .ok L := by
  have hlt : 2 ^ L < 2 ^ 32 := Nat.pow_lt_pow_right (by decide) hL
  have hpos : 2 ^ L ≠ 0 := by positivity
  rw [toPo2, Nat.mod_eq_of_lt hlt, if_neg hpos, Nat.log2_two_pow]

theorem topLayer_cases (queries : ℕ) (layers : List ℕ) (top : ℕ) :
    topLayer queries layers top = top ∨ topLayer queries layers top ∈ layers := by
  induction layers generalizing top with
  | nil => exact .inl rfl
  | cons i layers ih =>
    rw [topLayer]
    split
    · exact .inl rfl
    · right
      rcases ih i with h | h
      · rw [h]
        exact mem_cons_self
      · exact mem_cons_of_mem _ h

theorem params_new (hL : 1 ≤ L) (hL32 : L < 32) (cols queries : ℕ) :
    ∃ t < L, MerkleTreeParams.new (2 ^ L) cols queries = .ok ⟨2 ^ L, cols, L, 2 ^ t⟩ := by
  refine ⟨topLayer queries (range' 1 (L - 1)) 0, ?_, ?_⟩
  · rcases topLayer_cases queries (range' 1 (L - 1)) 0 with h | h
    · omega
    · have hmem := mem_range'_1.mp h
      omega
  · refine bind_ok_iff.mpr ⟨L, toPo2_two_pow hL32, bind_ok_iff.mpr ⟨(), ?_, ?_⟩⟩
    · rw [require_ok_iff, Nat.one_shiftLeft]
    · rw [Nat.one_shiftLeft]
      rfl

/-- The leaves of the tree. -/
def columnHash [Inhabited Elem] (H : HashFn Elem) (matrix : List Elem) (rows cols idx : ℕ) : Digest :=
  H.hashElemSlice (columnOf matrix rows cols idx)

structure HashedFrom (H : HashFn Elem) (leaf : ℕ → Digest) (size k : ℕ) (nodes : ℕ → Digest) : Prop where
  leaf : ∀ m < size, nodes (size + m) = leaf m
  inner : ∀ i, k ≤ i → i < size → nodes i = H.pair (nodes (2 * i)) (nodes (2 * i + 1))

theorem HashedFrom.hashFold {k : ℕ} (hk : 2 * k ≤ size)
    (h : HashedFrom H leaf size (2 * k) nodes) : HashedFrom H leaf size k (hashFold H (k * 2) k nodes) where
  leaf m hm := by
    rw [Zkp.hashFold, if_neg (by omega), h.leaf m hm]
  inner i hi hlt := by
    have hleft : ¬ (k ≤ 2 * i ∧ 2 * i < k + k) := by omega
    have hright : ¬ (k ≤ 2 * i + 1 ∧ 2 * i + 1 < k + k) := by omega
    by_cases hlayer : i < k + k
    · have hinput : k * 2 + 2 * (i - k) = 2 * i := by omega
      have hinput' : k * 2 + (2 * (i - k) + 1) = 2 * i + 1 := by omega
      rw [Zkp.hashFold, Zkp.hashFold, Zkp.hashFold, if_pos ⟨hi, hlayer⟩, if_neg hleft, if_neg hright, hinput, hinput']
    · rw [Zkp.hashFold, Zkp.hashFold, Zkp.hashFold, if_neg (by omega), if_neg hleft, if_neg hright, h.inner i (by omega) hlt]

theorem HashedFrom.layers {j : ℕ} (hj : j ≤ L)
    (h : HashedFrom H leaf (2 ^ L) (2 ^ j) nodes) : HashedFrom H leaf (2 ^ L) 1
      ((range j).reverse.foldl (fun nodes i => Zkp.hashFold H (1 <<< i * 2) (1 <<< i) nodes) nodes) := by
  induction j generalizing nodes with
  | zero => exact h
  | succ j ih =>
    have hle : 2 * 2 ^ j ≤ 2 ^ L := by
      rw [← pow_succ']
      exact Nat.pow_le_pow_right (by decide) hj
    rw [range_succ, reverse_append, reverse_singleton, singleton_append, foldl_cons, Nat.one_shiftLeft]
    rw [pow_succ'] at h
    exact ih (by omega) (h.hashFold hle)

theorem HashedFrom.isHeap (h : HashedFrom H leaf size 1 nodes) : IsHeap H.pair leaf size nodes :=
  ⟨h.leaf, fun i hi => h.inner i hi⟩

structure Commits [Inhabited Elem] (H : HashFn Elem) (matrix : List Elem) (L cols t : ℕ) (tree : MerkleTreeProver Elem) : Prop where
  params : tree.params = ⟨2 ^ L, cols, L, 2 ^ t⟩
  buffer : tree.matrix = matrix
  heap : IsHeap H.pair (columnHash H matrix (2 ^ L) cols) (2 ^ L) tree.nodes
  root : tree.root = tree.nodes 1

theorem prover_new [Inhabited Elem] {matrix : List Elem} {L cols : ℕ} (hL : 1 ≤ L) (hL32 : L < 32) (queries : ℕ)
    (hmatrix : matrix.length = 2 ^ L * cols) : ∃ t < L, ∃ tree,
      MerkleTreeParams.new (2 ^ L) cols queries = .ok ⟨2 ^ L, cols, L, 2 ^ t⟩ ∧
      MerkleTreeProver.new H matrix (2 ^ L) cols queries = .ok tree ∧ Commits H matrix L cols t tree := by
  obtain ⟨t, ht, hparams⟩ := params_new hL hL32 cols queries
  refine ⟨t, ht, _, hparams, bind_ok_iff.mpr ⟨(), require_ok_iff.mpr hmatrix,
    bind_ok_iff.mpr ⟨_, hparams, rfl⟩⟩, rfl, rfl, ?_, rfl⟩
  have hcols : matrix.length / 2 ^ L = cols := by
    rw [hmatrix, Nat.mul_div_cancel_left _ (by positivity)]
  refine (HashedFrom.layers le_rfl ⟨fun m hm => ?_, fun i hi hlt => by omega⟩).isHeap
  rw [hashRows, if_pos (by omega), hcols, Nat.add_sub_cancel_left, columnHash]

namespace Commits

variable [Inhabited Elem] {matrix : List Elem} {L cols t : ℕ} {tree : MerkleTreeProver Elem}

theorem node (h : Commits H matrix L cols t tree) {j d m : ℕ} (hj : j + d = L) (hm : m < 2 ^ j) :
    tree.nodes (2 ^ j + m) = subtree H.pair (columnHash H matrix (2 ^ L) cols) d m :=
  h.heap.eq_subtree hj hm

theorem root_eq (h : Commits H matrix L cols t tree) : tree.root = subtree H.pair (columnHash H matrix (2 ^ L) cols) L 0 := by
  rw [h.root]
  exact h.node (Nat.zero_add L) Nat.one_pos

end Commits

namespace MerkleTreeVerifier

variable {cols t L : ℕ} {top : List Digest}

/-- The leaves of what is above the top layer. -/
def topLeaf (top : List Digest) (i : ℕ) : Digest := top.getD i .zero

/-- The nodes above and in the top layer. -/
def keptNode (H : HashFn Elem) (top : List Digest) (t i : ℕ) : Digest := heapOf H.pair (topLeaf top) t i

theorem keptNode_isHeap (H : HashFn Elem) (top : List Digest) (t : ℕ) : IsHeap H.pair (topLeaf top) (2 ^ t) (keptNode H top t) :=
  heapOf_isHeap ..

/-- The slots of the nodes from `k` on are written, and what they were made of is valid. -/
structure FilledFrom (H : HashFn Elem) (top : List Digest) (t k : ℕ) (fillRest : List (Option Digest)) : Prop where
  length : fillRest.length = 2 ^ t - 1
  slot : ∀ i, k ≤ i → i < 2 ^ t → fillRest[i - 1]? = some (some (keptNode H top t i))
  node_valid : ∀ i, k ≤ i → i < 2 ^ t → H.isDigestValid (keptNode H top t i)
  leaf_valid : ∀ i, 2 * k ≤ i + 2 ^ t → i < 2 ^ t → H.isDigestValid (topLeaf top i)

variable {i : ℕ} {fillRest : List (Option Digest)}

theorem FilledFrom.write (h : FilledFrom H top t (i + 1) fillRest) (hi : 0 < i)
    (hlt : i < 2 ^ t) (hleft : H.isDigestValid (keptNode H top t (2 * i)))
    (hright : H.isDigestValid (keptNode H top t (2 * i + 1))) : ∃ fillRest', writeSlot (idxToRest i)
        (H.pair (keptNode H top t (2 * i)) (keptNode H top t (2 * i + 1))) fillRest = .ok fillRest' ∧
      FilledFrom H top t i fillRest' := by
  have hinner := (keptNode_isHeap H top t).inner i hi hlt
  have hslot : idxToRest i < fillRest.length := by
    rw [h.length, idxToRest]
    omega
  refine ⟨_, if_pos hslot, ?_, fun k hk hkt => ?_, fun k hk hkt => ?_, fun k hk hkt => ?_⟩
  · rw [length_set, h.length]
  · by_cases heq : k = i
    · subst heq
      rw [hinner]
      exact getElem?_set_self hslot
    · have hne : idxToRest i ≠ k - 1 := by
        rw [idxToRest]
        omega
      rw [getElem?_set_ne hne, h.slot k (by omega) hkt]
  · by_cases heq : k = i
    · rw [heq, hinner]
      exact H.valid_pair hleft hright
    · exact h.node_valid k (by omega) hkt
  · by_cases heq : k + 2 ^ t < 2 * (i + 1)
    · have hheap := (keptNode_isHeap H top t).leaf k hkt
      rw [← hheap]
      obtain hk | hk : 2 ^ t + k = 2 * i ∨ 2 ^ t + k = 2 * i + 1 := by omega
      · rwa [hk]
      · rwa [hk]
    · exact h.leaf_valid k (by omega) hkt

theorem readTop_eq (htop : top.length = 2 ^ t) {k : ℕ} (hk : k < 2 ^ t) : readTop top k = .ok (keptNode H top t (2 ^ t + k)) := by
  have hget : top[k]? = some (topLeaf top k) := by
    rw [topLeaf, getD_eq_getElem?_getD, getElem?_eq_getElem (by omega), Option.getD_some]
  rw [readTop, hget, (keptNode_isHeap H top t).leaf k hk]

/-- One node above the top layer, or an error where its children are not valid. -/
theorem fillFromTop_spec (htop : top.length = 2 ^ t) (hi : 2 ^ t ≤ 2 * i) (hlt : i < 2 ^ t)
    (h : FilledFrom H top t (i + 1) fillRest) :
    fillFromTop H ⟨2 ^ L, cols, L, 2 ^ t⟩ top fillRest i = .error .receiptFormatError ∧
        (¬ ∀ k < 2 ^ t, H.isDigestValid (topLeaf top k)) ∨
      ∃ fillRest', fillFromTop H ⟨2 ^ L, cols, L, 2 ^ t⟩ top fillRest i = .ok fillRest' ∧ FilledFrom H top t i fillRest' := by
  have hpos : 0 < 2 ^ t := by positivity
  have hidx : 2 ^ t + (2 * i - 2 ^ t) = 2 * i := by omega
  have hleft := readTop_eq (H := H) htop (k := 2 * i - 2 ^ t) (by omega)
  have hright := readTop_eq (H := H) htop (k := 2 * i - 2 ^ t + 1) (by omega)
  rw [hidx] at hleft
  rw [← Nat.add_assoc, hidx] at hright
  by_cases hvalid : H.isDigestValid (keptNode H top t (2 * i)) ∧
      H.isDigestValid (keptNode H top t (2 * i + 1))
  · right
    obtain ⟨fillRest', hwrite, hfilled⟩ := h.write (by omega) hlt hvalid.1 hvalid.2
    refine ⟨fillRest', ?_, hfilled⟩
    exact bind_ok_iff.mpr ⟨_, hleft, bind_ok_iff.mpr ⟨_, hright, bind_ok_iff.mpr ⟨(),
      require_ok_iff.mpr hvalid, bind_ok_iff.mpr ⟨_, hashPair_of_valid hvalid.1 hvalid.2, hwrite⟩⟩⟩⟩
  · left
    constructor
    · rw [fillFromTop, idxToTop, hleft]
      show (do
        let right ← readTop top (2 * i - 2 ^ t + 1)
        require (H.isDigestValid _ ∧ H.isDigestValid right) VerificationError.receiptFormatError
        _) = _
      rw [hright]
      show (do
        require (H.isDigestValid _ ∧ H.isDigestValid _) VerificationError.receiptFormatError
        _) = _
      rw [require, if_neg hvalid]
      rfl
    · intro hall
      have hleaf := (keptNode_isHeap H top t).leaf
      apply hvalid
      have hleft := hall (2 * i - 2 ^ t) (by omega)
      have hright := hall (2 * i - 2 ^ t + 1) (by omega)
      rw [← hleaf _ (by omega), hidx] at hleft
      rw [← hleaf _ (by omega), ← Nat.add_assoc, hidx] at hright
      exact ⟨hleft, hright⟩

theorem fillFromRest_spec (hi : 0 < i) (hlt : 2 * i + 1 < 2 ^ t) (h : FilledFrom H top t (i + 1) fillRest) :
    ∃ fillRest', fillFromRest H fillRest i = .ok fillRest' ∧ FilledFrom H top t i fillRest' := by
  have hleft : readSlot fillRest (idxToRest (i * 2)) = .ok (keptNode H top t (2 * i)) := by
    rw [readSlot, idxToRest, Nat.mul_comm, h.slot _ (by omega) (by omega)]
  have hright : readSlot fillRest (idxToRest (i * 2) + 1) = .ok (keptNode H top t (2 * i + 1)) := by
    have hsub : i * 2 - 1 + 1 = 2 * i + 1 - 1 := by omega
    rw [readSlot, idxToRest, hsub, h.slot _ (by omega) (by omega)]
  have hvalid := h.node_valid (2 * i) (by omega) (by omega)
  have hvalid' := h.node_valid (2 * i + 1) (by omega) (by omega)
  obtain ⟨fillRest', hwrite, hfilled⟩ := h.write hi (by omega) hvalid hvalid'
  exact ⟨fillRest', bind_ok_iff.mpr ⟨_, hleft, bind_ok_iff.mpr ⟨_, hright,
    bind_ok_iff.mpr ⟨_, hashPair_of_valid hvalid hvalid', hwrite⟩⟩⟩, hfilled⟩

theorem setLen_map (digests : List Digest) : setLen (digests.map some) = .ok digests := by
  induction digests with
  | nil => rfl
  | cons digest digests ih =>
    rw [map_cons, setLen, ih]
    rfl

theorem FilledFrom.setLen (h : FilledFrom H top t 1 fillRest) :
    setLen fillRest = .ok ((range (2 ^ t - 1)).map fun i => keptNode H top t (i + 1)) := by
  have hmap : fillRest = ((range (2 ^ t - 1)).map fun i => keptNode H top t (i + 1)).map some := by
    apply ext_getElem?
    intro i
    by_cases hi : i < 2 ^ t - 1
    · have hslot := h.slot (i + 1) (by omega) (by omega)
      rw [Nat.add_sub_cancel] at hslot
      rw [hslot, map_map, getElem?_map, getElem?_range hi]
      rfl
    · rw [getElem?_eq_none (by rw [h.length]; omega), getElem?_eq_none (by simp; omega)]
  rw [hmap, setLen_map]

/-- What the verifier keeps of a top layer: no slot is read before it is written, and the
error is that of a digest which is not valid. -/
theorem fill_spec (htop : top.length = 2 ^ t) :
    fill H ⟨2 ^ L, cols, L, 2 ^ t⟩ top = .error .receiptFormatError ∧ (¬ ∀ k < 2 ^ t, H.isDigestValid (topLeaf top k)) ∨
      fill H ⟨2 ^ L, cols, L, 2 ^ t⟩ top = .ok ((range (2 ^ t - 1)).map fun i => keptNode H top t (i + 1)) := by
  cases t with
  | zero =>
    right
    have hnone : range' 1 (1 / 2 - 1) = [] := rfl
    rw [pow_zero, fill, Nat.sub_self, replicate_zero, if_neg (fun hne => hne rfl), hnone]
    rfl
  | succ t =>
    have hpos : 0 < 2 ^ t := by positivity
    have hhalf : 2 ^ (t + 1) / 2 = 2 ^ t := by
      rw [pow_succ, Nat.mul_div_cancel _ (by decide)]
    have hne : replicate (2 ^ (t + 1) - 1) (none : Option Digest) ≠ [] := by
      rw [ne_eq, replicate_eq_nil_iff]
      omega
    have hcount : 2 ^ t + (2 ^ (t + 1) - 2 ^ t) = 2 ^ (t + 1) := by
      rw [pow_succ]
      omega
    have hstart : FilledFrom H top (t + 1) (2 ^ t + (2 ^ (t + 1) - 2 ^ t)) (replicate (2 ^ (t + 1) - 1) none) := by
      rw [hcount]
      refine ⟨length_replicate .., ?_, ?_, ?_⟩ <;> intros <;> omega
    rw [fill, if_pos hne]
    simp only [hhalf]
    have habove := foldlM_countdown (f := fillFromTop H ⟨2 ^ L, cols, L, 2 ^ (t + 1)⟩ top) (2 ^ t) (2 ^ (t + 1) - 2 ^ t)
      (fun i hi hlt fillRest h => fillFromTop_spec htop (by rw [pow_succ]; omega) (lt_of_lt_of_eq hlt hcount) h) hstart
    obtain ⟨herror, hvalid⟩ | ⟨fillRest, hfold, hfilled⟩ := habove
    · rw [herror]
      exact .inl ⟨rfl, hvalid⟩
    · right
      rw [hfold]
      have hone : 1 + (2 ^ t - 1) = 2 ^ t := by omega
      have hstep : ∀ i, 1 ≤ i → i < 1 + (2 ^ t - 1) → ∀ fillRest, FilledFrom H top (t + 1) (i + 1) fillRest →
          fillFromRest H fillRest i = .error .panic ∧ False ∨
            ∃ fillRest', fillFromRest H fillRest i = .ok fillRest' ∧ FilledFrom H top (t + 1) i fillRest' := by
        intro i hi hlt fillRest h
        have hchild : 2 * i + 1 < 2 ^ (t + 1) := by
          rw [pow_succ]
          omega
        exact .inr (fillFromRest_spec hi hchild h)
      rw [← hone] at hfilled
      obtain ⟨-, hfalse⟩ | ⟨fillRest', hfold', hfilled'⟩ := foldlM_countdown 1 (2 ^ t - 1) hstep hfilled
      · exact hfalse.elim
      · show ((range' 1 (2 ^ t - 1)).reverse.foldlM (fillFromRest H) fillRest >>= _) = _
        rw [hfold']
        exact hfilled'.setLen

theorem root_spec (htop : top.length = 2 ^ t) :
    root ⟨⟨2 ^ L, cols, L, 2 ^ t⟩, top, (range (2 ^ t - 1)).map fun i => keptNode H top t (i + 1)⟩ =
      .ok (subtree H.pair (topLeaf top) t 0) := by
  have hroot : keptNode H top t 1 = subtree H.pair (topLeaf top) t 0 :=
    (keptNode_isHeap H top t).eq_subtree (j := 0) (m := 0) (Nat.zero_add t) Nat.one_pos
  have hpos : 0 < 2 ^ t := by positivity
  rw [root]
  by_cases hone : 2 ^ t = 1
  · have hread := readTop_eq (H := H) htop (k := 0) hpos
    have hidx : idxToTop ⟨2 ^ L, cols, L, 2 ^ t⟩ 1 = 0 := by
      rw [idxToTop, hone, Nat.sub_self]
    have hself : 2 ^ t + 0 = 1 := hone
    rw [hself, hroot] at hread
    rw [if_pos (by rw [hone]; rfl), hidx, hread]
  · have hne : (range (2 ^ t - 1)).map (fun i => keptNode H top t (i + 1)) ≠ [] := by
      rw [ne_eq, map_eq_nil_iff, range_eq_nil]
      omega
    have hget : ((range (2 ^ t - 1)).map fun i => keptNode H top t (i + 1))[0]? = some (keptNode H top t 1) := by
      rw [getElem?_map, getElem?_range (by omega)]
      rfl
    rw [if_neg hne, readTop, idxToRest, Nat.sub_self, hget, hroot]

end MerkleTreeVerifier

namespace Commits

variable [Inhabited Elem] {matrix : List Elem} {L cols t queries : ℕ} {tree : MerkleTreeProver Elem}

section

variable (h : Commits H matrix L cols t tree)

include h

theorem length_top : tree.top.length = 2 ^ t := by
  rw [MerkleTreeProver.top, length_map, length_range, h.params]

theorem topLeaf (ht : t ≤ L) {i : ℕ} (hi : i < 2 ^ t) :
    MerkleTreeVerifier.topLeaf tree.top i = subtree H.pair (columnHash H matrix (2 ^ L) cols) (L - t) i := by
  have hlt : i < (range tree.params.topSize).length := by
    rwa [length_range, h.params]
  rw [MerkleTreeVerifier.topLeaf, MerkleTreeProver.top, getD_eq_getElem?_getD, getElem?_map, getElem?_range
    (by rwa [length_range] at hlt), Option.map_some, Option.getD_some, h.params]
  exact h.node (by omega) hi

theorem subtree_top (ht : t ≤ L) : subtree H.pair (MerkleTreeVerifier.topLeaf tree.top) t 0 = tree.root := by
  have hsplit : L = t + (L - t) := by omega
  rw [h.root_eq, hsplit, subtree_add, ← hsplit]
  apply subtree_congr
  intro i hi
  have hpos : 0 < 2 ^ t := by positivity
  exact h.topLeaf ht ((Nat.div_eq_zero_iff_lt hpos).mp hi)

theorem valid {k : ℕ} (hk : 0 < k) (hlt : k < 2 * 2 ^ L) : H.isDigestValid (tree.nodes k) := by
  obtain ⟨j, m, hm, rfl⟩ : ∃ j m, m < 2 ^ j ∧ k = 2 ^ j + m := by
    have hlog := (Nat.log2_eq_iff (by omega : k ≠ 0)).mp rfl
    rw [pow_succ] at hlog
    exact ⟨Nat.log2 k, k - 2 ^ Nat.log2 k, by omega, by omega⟩
  have hj : j ≤ L := by
    by_contra hgt
    have hle : 2 ^ (L + 1) ≤ 2 ^ j := Nat.pow_le_pow_right (by decide) (by omega)
    rw [pow_succ] at hle
    omega
  rw [h.node (by omega : j + (L - j) = L) hm]
  exact valid_subtree (fun _ => H.valid_hashElemSlice _) _ _

theorem reads_new (ht : t ≤ L)
    (hparams : MerkleTreeParams.new (2 ^ L) cols queries = .ok ⟨2 ^ L, cols, L, 2 ^ t⟩) (s : σ) :
    ∃ verifier, Reads (MerkleTreeVerifier.new H rng (2 ^ L) cols queries) s (wordsOfDigests tree.top) verifier
        (rng.mix tree.root s) ∧ verifier.params = ⟨2 ^ L, cols, L, 2 ^ t⟩ ∧ verifier.top = tree.top ∧
      verifier.root = .ok tree.root := by
  have htop := h.length_top
  have hvalid : ∀ k < 2 ^ t, H.isDigestValid (MerkleTreeVerifier.topLeaf tree.top k) := by
    intro k hk
    rw [h.topLeaf ht hk]
    exact valid_subtree (fun _ => H.valid_hashElemSlice _) _ _
  have hfill := ((@MerkleTreeVerifier.fill_spec _ H cols t L _ htop).resolve_left fun herror => herror.2 hvalid)
  have hroot := @MerkleTreeVerifier.root_spec _ H cols t L _ htop
  rw [h.subtree_top ht] at hroot
  have hread := reads_podSlice tree.top s
  rw [htop] at hread
  exact ⟨_, (Reads.lift hparams s).then (hread.finally ((Reads.lift hfill s).then ((Reads.lift hroot s).then fun _ => rfl))),
    rfl, rfl, hroot⟩

end

theorem wordsOfDigests_cons (digest : Digest) (digests : List Digest) :
    wordsOfDigests (digest :: digests) = wordsOfDigests [digest] ++ wordsOfDigests digests := by
  rw [wordsOfDigests, wordsOfDigests, wordsOfDigests, flatMap_cons, flatMap_singleton]

/-- The other children that the prover writes lead the verifier up the tree. -/
theorem reads_hashToTop (h : Commits H matrix L cols t tree) (s : σ) (idx : ℕ) (hidx : 2 ^ t ≤ idx) (hlt : idx < 2 * 2 ^ L) :
    ∃ r, 2 ^ t ≤ r ∧ r < 2 * 2 ^ t ∧ Reads (hashToTop H (2 ^ t) (tree.nodes idx) idx) s
      (wordsOfDigests (MerkleTreeProver.digestsUp tree.nodes (2 ^ t) idx)) (tree.nodes r, r) s := by
  have hpos : 0 < 2 ^ t := by positivity
  induction idx using Nat.strong_induction_on with
  | _ idx ih =>
    rw [hashToTop, MerkleTreeProver.digestsUp]
    by_cases hup : 2 * 2 ^ t ≤ idx
    · obtain ⟨r, hr, hrt, hrest⟩ := ih (idx / 2) (by omega) (by omega) (by omega)
      have hother := h.valid (k := 2 * (idx / 2) + (1 - idx % 2)) (by omega) (by omega)
      have hself := h.valid (k := idx) (by omega) hlt
      have hparent := h.heap.inner (idx / 2) (by omega) (by omega)
      have hbeside : hashBeside H (idx % 2) (tree.nodes (2 * (idx / 2) + (1 - idx % 2))) (tree.nodes idx) =
          .ok (tree.nodes (idx / 2)) := by
        rw [hashBeside, hparent]
        rcases Nat.mod_two_eq_zero_or_one idx with heven | hodd
        · have hleft : 2 * (idx / 2) = idx := by omega
          rw [heven, hleft] at hother ⊢
          rw [if_neg (by decide), hashPair_of_valid hself hother]
        · have hright : 2 * (idx / 2) + 1 = idx := by omega
          rw [hodd, Nat.sub_self, Nat.add_zero] at hother ⊢
          rw [if_pos rfl, hashPair_of_valid hother hself, hright]
      refine ⟨r, hr, hrt, ?_⟩
      rw [if_pos ⟨hpos, hup⟩, if_pos ⟨hpos, hup⟩, wordsOfDigests_cons]
      exact (reads_podSlice [_] s).bind ((Reads.lift ((require_ok_iff (u := ())).mpr hother) s).then
        ((Reads.lift hbeside s).then hrest))
    · refine ⟨idx, hidx, by omega, ?_⟩
      rw [if_neg (by omega), if_neg (by omega)]
      exact .pure _ s

theorem reads_verify [ElemWords Elem] (h : Commits H matrix L cols t tree) {verifier : MerkleTreeVerifier} (ht : t ≤ L)
    (hparams : verifier.params = ⟨2 ^ L, cols, L, 2 ^ t⟩) (htop : verifier.top = tree.top) {idx : ℕ} (hidx : idx < 2 ^ L)
    (iop : WriteIOP σ) : ∃ words, tree.prove idx iop = .ok (columnOf matrix (2 ^ L) cols idx, ⟨iop.proof ++ words, iop.rng⟩) ∧
      Reads (verifier.verify H idx) iop.rng words (columnOf matrix (2 ^ L) cols idx) iop.rng := by
  have hle : 2 ^ t ≤ 2 ^ L := Nat.pow_le_pow_right (by decide) ht
  obtain ⟨r, hr, hrt, hpath⟩ := h.reads_hashToTop iop.rng (idx + 2 ^ L) (by omega) (by omega)
  refine ⟨wordsOfElems (columnOf matrix (2 ^ L) cols idx) ++
    wordsOfDigests (MerkleTreeProver.digestsUp tree.nodes (2 ^ t) (idx + 2 ^ L)), ?_, ?_⟩
  · have hrow : (require (idx < tree.params.rowSize) VerificationError.panic) = .ok () := by
      rw [require_ok_iff, h.params]
      exact hidx
    have hcolumn : tree.getColumn idx = .ok (columnOf matrix (2 ^ L) cols idx) := by
      refine bind_ok_iff.mpr ⟨(), hrow, ?_⟩
      rw [h.buffer, h.params]
      rfl
    have hdigests : tree.getDigests idx = .ok (MerkleTreeProver.digestsUp tree.nodes (2 ^ t) (idx + 2 ^ L)) := by
      refine bind_ok_iff.mpr ⟨(), hrow, ?_⟩
      rw [h.params]
      rfl
    refine bind_ok_iff.mpr ⟨_, hcolumn, bind_ok_iff.mpr ⟨_, hdigests, ?_⟩⟩
    rw [WriteIOP.writeFieldElemSlice, WriteIOP.writePodSlice, append_assoc]
    rfl
  · have hlength : (columnOf matrix (2 ^ L) cols idx).length = cols := by
      rw [columnOf, length_map, length_range]
    have hcolumn := reads_fieldElemSlice (columnOf matrix (2 ^ L) cols idx) iop.rng
    rw [hlength] at hcolumn
    have hleaf : tree.nodes (idx + 2 ^ L) = H.hashElemSlice (columnOf matrix (2 ^ L) cols idx) := by
      rw [Nat.add_comm, h.heap.leaf idx hidx, columnHash]
    have hpresent : verifier.presentHash r = .ok (tree.nodes r) := by
      have hself : 2 ^ t + (r - 2 ^ t) = r := by omega
      have hread := readTop_eq (H := H) h.length_top (k := r - 2 ^ t) (by omega)
      have hkept := (keptNode_isHeap H tree.top t).leaf (r - 2 ^ t) (by omega)
      have hnode := h.node (j := t) (m := r - 2 ^ t) (by omega : t + (L - t) = L) (by omega)
      rw [hself] at hread hkept hnode
      rw [hkept, h.topLeaf ht (by omega), ← hnode] at hread
      rw [presentHash, hparams, if_pos hr, htop, idxToTop, hread]
    rw [hleaf] at hpath
    have hrow : (require (idx < verifier.params.rowSize)
        (VerificationError.merkleQueryOutOfRange idx verifier.params.rowSize)) = .ok () := by
      rw [require_ok_iff, hparams]
      exact hidx
    refine (Reads.lift hrow _).then ?_
    rw [hparams]
    exact hcolumn.bind (hpath.finally ((Reads.lift hpresent _).then
      ((Reads.lift ((require_ok_iff (u := ())).mpr rfl) _).then (.pure _ _))))

end Commits

namespace MerkleTreeVerifier

variable {n idx : ℕ} {iop iop' : ReadIOP σ}

theorem readPodSlice_ok {digests : List Digest} (h : readPodSlice n iop = .ok (digests, iop')) :
    digests = digestsOfWords n (iop.proof.take (n * 8)) ∧ iop' = ⟨iop.proof.drop (n * 8), iop.rng⟩ := by
  obtain ⟨words, iop₁, hwords, hdigests⟩ := Read.bind_ok_iff.mp h
  unfold readU32s at hwords
  split at hwords
  next =>
    cases hwords
    cases hdigests
    exact ⟨rfl, rfl⟩
  next => cases hwords

theorem readFieldElemSlice_ok [ElemWords Elem] {elems : List Elem}
    (h : readFieldElemSlice Elem n iop = .ok (elems, iop')) : iop'.proof = iop.proof.drop (n * WORDS Elem) := by
  obtain ⟨words, iop₁, hwords, helems⟩ := Read.bind_ok_iff.mp h
  unfold readU32s at hwords
  split at hwords
  next =>
    cases hwords
    cases hdecode : (elemsOfWords n (iop.proof.take (n * WORDS Elem)) : Option (List Elem)) with
    | none =>
      rw [hdecode] at helems
      cases helems
    | some _ =>
      rw [hdecode] at helems
      cases helems
      rfl
  next => cases hwords

theorem digestsOfWords_succ_take (words : List Word) (n : ℕ) :
    digestsOfWords (n + 1) words = digestsOfWords 1 (words.take 8) ++ digestsOfWords n (words.drop 8) := by
  rw [digestsOfWords, digestsOfWords, digestsOfWords, singleton_append]
  congr 1
  apply Vector.ext
  intro i hi
  rw [Vector.getElem_ofFn, Vector.getElem_ofFn, getD_eq_getElem?_getD, getD_eq_getElem?_getD, getElem?_take_of_lt hi]

theorem hashBeside_ok {other cur up : Digest} (h : hashBeside H (idx % 2) other cur = .ok up) :
    up = if idx % 2 = 1 then H.pair other cur else H.pair cur other := by
  unfold hashBeside at h
  split at h
  next hodd => rw [if_pos hodd, (hashPair_ok h).2.2]
  next heven => rw [if_neg heven, (hashPair_ok h).2.2]

theorem hashToTop_ok {T : ℕ} (hT : 0 < T) (hidx : T ≤ idx) {cur : Digest} {result : Digest × ℕ}
    (h : hashToTop H T cur idx iop = .ok (result, iop')) : T ≤ result.2 ∧ result.2 < 2 * T ∧
      ∃ k, result.2 = idx / 2 ^ k ∧ result.1 = climb H.pair idx cur (digestsOfWords k iop.proof) := by
  induction idx using Nat.strong_induction_on generalizing cur iop with
  | _ idx ih =>
    rw [hashToTop] at h
    by_cases hup : 2 * T ≤ idx
    · rw [if_pos ⟨hT, hup⟩] at h
      obtain ⟨digests, iop₁, hread, h⟩ := Read.bind_ok_iff.mp h
      obtain ⟨rfl, rfl⟩ := readPodSlice_ok hread
      obtain ⟨_, iop₂, hvalid, h⟩ := Read.bind_ok_iff.mp h
      obtain ⟨-, rfl⟩ := Read.lift_ok_iff.mp hvalid
      obtain ⟨up, iop₃, hlift, h⟩ := Read.bind_ok_iff.mp h
      obtain ⟨hbeside, rfl⟩ := Read.lift_ok_iff.mp hlift
      obtain ⟨hle, hlt, k, hk, hclimb⟩ := ih (idx / 2) (by omega) (by omega) h
      refine ⟨hle, hlt, k + 1, ?_, ?_⟩
      · rw [hk, Nat.div_div_eq_div_mul, ← pow_succ']
      · rw [hclimb, digestsOfWords_succ_take iop.proof k, hashBeside_ok hbeside]
        rfl
    · rw [if_neg (by omega)] at h
      cases h
      exact ⟨hidx, by omega, 0, by rw [pow_zero, Nat.div_one], rfl⟩

theorem readTop_ok {top : List Digest} {i : ℕ} {digest : Digest} (h : readTop top i = .ok digest) : digest = topLeaf top i := by
  unfold readTop at h
  split at h
  next hget =>
    rw [topLeaf, getD_eq_getElem?_getD, hget]
    exact (Except.ok.inj h).symm
  next => cases h

/-- The pairs that are hashed on the way to the top layer. -/
def verifyPairs [ElemWords Elem] (H : HashFn Elem) (L t cols idx : ℕ) (out : List Elem) (proof : List Word) : List (Digest × Digest) :=
  climbPairs H.pair (idx + 2 ^ L) (H.hashElemSlice out) (digestsOfWords (L - t) (proof.drop (cols * WORDS Elem)))

/-- A column that verifies climbs to the digest of the top layer above it. -/
theorem verify_ok [ElemWords Elem] {verifier : MerkleTreeVerifier} {L cols t : ℕ} (ht : t ≤ L)
    (hparams : verifier.params = ⟨2 ^ L, cols, L, 2 ^ t⟩) {out : List Elem}
    (h : verifier.verify H idx iop = .ok (out, iop')) : idx < 2 ^ L ∧
      climb H.pair (idx + 2 ^ L) (H.hashElemSlice out) (digestsOfWords (L - t) (iop.proof.drop (cols * WORDS Elem))) =
        topLeaf verifier.top (idx / 2 ^ (L - t)) := by
  obtain ⟨_, iop₁, hguard, h1⟩ := Read.bind_ok_iff.mp h
  obtain ⟨hrow, rfl⟩ := Read.lift_ok_iff.mp hguard
  rw [require_ok_iff, hparams] at hrow
  have hidx : idx < 2 ^ L := hrow
  obtain ⟨column, iop₂, hcolumn, h2⟩ := Read.bind_ok_iff.mp h1
  have hiop := readFieldElemSlice_ok hcolumn
  rw [hparams] at hiop
  obtain ⟨⟨cur, r⟩, iop₄, hpath, h3⟩ := Read.bind_ok_iff.mp h2
  obtain ⟨present, iop₅, hlift, h4⟩ := Read.bind_ok_iff.mp h3
  obtain ⟨hpresent, rfl⟩ := Read.lift_ok_iff.mp hlift
  obtain ⟨_, iop₆, hlast, h5⟩ := Read.bind_ok_iff.mp h4
  obtain ⟨hequal, rfl⟩ := Read.lift_ok_iff.mp hlast
  rw [require_ok_iff] at hequal
  cases h5
  simp only [hparams] at hpath
  have hle : 2 ^ t ≤ 2 ^ L := Nat.pow_le_pow_right (by decide) ht
  obtain ⟨hr, hrt, k, hk, hclimb⟩ := hashToTop_ok (by positivity) (by omega) hpath
  have hkL : k = L - t := by
    simp only at hr hrt hk
    rw [hk] at hr hrt
    have hlow := (Nat.le_div_iff_mul_le (by positivity)).mp hr
    have hhigh := (Nat.div_lt_iff_lt_mul (by positivity)).mp hrt
    rw [← pow_add] at hlow
    rw [← pow_succ', ← pow_add] at hhigh
    have hbelow : 2 ^ (t + k) < 2 ^ (L + 1) := by
      rw [pow_succ]
      omega
    have habove : 2 ^ L < 2 ^ (t + 1 + k) := by omega
    have := (Nat.pow_lt_pow_iff_right (by decide)).mp hbelow
    have := (Nat.pow_lt_pow_iff_right (by decide)).mp habove
    omega
  subst hkL
  have hdiv : (idx + 2 ^ L) / 2 ^ (L - t) = idx / 2 ^ (L - t) + 2 ^ t := by
    have hpow : 2 ^ L = 2 ^ t * 2 ^ (L - t) := by rw [← pow_add, Nat.add_sub_cancel' ht]
    rw [hpow, Nat.add_mul_div_right _ _ (by positivity)]
  rw [presentHash, hparams, if_pos hr, idxToTop] at hpresent
  refine ⟨hidx, ?_⟩
  have htop := readTop_ok hpresent
  simp only at hk hclimb hpresent
  rw [hk, hdiv, Nat.add_sub_cancel] at htop
  rw [← hiop, ← hclimb, ← hequal, htop]

/-- Where `new` returns, it keeps the layers of a tree over the digests that it read, and
else the error is that of a transcript which is too short or has a digest that is not valid. -/
theorem new_cases {L cols t queries : ℕ}
    (hparams : MerkleTreeParams.new (2 ^ L) cols queries = .ok ⟨2 ^ L, cols, L, 2 ^ t⟩) (iop : ReadIOP σ) :
    new H rng (2 ^ L) cols queries iop = .error .receiptFormatError ∨
      ∃ verifier iop', new H rng (2 ^ L) cols queries iop = .ok (verifier, iop') ∧
        verifier.params = ⟨2 ^ L, cols, L, 2 ^ t⟩ ∧ verifier.root = .ok (subtree H.pair (topLeaf verifier.top) t 0) := by
  have hstart : new H rng (2 ^ L) cols queries iop = (do
      let top ← readPodSlice (2 ^ t)
      let rest ← liftM (fill H ⟨2 ^ L, cols, L, 2 ^ t⟩ top)
      let verifier : MerkleTreeVerifier := ⟨⟨2 ^ L, cols, L, 2 ^ t⟩, top, rest⟩
      ReadIOP.commit rng (← liftM verifier.root)
      return verifier : Read σ MerkleTreeVerifier) iop := by
    rw [new, hparams]
    rfl
  rw [hstart]
  by_cases hlength : 2 ^ t * 8 ≤ iop.proof.length
  · have hread : (readPodSlice (2 ^ t) : Read σ (List Digest)) iop =
        .ok (digestsOfWords (2 ^ t) (iop.proof.take (2 ^ t * 8)), ⟨iop.proof.drop (2 ^ t * 8), iop.rng⟩) := by
      refine Read.bind_ok_iff.mpr ⟨_, _, if_pos hlength, rfl⟩
    have htop := length_digestsOfWords (2 ^ t) (iop.proof.take (2 ^ t * 8))
    obtain ⟨herror, -⟩ | hfill := @fill_spec _ H cols t L _ htop
    · left
      show ((readPodSlice (2 ^ t) : Read σ (List Digest)) iop >>= fun p => _) = _
      rw [hread]
      show ((fill H ⟨2 ^ L, cols, L, 2 ^ t⟩ _ >>= fun rest => _) >>= fun p => _) = _
      rw [herror]
      rfl
    · right
      have hroot := @root_spec _ H cols t L _ htop
      exact ⟨_, _, Read.bind_ok_iff.mpr ⟨_, _, hread, Read.bind_ok_iff.mpr ⟨_, _, Read.lift_ok_iff.mpr ⟨hfill, rfl⟩,
        Read.bind_ok_iff.mpr ⟨_, _, Read.lift_ok_iff.mpr ⟨hroot, rfl⟩, rfl⟩⟩⟩, rfl, hroot⟩
  · left
    show ((readU32s (2 ^ t * 8) iop >>= fun p => _) >>= fun p => _) = _
    rw [readU32s, if_neg hlength]
    rfl

end MerkleTreeVerifier

theorem Commits.binding [ElemWords Elem] [Inhabited Elem] {matrix : List Elem} {cols t : ℕ} {tree : MerkleTreeProver Elem}
    (h : Commits H matrix L cols t tree) (ht : t ≤ L) {pairs : Set (Digest × Digest)} {rows : Set (List Elem)}
    (hpair : Set.InjOn (fun pair => H.pair pair.1 pair.2) pairs) (hrow : Set.InjOn H.hashElemSlice rows)
    (htree : ∀ pair, TreePair H.pair (columnHash H matrix (2 ^ L) cols) L 0 pair → pair ∈ pairs)
    (hcolumns : ∀ idx < 2 ^ L, columnOf matrix (2 ^ L) cols idx ∈ rows) {verifier : MerkleTreeVerifier}
    (hparams : verifier.params = ⟨2 ^ L, cols, L, 2 ^ t⟩)
    (htop : ∀ pair, TreePair H.pair (MerkleTreeVerifier.topLeaf verifier.top) t 0 pair → pair ∈ pairs)
    (hroot : subtree H.pair (MerkleTreeVerifier.topLeaf verifier.top) t 0 = tree.root) {idx : ℕ} {iop iop' : ReadIOP σ}
    {out : List Elem} (hverify : verifier.verify H idx iop = .ok (out, iop'))
    (hpairs : ∀ pair ∈ MerkleTreeVerifier.verifyPairs H L t cols idx out iop.proof, pair ∈ pairs) (hout : out ∈ rows) :
    idx < 2 ^ L ∧ out = columnOf matrix (2 ^ L) cols idx := by
  obtain ⟨hidx, hclimb⟩ := MerkleTreeVerifier.verify_ok ht hparams hverify
  have hleaf : MerkleTreeVerifier.topLeaf verifier.top (idx / 2 ^ (L - t)) =
      subtree H.pair (columnHash H matrix (2 ^ L) cols) (L - t) (idx / 2 ^ (L - t)) := by
    have hblock : idx / 2 ^ (L - t) / 2 ^ t = 0 := by
      rw [Nat.div_div_eq_div_mul, ← pow_add, Nat.sub_add_cancel ht, Nat.div_eq_of_lt hidx]
    refine leaf_eq_of_root hpair htop ?_ ?_ hblock
    · rintro _ ⟨i, hi, k, hk, rfl⟩
      apply htree
      refine ⟨i + (L - t), by omega, k, ?_, ?_⟩
      · have hsub : L - (i + (L - t)) - 1 = t - i - 1 := by omega
        rw [hsub, hk]
      · rw [subtree_add, subtree_add]
    · have hroot' := @subtree_add _ H.pair (columnHash H matrix (2 ^ L) cols) t (L - t) 0
      rw [Nat.add_sub_cancel' ht] at hroot'
      rw [hroot, h.root_eq, hroot']
  have hmod := @climb_mod _ H.pair (idx + 2 ^ L) (H.hashElemSlice out)
    (digestsOfWords (L - t) (iop.proof.drop (cols * WORDS Elem)))
  have hmod' := @climb_mod _ H.pair idx (H.hashElemSlice out) (digestsOfWords (L - t) (iop.proof.drop (cols * WORDS Elem)))
  have hbits : (idx + 2 ^ L) % 2 ^ (L - t) = idx % 2 ^ (L - t) := by
    have hdvd : 2 ^ (L - t) ∣ 2 ^ L := pow_dvd_pow 2 (by omega)
    rw [Nat.add_mod, Nat.mod_eq_zero_of_dvd hdvd, Nat.add_zero, Nat.mod_mod]
  rw [length_digestsOfWords] at hmod hmod'
  rw [← hmod.1, hbits, hmod'.1, hleaf] at hclimb
  unfold MerkleTreeVerifier.verifyPairs at hpairs
  rw [← hmod.2, hbits, hmod'.2] at hpairs
  have hinj : ∀ p ∈ climbPairs H.pair idx (H.hashElemSlice out) (digestsOfWords (L - t) (iop.proof.drop (cols * WORDS Elem))),
      ∀ q, TreePair H.pair (columnHash H matrix (2 ^ L) cols)
        (digestsOfWords (L - t) (iop.proof.drop (cols * WORDS Elem))).length
        (idx / 2 ^ (digestsOfWords (L - t) (iop.proof.drop (cols * WORDS Elem))).length) q →
        H.pair p.1 p.2 = H.pair q.1 q.2 → p = q := by
    rintro p hp q ⟨i, hi, k, hk, hq⟩ heq
    rw [length_digestsOfWords] at hi hk
    refine hpair (hpairs p hp) (htree q ⟨i, by omega, k, ?_, hq⟩) heq
    have hsub : L - i - 1 = L - t - i - 1 + t := by omega
    rw [hsub, pow_add, ← Nat.div_div_eq_div_mul, hk, Nat.div_div_eq_div_mul, ← pow_add, Nat.sub_add_cancel ht, Nat.div_eq_of_lt hidx]
  have hself := (climb_eq_subtree hinj (by rw [length_digestsOfWords]; exact hclimb)).1
  exact ⟨hidx, hrow hout (hcolumns idx hidx) hself⟩

section Commitment

variable [ElemWords Elem] [Inhabited Elem] (H) (rng)

/-- The verifier gets the root from what `commit` wrote, each column from what `prove` wrote,
and takes all the words of it. -/
def CommitmentComplete (matrix : List Elem) (L cols queries : ℕ) (tree : MerkleTreeProver Elem) : Prop :=
  ∀ iop : WriteIOP σ, ∃ words verifier, tree.commit rng iop = ⟨iop.proof ++ words, rng.mix tree.root iop.rng⟩ ∧
    Reads (MerkleTreeVerifier.new H rng (2 ^ L) cols queries) iop.rng words verifier (rng.mix tree.root iop.rng) ∧
    verifier.root = .ok tree.root ∧ ∀ idx < 2 ^ L, ∀ iop' : WriteIOP σ, ∃ words',
      tree.prove idx iop' = .ok (columnOf matrix (2 ^ L) cols idx, ⟨iop'.proof ++ words', iop'.rng⟩) ∧
      Reads (verifier.verify H idx) iop'.rng words' (columnOf matrix (2 ^ L) cols idx) iop'.rng

/-- Among rows and pairs whose hashes differ, a verifier with the prover's root takes the
prover's columns only. -/
def CommitmentBinding (matrix : List Elem) (L cols queries t : ℕ) (tree : MerkleTreeProver Elem)
    (pairs : Set (Digest × Digest)) (rows : Set (List Elem)) : Prop :=
  ∀ verifier iop iop', MerkleTreeVerifier.new H rng (2 ^ L) cols queries iop = .ok (verifier, iop') →
    verifier.root = .ok tree.root →
    (∀ pair, TreePair H.pair (MerkleTreeVerifier.topLeaf verifier.top) t 0 pair → pair ∈ pairs) →
    ∀ idx (iop₁ iop₂ : ReadIOP σ) out, verifier.verify H idx iop₁ = .ok (out, iop₂) →
      (∀ pair ∈ MerkleTreeVerifier.verifyPairs H L t cols idx out iop₁.proof, pair ∈ pairs) → out ∈ rows →
      idx < 2 ^ L ∧ out = columnOf matrix (2 ^ L) cols idx

/-- Commitments are complete and binding, and the verifier never panics or reads a slot that
it has not written. -/
theorem merkle_commitment {L cols : ℕ} (hL : 1 ≤ L) (hL32 : L < 32) (queries : ℕ) {matrix : List Elem}
    (hmatrix : matrix.length = 2 ^ L * cols) : ∃ t < L, ∃ tree,
      MerkleTreeParams.new (2 ^ L) cols queries = .ok ⟨2 ^ L, cols, L, 2 ^ t⟩ ∧
      MerkleTreeProver.new H matrix (2 ^ L) cols queries = .ok tree ∧
      CommitmentComplete H rng matrix L cols queries tree ∧
      (∀ pairs rows, Set.InjOn (fun pair => H.pair pair.1 pair.2) pairs → Set.InjOn H.hashElemSlice rows →
        (∀ pair, TreePair H.pair (columnHash H matrix (2 ^ L) cols) L 0 pair → pair ∈ pairs) →
        (∀ idx < 2 ^ L, columnOf matrix (2 ^ L) cols idx ∈ rows) →
        CommitmentBinding H rng matrix L cols queries t tree pairs rows) ∧
      ∀ iop, MerkleTreeVerifier.new H rng (2 ^ L) cols queries iop ≠ .error .panic ∧
        MerkleTreeVerifier.new H rng (2 ^ L) cols queries iop ≠ .error .uninitialized := by
  obtain ⟨t, ht, tree, hparams, hnew, hcommits⟩ := @prover_new _ H _ matrix L cols hL hL32 queries hmatrix
  refine ⟨t, ht, tree, hparams, hnew, fun iop => ?_, fun pairs rows hpair hrow htree hcolumns => ?_, fun iop => ?_⟩
  · obtain ⟨verifier, hreads, hverifier, htop, hroot⟩ : ∃ verifier, Reads (MerkleTreeVerifier.new H rng (2 ^ L) cols queries) iop.rng
        (wordsOfDigests tree.top) verifier (rng.mix tree.root iop.rng) ∧ _ := hcommits.reads_new ht.le hparams iop.rng
    exact ⟨_, verifier, rfl, hreads, hroot, fun idx hidx iop' => hcommits.reads_verify ht.le hverifier htop hidx iop'⟩
  · intro verifier iop iop' hverifier hroot htop idx iop₁ iop₂ out hverify hpairs hout
    obtain herror | ⟨verifier', iop'', hok, hsame, hsubtree⟩ := @MerkleTreeVerifier.new_cases _ _ H rng L cols t queries hparams iop
    · rw [herror] at hverifier
      cases hverifier
    · rw [hok] at hverifier
      cases hverifier
      rw [hsubtree] at hroot
      exact hcommits.binding ht.le hpair hrow htree hcolumns hsame htop (Except.ok.inj hroot) hverify hpairs hout
  · obtain herror | ⟨_, _, hok, -⟩ := @MerkleTreeVerifier.new_cases _ _ H rng L cols t queries hparams iop
    · rw [herror]
      exact ⟨by simp, by simp⟩
    · rw [hok]
      exact ⟨by simp, by simp⟩

end Commitment

instance : ElemWords Word where
  WORDS := 1
  toWords elem := [elem]
  ofWords words := words.head?
  length_toWords _ := rfl
  ofWords_toWords _ := rfl

theorem zero_lt_words : 0 < 8 := by decide

theorem one_lt_words : 1 < 8 := by decide

/-- One word in each half. -/
def sampleRowHash : HashFn Word where
  isDigestValid _ := true
  pair a b := (Digest.zero.set 0 (getElem a 0 zero_lt_words) zero_lt_words).set 1 (getElem b 0 zero_lt_words) one_lt_words
  hashElemSlice row := Digest.zero.set 0 (row.headD 0) zero_lt_words
  valid_zero := rfl
  valid_pair _ _ := rfl
  valid_hashElemSlice _ := rfl

def sampleRng : Rng Unit where
  mix _ := id

def sampleRowPairs : Set (Digest × Digest) := {pair | ∃ x y, pair = (Digest.zero.set 0 x zero_lt_words, Digest.zero.set 0 y zero_lt_words)}

theorem merkle_commitment_sample : ∃ tree, MerkleTreeProver.new sampleRowHash [3, 5] 2 1 50 = .ok tree ∧
    CommitmentComplete sampleRowHash sampleRng [3, 5] 1 1 50 tree ∧
    CommitmentBinding sampleRowHash sampleRng [3, 5] 1 1 50 0 tree sampleRowPairs {row | row.length = 1} := by
  obtain ⟨t, ht, tree, -, hnew, hcomplete, hbinding, -⟩ :=
    @merkle_commitment Word Unit sampleRowHash sampleRng _ _ 1 1 le_rfl (by decide) 50 [3, 5] rfl
  obtain rfl : t = 0 := by omega
  refine ⟨tree, hnew, hcomplete, hbinding _ _ ?_ ?_ ?_ ?_⟩
  · rintro _ ⟨x, y, rfl⟩ _ ⟨x', y', rfl⟩ heq
    have hleft := congrArg (fun v : Digest => v[0]) heq
    have hright := congrArg (fun v : Digest => v[1]) heq
    simp [sampleRowHash] at hleft hright
    rw [hleft, hright]
  · rintro row hrow row' hrow' heq
    obtain ⟨x, rfl⟩ := List.length_eq_one_iff.mp hrow
    obtain ⟨x', rfl⟩ := List.length_eq_one_iff.mp hrow'
    have hword := congrArg (fun v : Digest => v[0]) heq
    simp [sampleRowHash] at hword
    rw [hword]
  · rintro _ ⟨i, hi, k, -, rfl⟩
    obtain rfl : i = 0 := by omega
    exact ⟨_, _, rfl⟩
  · exact fun _ _ => rfl

/-- The row count is taken as a number of 32 bits. -/
theorem large_matrix_panics : 2 ≤ 2 ^ 32 ∧ (List.replicate (2 ^ 32) (0 : Word)).length = 2 ^ 32 * 1 ∧
    MerkleTreeProver.new sampleRowHash (List.replicate (2 ^ 32) (0 : Word)) (2 ^ 32) 1 50 = .error .panic ∧
    ∀ iop, MerkleTreeVerifier.new sampleRowHash sampleRng (2 ^ 32) 1 50 iop = .error .panic := by
  have hparams : MerkleTreeParams.new (2 ^ 32) 1 50 = .error .panic := by
    have hpo2 : toPo2 (2 ^ 32) = .error .panic := if_pos (Nat.mod_self _)
    rw [MerkleTreeParams.new, hpo2]
    rfl
  refine ⟨by decide, by rw [List.length_replicate, Nat.mul_one], ?_, fun iop => ?_⟩
  · rw [MerkleTreeProver.new, require, if_pos (by rw [List.length_replicate, Nat.mul_one]), hparams]
    rfl
  · rw [MerkleTreeVerifier.new, hparams]
    rfl

end VerifiableCompute.Zkp
