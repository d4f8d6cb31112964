import VerifiableCompute.Zkp.MerkleGroup

/-! What a proof of inclusion in a group of control ids proves. -/

namespace VerifiableCompute.Zkp

open Lib MerkleGroup List Nat

variable {Elem : Type} {H : HashFn Elem} {leaf : ℕ → Digest}

variable {cur sibling root digest : Digest} {index k : ℕ} {digests : List Digest}

theorem hashUp_of_valid (hcur : H.isDigestValid cur) (hsibling : H.isDigestValid sibling) (index : ℕ) :
    hashUp H cur index sibling = .ok (if index % 2 = 1 then H.pair sibling cur else H.pair cur sibling) := by
  rw [hashUp, and_one_is_mod]
  rcases mod_two_eq_zero_or_one index with heven | hodd
  · rw [if_pos heven, if_neg (by omega), hashPair_of_valid hcur hsibling]
  · rw [if_neg (by omega), if_pos hodd, hashPair_of_valid hsibling hcur]

theorem hashUp_ok {up : Digest} (h : hashUp H cur index sibling = .ok up) :
    H.isDigestValid cur ∧ H.isDigestValid sibling := by
  unfold hashUp at h
  split at h
  · obtain ⟨hcur, hsibling, -⟩ := hashPair_ok h
    exact ⟨hcur, hsibling⟩
  · obtain ⟨hsibling, hcur, -⟩ := hashPair_ok h
    exact ⟨hcur, hsibling⟩

namespace MerkleGroup

variable {group : MerkleGroup}

theorem valid_leafOrEmpty (h : ∀ digest ∈ group.leaves, H.isDigestValid digest) (x : ℕ) :
    H.isDigestValid (group.leafOrEmpty x) := by
  unfold leafOrEmpty
  cases hget : group.leaves[x]? with
  | none => exact H.valid_zero
  | some digest => exact h digest (mem_of_getElem? hget)

variable (h : ∀ x, H.isDigestValid (group.leafOrEmpty x))

include h

theorem calcRangeRoot_eq (height n : ℕ) :
    group.calcRangeRoot H (n * 2 ^ height) (n * 2 ^ height + 2 ^ height) = .ok (subtree H.pair group.leafOrEmpty height n) := by
  induction height generalizing n with
  | zero =>
    rw [pow_zero, Nat.mul_one, calcRangeRoot, if_neg (by omega), if_pos rfl, subtree]
  | succ height ih =>
    have hpos : 0 < 2 ^ height := by positivity
    have hmid : (n * 2 ^ (height + 1) + (n * 2 ^ (height + 1) + 2 ^ (height + 1))) / 2 = n * 2 ^ (height + 1) + 2 ^ height := by
      rw [pow_succ]
      omega
    have hstart : n * 2 ^ (height + 1) = 2 * n * 2 ^ height := by ring
    have hstop : n * 2 ^ (height + 1) + 2 ^ (height + 1) = (2 * n + 1) * 2 ^ height + 2 ^ height := by ring
    have hleft := ih (2 * n)
    have hright := ih (2 * n + 1)
    have hmiddle : (2 * n + 1) * 2 ^ height = 2 * n * 2 ^ height + 2 ^ height := by ring
    rw [calcRangeRoot, if_neg (by omega), if_neg (by omega), hmid, if_neg (by omega), hstop, hstart, hleft, ← hmiddle, hright]
    exact hashPair_of_valid (valid_subtree h height _) (valid_subtree h height _)

theorem calcRoot_eq : group.calcRoot H = .ok (subtree H.pair group.leafOrEmpty group.depth 0) := by
  have hrange := calcRangeRoot_eq h group.depth 0
  rwa [Nat.zero_mul, Nat.zero_add, ← one_shiftLeft] at hrange

theorem proofDigests_eq (i index count : ℕ) :
    group.proofDigests H i (subtree H.pair group.leafOrEmpty i index) index count =
      .ok (siblingPath H.pair group.leafOrEmpty i index count) := by
  induction count generalizing i index with
  | zero => rfl
  | succ count ih =>
    have hsibling := calcRangeRoot_eq h i (index ^^^ 1)
    have hup := hashUp_of_valid (valid_subtree h i index) (valid_subtree h i (index ^^^ 1)) index
    rw [join_sibling] at hup
    rw [proofDigests, Nat.shiftLeft_eq, one_shiftLeft, shiftRight_one]
    refine bind_ok_iff.mpr ⟨_, hsibling, bind_ok_iff.mpr ⟨_, hup, bind_ok_iff.mpr ⟨_, ih _ _, rfl⟩⟩⟩

end MerkleGroup

theorem rootFrom_of_valid (hcur : H.isDigestValid cur)
    (hdigests : ∀ digest ∈ digests, H.isDigestValid digest) (index : ℕ) :
    MerkleProof.rootFrom H cur index digests = .ok (climb H.pair index cur digests) := by
  induction digests generalizing cur index with
  | nil => rfl
  | cons sibling digests ih =>
    obtain ⟨hsibling, hrest⟩ := forall_mem_cons.mp hdigests
    have hvalid : H.isDigestValid (if index % 2 = 1 then H.pair sibling cur else H.pair cur sibling) := by
      split
      · exact H.valid_pair hsibling hcur
      · exact H.valid_pair hcur hsibling
    rw [MerkleProof.rootFrom, shiftRight_one, climb]
    exact bind_ok_iff.mpr ⟨_, hashUp_of_valid hcur hsibling index, ih hvalid hrest _⟩

theorem rootFrom_ok (h : MerkleProof.rootFrom H cur index digests = .ok root) :
    root = climb H.pair index cur digests ∧ (digests ≠ [] → H.isDigestValid cur) ∧
      ∀ digest ∈ digests, H.isDigestValid digest := by
  induction digests generalizing cur index with
  | nil => exact ⟨(Except.ok.inj h).symm, fun hne => absurd rfl hne, fun _ hmem => absurd hmem not_mem_nil⟩
  | cons sibling digests ih =>
    rw [MerkleProof.rootFrom, shiftRight_one] at h
    obtain ⟨up, hup, hrest⟩ := bind_ok_iff.mp h
    obtain ⟨hcur, hsibling⟩ := hashUp_ok hup
    obtain ⟨hroot, -, hdigests⟩ := ih hrest
    rw [hashUp_of_valid hcur hsibling, Except.ok.injEq] at hup
    rw [climb, hup]
    exact ⟨hroot, fun _ => hcur, forall_mem_cons.mpr ⟨hsibling, hdigests⟩⟩

/-- The proof of each leaf verifies. -/
def Complete (H : HashFn Elem) (leaves : List Digest) : Prop :=
  ∃ group root, MerkleGroup.new leaves = .ok group ∧ group.calcRoot H = .ok root ∧
    ∀ leaf ∈ leaves, ∃ proof, group.getProof H leaf = .ok proof ∧ proof.verify H leaf root = .ok ()

/-- A proof with `count` digests that verifies is one of the digest at its index, if it
hashes none but these pairs. -/
def Sound (H : HashFn Elem) (pairs : Set (Digest × Digest)) (leaves : List Digest) (count : ℕ) : Prop :=
  ∀ group root, MerkleGroup.new leaves = .ok group → group.calcRoot H = .ok root →
    ∀ (proof : MerkleProof) digest, proof.digests.length = count →
      (∀ pair ∈ climbPairs H.pair proof.index.toNat digest proof.digests, pair ∈ pairs) →
      proof.verify H digest root = .ok () → group.leafOrEmpty (proof.index.toNat % 2 ^ group.depth) = digest

/-- The group that is made of a list that is not too long. -/
def groupOf (leaves : List Digest) : MerkleGroup := ⟨ALLOWED_CODE_MERKLE_DEPTH, leaves.mergeSort Digest.le⟩

/-- What the hash function is trusted for: it merges no two of these pairs, gives zero for
none, and the pairs of the group are among them. -/
structure Trusted (H : HashFn Elem) (pairs : Set (Digest × Digest)) (leaves : List Digest) : Prop where
  inj : Set.InjOn (fun pair => H.pair pair.1 pair.2) pairs
  ne_zero : ∀ pair ∈ pairs, H.pair pair.1 pair.2 ≠ .zero
  tree : ∀ pair, TreePair H.pair (groupOf leaves).leafOrEmpty ALLOWED_CODE_MERKLE_DEPTH 0 pair → pair ∈ pairs

/-- Undoing so many hashes, to the side that the index tells, leads to the digest at the index. -/
def Resolves (H : HashFn Elem) (pairs : Set (Digest × Digest)) (leaves : List Digest) (index : ℕ) : ℕ → Digest → Prop
  | 0, digest => (groupOf leaves).leafOrEmpty (index % 2 ^ ALLOWED_CODE_MERKLE_DEPTH) = digest
  | k + 1, digest => ∀ a b, (a, b) ∈ pairs → H.isDigestValid a → H.isDigestValid b → H.pair a b = digest →
    Resolves H pairs leaves index k (if index / 2 ^ k % 2 = 1 then b else a)

variable {leaves : List Digest} {pairs : Set (Digest × Digest)}

theorem new_eq (hlength : leaves.length < 2 ^ 8) : new leaves = .ok (groupOf leaves) := if_pos hlength

theorem valid_group (h : ∀ leaf ∈ leaves, H.isDigestValid leaf) (x : ℕ) : H.isDigestValid ((groupOf leaves).leafOrEmpty x) := by
  apply valid_leafOrEmpty
  intro digest hmem
  exact h digest (mem_mergeSort.mp hmem)

theorem verify_ok_iff {proof : MerkleProof} : proof.verify H digest root = .ok () ↔ proof.root H digest = .ok root := by
  unfold MerkleProof.verify
  cases proof.root H digest with
  | error e => simp [bind, Except.bind]
  | ok value =>
    by_cases heq : value = root <;> simp [bind, Except.bind, pure, Except.pure, throw, throwThe, MonadExceptOf.throw, heq]

theorem getProof_verifies (hvalid : ∀ leaf ∈ leaves, H.isDigestValid leaf) (hlength : leaves.length < 2 ^ 8) {leaf : Digest}
    (hmem : leaf ∈ leaves) : ∃ proof, (groupOf leaves).getProof H leaf = .ok proof ∧
      proof.verify H leaf (subtree H.pair (groupOf leaves).leafOrEmpty ALLOWED_CODE_MERKLE_DEPTH 0) = .ok () := by
  have hsorted : leaf ∈ (groupOf leaves).leaves := mem_mergeSort.mpr hmem
  obtain ⟨index, hfind⟩ : ∃ index, (groupOf leaves).leaves.findIdx? (· == leaf) = some index := by
    apply Option.isSome_iff_exists.mp
    rw [findIdx?_isSome]
    exact any_eq_true.mpr ⟨leaf, hsorted, beq_self_eq_true leaf⟩
  obtain ⟨hlt, hget, -⟩ := findIdx?_eq_some_iff_getElem.mp hfind
  have hleaf : (groupOf leaves).leaves[index]? = some leaf := by
    rw [getElem?_eq_getElem hlt, eq_of_beq hget]
  have hself : (groupOf leaves).leafOrEmpty index = leaf := by
    rw [leafOrEmpty, hleaf, Option.getD_some]
  have hindex : index < 2 ^ 8 := by
    have hcount : (groupOf leaves).leaves.length = leaves.length := length_mergeSort ..
    omega
  have hpath := proofDigests_eq (valid_group hvalid) 0 index ALLOWED_CODE_MERKLE_DEPTH
  rw [subtree, hself] at hpath
  refine ⟨⟨.ofNat 32 index, siblingPath H.pair (groupOf leaves).leafOrEmpty 0 index ALLOWED_CODE_MERKLE_DEPTH⟩, ?_, ?_⟩
  · rw [getProof, hfind]
    show (groupOf leaves).getProofByIndex H index = _
    rw [getProofByIndex, hleaf]
    exact bind_ok_iff.mpr ⟨_, hpath, rfl⟩
  · have hnat : (BitVec.ofNat 32 index).toNat = index := by
      rw [BitVec.toNat_ofNat, mod_eq_of_lt (by omega)]
    have hsiblings : ∀ digest ∈ siblingPath H.pair (groupOf leaves).leafOrEmpty 0 index ALLOWED_CODE_MERKLE_DEPTH,
        H.isDigestValid digest := by
      intro digest hdigest
      obtain ⟨j, k, rfl⟩ := mem_siblingPath hdigest
      exact valid_subtree (valid_group hvalid) j k
    have hclimb := @climb_siblingPath _ H.pair (groupOf leaves).leafOrEmpty 0 index ALLOWED_CODE_MERKLE_DEPTH
    have hzero : index / 2 ^ ALLOWED_CODE_MERKLE_DEPTH = 0 := div_eq_of_lt hindex
    rw [subtree, hself, Nat.zero_add, hzero] at hclimb
    rw [verify_ok_iff, MerkleProof.root, hnat, rootFrom_of_valid (hvalid leaf hmem) hsiblings, hclimb]

theorem complete_iff (hlength : leaves.length < 2 ^ 8) : Complete H leaves ↔ ∀ leaf ∈ leaves, H.isDigestValid leaf := by
  constructor
  · rintro ⟨group, root, hnew, -, hproofs⟩ leaf hmem
    rw [new_eq hlength, Except.ok.injEq] at hnew
    subst hnew
    obtain ⟨proof, hproof, hverify⟩ := hproofs leaf hmem
    have hne : proof.digests ≠ [] := by
      unfold getProof at hproof
      split at hproof
      next => cases hproof
      next index _ =>
        unfold getProofByIndex at hproof
        split at hproof
        next => cases hproof
        next =>
          obtain ⟨digests, hdigests, hproof⟩ := bind_ok_iff.mp hproof
          obtain ⟨_, -, hdigests⟩ := bind_ok_iff.mp hdigests
          obtain ⟨_, -, hdigests⟩ := bind_ok_iff.mp hdigests
          obtain ⟨_, -, hdigests⟩ := bind_ok_iff.mp hdigests
          rw [← Except.ok.inj hproof, ← Except.ok.inj hdigests]
          exact cons_ne_nil _ _
    exact (rootFrom_ok (verify_ok_iff.mp hverify)).2.1 hne
  · intro hvalid
    exact ⟨groupOf leaves, _, new_eq hlength, calcRoot_eq (valid_group hvalid),
      fun leaf hmem => getProof_verifies hvalid hlength hmem⟩

/-- Down the lower part of a path, hashes are undone. -/
theorem Resolves.start
    (hpairs : ∀ pair ∈ climbPairs H.pair index digest digests, pair ∈ pairs ∧ H.isDigestValid pair.1 ∧ H.isDigestValid pair.2)
    (h : Resolves H pairs leaves index digests.length (climb H.pair index digest digests)) :
    Resolves H pairs leaves index 0 digest := by
  induction digests using reverseRecOn with
  | nil => exact h
  | append_singleton digests sibling ih =>
    rw [climbPairs_append] at hpairs
    have hlower := fun pair hmem => hpairs pair (mem_append_left _ hmem)
    have htop := hpairs _ (mem_append_right _ mem_cons_self)
    rw [climb_append, length_append, length_singleton, climb, climb] at h
    apply ih hlower
    rcases mod_two_eq_zero_or_one (index / 2 ^ digests.length) with heven | hodd
    · rw [if_neg (by omega)] at h htop
      have hchild := h _ _ htop.1 htop.2.1 htop.2.2 rfl
      rwa [if_neg (by omega)] at hchild
    · rw [if_pos hodd] at h htop
      have hchild := h _ _ htop.1 htop.2.1 htop.2.2 rfl
      rwa [if_pos hodd] at hchild

theorem Trusted.climb_depth (h : Trusted H pairs leaves)
    (hlength : digests.length = ALLOWED_CODE_MERKLE_DEPTH) (hpairs : ∀ pair ∈ climbPairs H.pair index digest digests, pair ∈ pairs)
    (hroot : climb H.pair index digest digests = subtree H.pair (groupOf leaves).leafOrEmpty ALLOWED_CODE_MERKLE_DEPTH 0) :
    digest = (groupOf leaves).leafOrEmpty (index % 2 ^ ALLOWED_CODE_MERKLE_DEPTH) := by
  have hzero : index % 2 ^ digests.length / 2 ^ digests.length = 0 := div_eq_of_lt (mod_lt _ (by positivity))
  obtain ⟨hclimb, hclimbPairs⟩ := @climb_mod _ H.pair index digest digests
  have hinj : ∀ p ∈ climbPairs H.pair (index % 2 ^ digests.length) digest digests,
      ∀ q, TreePair H.pair (groupOf leaves).leafOrEmpty digests.length (index % 2 ^ digests.length / 2 ^ digests.length) q →
        H.pair p.1 p.2 = H.pair q.1 q.2 → p = q := by
    intro p hp q hq heq
    rw [hclimbPairs] at hp
    rw [hzero, hlength] at hq
    exact h.inj (hpairs p hp) (h.tree q hq) heq
  rw [← hlength] at hroot ⊢
  rw [← hclimb, ← hzero] at hroot
  exact (climb_eq_subtree hinj hroot).1

/-- Proofs that are as long as the group is deep, or longer where the leaves resolve. -/
theorem sound_of_resolves (h : Trusted H pairs leaves) (hvalid : ∀ leaf ∈ leaves, H.isDigestValid leaf)
    (hlength : leaves.length < 2 ^ 8) (hresolves : ∀ index : BitVec 32, Resolves H pairs leaves index.toNat k
      ((groupOf leaves).leafOrEmpty (index.toNat / 2 ^ k % 2 ^ ALLOWED_CODE_MERKLE_DEPTH))) :
    Sound H pairs leaves (k + ALLOWED_CODE_MERKLE_DEPTH) := by
  intro group root hnew hroot proof digest hcount hpairs hverify
  rw [new_eq hlength, Except.ok.injEq] at hnew
  subst hnew
  rw [calcRoot_eq (valid_group hvalid), Except.ok.injEq] at hroot
  subst hroot
  obtain ⟨hclimb, hdigest, hdigests⟩ := rootFrom_ok (verify_ok_iff.mp hverify)
  have hne : proof.digests ≠ [] := by
    intro hnil
    rw [hnil, length_nil, ALLOWED_CODE_MERKLE_DEPTH] at hcount
    omega
  have hsplit : proof.digests = proof.digests.take k ++ proof.digests.drop k := (take_append_drop ..).symm
  have hlow : (proof.digests.take k).length = k := by
    rw [length_take]
    omega
  have hhigh : (proof.digests.drop k).length = ALLOWED_CODE_MERKLE_DEPTH := by
    rw [length_drop]
    omega
  rw [hsplit, climb_append, hlow] at hclimb
  rw [hsplit, climbPairs_append, hlow] at hpairs
  have hleaf := h.climb_depth hhigh (fun pair hmem => hpairs pair (mem_append_right _ hmem)) hclimb.symm
  have hvalidPairs := @valid_climbPairs _ H proof.index.toNat _ _ (hdigest hne)
    (fun sibling hmem => hdigests sibling (mem_of_mem_take (i := k) hmem))
  refine Resolves.start (fun pair hmem => ⟨hpairs pair (mem_append_left _ hmem), hvalidPairs pair hmem⟩) ?_
  rw [hlow, hleaf]
  exact hresolves proof.index

theorem resolves_of_sound (hvalid : ∀ leaf ∈ leaves, H.isDigestValid leaf) (hlength : leaves.length < 2 ^ 8)
    (htree : ∀ pair, TreePair H.pair (groupOf leaves).leafOrEmpty ALLOWED_CODE_MERKLE_DEPTH 0 pair → pair ∈ pairs)
    (hsound : Sound H pairs leaves (k + ALLOWED_CODE_MERKLE_DEPTH)) (index : BitVec 32) (j : ℕ) (digest : Digest)
    (upper : List Digest) (hupper : upper.length + j = k) (hdigest : H.isDigestValid digest)
    (hvalidUpper : ∀ sibling ∈ upper, H.isDigestValid sibling)
    (hpairs : ∀ pair ∈ climbPairs H.pair (index.toNat / 2 ^ j) digest upper, pair ∈ pairs)
    (hclimb : climb H.pair (index.toNat / 2 ^ j) digest upper =
      (groupOf leaves).leafOrEmpty (index.toNat / 2 ^ k % 2 ^ ALLOWED_CODE_MERKLE_DEPTH)) :
    Resolves H pairs leaves index.toNat j digest := by
  induction j generalizing digest upper with
  | zero =>
    rw [pow_zero, Nat.div_one] at hpairs hclimb
    rw [Nat.add_zero] at hupper
    have hdepth : (siblingPath H.pair (groupOf leaves).leafOrEmpty 0 (index.toNat / 2 ^ k % 2 ^ ALLOWED_CODE_MERKLE_DEPTH)
        ALLOWED_CODE_MERKLE_DEPTH).length = ALLOWED_CODE_MERKLE_DEPTH := length_siblingPath ..
    have hzero : index.toNat / 2 ^ k % 2 ^ ALLOWED_CODE_MERKLE_DEPTH / 2 ^ ALLOWED_CODE_MERKLE_DEPTH = 0 :=
      div_eq_of_lt (mod_lt _ (by positivity))
    have hmod := @climb_mod _ H.pair (index.toNat / 2 ^ k)
      ((groupOf leaves).leafOrEmpty (index.toNat / 2 ^ k % 2 ^ ALLOWED_CODE_MERKLE_DEPTH))
      (siblingPath H.pair (groupOf leaves).leafOrEmpty 0 (index.toNat / 2 ^ k % 2 ^ ALLOWED_CODE_MERKLE_DEPTH)
        ALLOWED_CODE_MERKLE_DEPTH)
    rw [hdepth] at hmod
    refine hsound (groupOf leaves) _ (new_eq hlength) (calcRoot_eq (valid_group hvalid))
      ⟨index, upper ++ siblingPath H.pair (groupOf leaves).leafOrEmpty 0 (index.toNat / 2 ^ k % 2 ^ ALLOWED_CODE_MERKLE_DEPTH)
        ALLOWED_CODE_MERKLE_DEPTH⟩ digest ?_ ?_ ?_
    · rw [length_append, hdepth, hupper]
    · intro pair hmem
      rw [climbPairs_append, hupper, hclimb, ← hmod.2] at hmem
      rcases mem_append.mp hmem with hlow | hhigh
      · exact hpairs pair hlow
      · apply htree
        have hpair := @treePair_of_mem _ H.pair (groupOf leaves).leafOrEmpty 0 _ _ _ hhigh
        rwa [Nat.zero_add, hzero] at hpair
    · have hall : ∀ sibling ∈ upper ++ siblingPath H.pair (groupOf leaves).leafOrEmpty 0
          (index.toNat / 2 ^ k % 2 ^ ALLOWED_CODE_MERKLE_DEPTH) ALLOWED_CODE_MERKLE_DEPTH, H.isDigestValid sibling := by
        intro sibling hmem
        rcases mem_append.mp hmem with hlow | hhigh
        · exact hvalidUpper sibling hlow
        · obtain ⟨i, n, rfl⟩ := mem_siblingPath hhigh
          exact valid_subtree (valid_group hvalid) i n
      have htop := @climb_siblingPath _ H.pair (groupOf leaves).leafOrEmpty 0
        (index.toNat / 2 ^ k % 2 ^ ALLOWED_CODE_MERKLE_DEPTH) ALLOWED_CODE_MERKLE_DEPTH
      rw [subtree, Nat.zero_add, hzero] at htop
      rw [verify_ok_iff, MerkleProof.root, rootFrom_of_valid hdigest hall, climb_append, hupper, hclimb, ← hmod.1, htop]
      rfl
  | succ j ih =>
    intro a b hab ha hb heq
    have hdiv : index.toNat / 2 ^ j / 2 = index.toNat / 2 ^ (j + 1) := by
      rw [Nat.div_div_eq_div_mul, ← pow_succ]
    rcases mod_two_eq_zero_or_one (index.toNat / 2 ^ j) with heven | hodd
    · rw [if_neg (by omega)]
      apply ih a (b :: upper) (by rw [length_cons]; omega) ha (forall_mem_cons.mpr ⟨hb, hvalidUpper⟩)
      · rw [climbPairs, if_neg (by omega), if_neg (by omega), hdiv, heq]
        exact forall_mem_cons.mpr ⟨hab, hpairs⟩
      · rw [climb, if_neg (by omega), hdiv, heq, hclimb]
    · rw [if_pos hodd]
      apply ih b (a :: upper) (by rw [length_cons]; omega) hb (forall_mem_cons.mpr ⟨ha, hvalidUpper⟩)
      · rw [climbPairs, if_pos hodd, if_pos hodd, hdiv, heq]
        exact forall_mem_cons.mpr ⟨hab, hpairs⟩
      · rw [climb, if_pos hodd, hdiv, heq, hclimb]

/-- A proof that is too short proves a node of the tree to be where the group is filled up. -/
theorem not_sound_of_short (h : Trusted H pairs leaves) (hvalid : ∀ leaf ∈ leaves, H.isDigestValid leaf)
    (hlength : leaves.length < 2 ^ 8) {count : ℕ} (hcount : count < ALLOWED_CODE_MERKLE_DEPTH) :
    ¬ Sound H pairs leaves count := by
  intro hsound
  obtain ⟨i, hi⟩ : ∃ i, i + 1 + count = ALLOWED_CODE_MERKLE_DEPTH := ⟨ALLOWED_CODE_MERKLE_DEPTH - count - 1, by omega⟩
  have hnode : 255 % 2 ^ count / 2 ^ count = 0 := div_eq_of_lt (mod_lt _ (by positivity))
  have hpath : (siblingPath H.pair (groupOf leaves).leafOrEmpty (i + 1) (255 % 2 ^ count) count).length = count :=
    length_siblingPath ..
  obtain ⟨hclimb, hclimbPairs⟩ := @climb_mod _ H.pair 255
    (subtree H.pair (groupOf leaves).leafOrEmpty (i + 1) (255 % 2 ^ count))
    (siblingPath H.pair (groupOf leaves).leafOrEmpty (i + 1) (255 % 2 ^ count) count)
  rw [hpath] at hclimb hclimbPairs
  have hlast : (groupOf leaves).leafOrEmpty 255 = .zero := by
    have hcount : (groupOf leaves).leaves.length = leaves.length := length_mergeSort ..
    rw [leafOrEmpty, getElem?_eq_none (by omega), Option.getD_none]
  have hself := hsound (groupOf leaves) _ (new_eq hlength) (calcRoot_eq (valid_group hvalid))
    ⟨255, siblingPath H.pair (groupOf leaves).leafOrEmpty (i + 1) (255 % 2 ^ count) count⟩
    (subtree H.pair (groupOf leaves).leafOrEmpty (i + 1) (255 % 2 ^ count)) hpath ?_ ?_
  · refine h.ne_zero _ (h.tree _ ⟨i, by omega, 255 % 2 ^ count, ?_, rfl⟩) (hself.symm.trans hlast)
    have hup : ALLOWED_CODE_MERKLE_DEPTH - i - 1 = count := by omega
    rw [hup, hnode]
  · intro pair hmem
    apply h.tree
    have hpair := treePair_of_mem (hclimbPairs ▸ hmem)
    rwa [hi, hnode] at hpair
  · have hall : ∀ sibling ∈ siblingPath H.pair (groupOf leaves).leafOrEmpty (i + 1) (255 % 2 ^ count) count,
        H.isDigestValid sibling := by
      intro sibling hmem
      obtain ⟨j, n, rfl⟩ := mem_siblingPath hmem
      exact valid_subtree (valid_group hvalid) j n
    have htop := @climb_siblingPath _ H.pair (groupOf leaves).leafOrEmpty (i + 1) (255 % 2 ^ count) count
    rw [hi, hnode] at htop
    rw [verify_ok_iff, MerkleProof.root, rootFrom_of_valid (valid_subtree (valid_group hvalid) _ _) hall]
    exact congrArg Except.ok (hclimb.symm.trans htop)

/-- A group keeps its promises for proofs of a length exactly if its leaves are valid, and the
length is its depth or, being longer, leads from the leaves back to leaves. -/
theorem control_inclusion (H : HashFn Elem) (leaves : List Digest) (hlength : leaves.length < 2 ^ 8)
    (pairs : Set (Digest × Digest)) (h : Trusted H pairs leaves) (count : ℕ) :
    (Complete H leaves ∧ Sound H pairs leaves count) ↔ (∀ leaf ∈ leaves, H.isDigestValid leaf) ∧
      (count = ALLOWED_CODE_MERKLE_DEPTH ∨ ALLOWED_CODE_MERKLE_DEPTH < count ∧ ∀ index : BitVec 32,
        Resolves H pairs leaves index.toNat (count - ALLOWED_CODE_MERKLE_DEPTH) ((groupOf leaves).leafOrEmpty
          (index.toNat / 2 ^ (count - ALLOWED_CODE_MERKLE_DEPTH) % 2 ^ ALLOWED_CODE_MERKLE_DEPTH))) := by
  rw [complete_iff hlength]
  refine and_congr_right fun hvalid => ⟨fun hsound => ?_, fun hlong => ?_⟩
  · rcases Nat.lt_trichotomy count ALLOWED_CODE_MERKLE_DEPTH with hlt | heq | hgt
    · exact absurd hsound (not_sound_of_short h hvalid hlength hlt)
    · exact .inl heq
    · refine .inr ⟨hgt, fun index => ?_⟩
      obtain ⟨k, rfl⟩ : ∃ k, count = k + ALLOWED_CODE_MERKLE_DEPTH := ⟨count - ALLOWED_CODE_MERKLE_DEPTH, by omega⟩
      rw [Nat.add_sub_cancel]
      exact resolves_of_sound hvalid hlength h.tree hsound index k _ [] (Nat.zero_add k) (valid_group hvalid _)
        (fun _ hmem => absurd hmem List.not_mem_nil) (fun _ hmem => absurd hmem List.not_mem_nil) rfl
  · rcases hlong with rfl | ⟨hgt, hresolves⟩
    · have hleaf : ∀ index : BitVec 32, Resolves H pairs leaves index.toNat 0
          ((groupOf leaves).leafOrEmpty (index.toNat / 2 ^ 0 % 2 ^ ALLOWED_CODE_MERKLE_DEPTH)) := by
        intro index
        rw [pow_zero, Nat.div_one]
        exact rfl
      exact Nat.zero_add ALLOWED_CODE_MERKLE_DEPTH ▸ sound_of_resolves h hvalid hlength hleaf
    · obtain ⟨k, rfl⟩ : ∃ k, count = k + ALLOWED_CODE_MERKLE_DEPTH := ⟨count - ALLOWED_CODE_MERKLE_DEPTH, by omega⟩
      rw [Nat.add_sub_cancel] at hresolves
      exact sound_of_resolves h hvalid hlength hresolves

/-- A toy hash function, which counts the height of a node in its first word. -/
def sampleHash : HashFn Unit where
  isDigestValid _ := true
  pair a _ := a.set 0 (a[0] + 1)
  hashElemSlice _ := .zero
  valid_zero := rfl
  valid_pair _ _ := rfl
  valid_hashElemSlice _ := rfl

def sampleLeaf : Digest := Digest.zero.set 1 1

/-- Pairs whose right side is a tree over zeros of the height of the left side. -/
def samplePairs : Set (Digest × Digest) := {pair | pair.1[0].toNat < 8 ∧ pair.2 = Digest.zero.set 0 pair.1[0]}

theorem sampleGroup_eq : groupOf [sampleLeaf] = ⟨ALLOWED_CODE_MERKLE_DEPTH, [sampleLeaf]⟩ := by
  rw [groupOf, mergeSort_singleton]

theorem sampleTree_eq (height n : ℕ) : subtree sampleHash.pair (groupOf [sampleLeaf]).leafOrEmpty height n =
    (if n = 0 then sampleLeaf else .zero).set 0 (.ofNat 32 height) := by
  induction height generalizing n with
  | zero =>
    cases n with
    | zero =>
      rw [sampleGroup_eq]
      decide
    | succ n =>
      have hempty : (groupOf [sampleLeaf]).leafOrEmpty (n + 1) = .zero := by
        rw [sampleGroup_eq]
        rfl
      rw [subtree, hempty, if_neg (by omega)]
      rfl
  | succ height ih =>
    have hzero : 2 * n = 0 ↔ n = 0 := by omega
    rw [subtree, ih, if_congr hzero rfl rfl]
    show ((if n = 0 then sampleLeaf else Digest.zero).set 0 _).set 0 _ = _
    rw [Vector.set_set, Vector.getElem_set_self]
    congr 1
    rw [BitVec.ofNat_add]
    rfl

theorem sampleTrusted : Trusted sampleHash samplePairs [sampleLeaf] where
  inj := by
    rintro ⟨a, b⟩ ⟨-, hb⟩ ⟨a', b'⟩ ⟨-, hb'⟩ heq
    have hundo (v : Digest) : (sampleHash.pair v v).set 0 ((sampleHash.pair v v)[0] - 1) = v := by
      show ((v.set 0 _).set 0 _ : Digest) = v
      rw [Vector.set_set]
      simp [sampleHash]
    have ha : a = a' := by
      rw [← hundo a, ← hundo a']
      exact congrArg (fun v : Digest => v.set 0 (v[0] - 1)) heq
    subst ha
    exact Prod.ext rfl (hb.trans hb'.symm)
  ne_zero := by
    rintro ⟨a, b⟩ ⟨hlt, -⟩ hzero
    have hword : a[0] + 1 = 0 := by
      have hfirst := congrArg (fun v : Digest => v[0]) hzero
      simpa [sampleHash, Digest.zero] using hfirst
    have hnat := congrArg BitVec.toNat hword
    rw [BitVec.toNat_add] at hnat
    simp at hnat hlt
    omega
  tree := by
    rintro _ ⟨height, hheight, n, -, rfl⟩
    rw [sampleTree_eq, sampleTree_eq]
    have hright : ¬ 2 * n + 1 = 0 := by omega
    have hsmall : height < 2 ^ 32 := by
      rw [ALLOWED_CODE_MERKLE_DEPTH] at hheight
      omega
    constructor
    · simp only [Vector.getElem_set_self, BitVec.toNat_ofNat, mod_eq_of_lt hsmall]
      exact hheight
    · simp only [if_neg hright, Vector.getElem_set_self]

theorem control_inclusion_sample :
    Complete sampleHash [sampleLeaf] ∧ Sound sampleHash samplePairs [sampleLeaf] ALLOWED_CODE_MERKLE_DEPTH :=
  (control_inclusion sampleHash [sampleLeaf] (by decide) samplePairs sampleTrusted ALLOWED_CODE_MERKLE_DEPTH).mpr
    ⟨fun _ _ => rfl, .inl rfl⟩

/-- The root of a group has a proof: the empty one. -/
theorem empty_proof_of_root : Trusted sampleHash samplePairs [sampleLeaf] ∧ ∃ root,
    MerkleGroup.new [sampleLeaf] = .ok (groupOf [sampleLeaf]) ∧ (groupOf [sampleLeaf]).calcRoot sampleHash = .ok root ∧
      (⟨0, []⟩ : MerkleProof).verify sampleHash root root = .ok () ∧ root ∉ (groupOf [sampleLeaf]).leaves ∧ root ≠ .zero := by
  refine ⟨sampleTrusted, _, rfl, MerkleGroup.calcRoot_eq fun _ => rfl, ?_, ?_⟩
  · rw [verify_ok_iff]
    rfl
  · rw [sampleTree_eq, sampleGroup_eq]
    decide

end VerifiableCompute.Zkp
