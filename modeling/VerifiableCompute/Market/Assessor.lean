import VerifiableCompute.Market.Solvency

/-! The assessor guest. It checks every fill of a batch and commits to the batch by
the root of the same tree that the contract recomputes; the root binds position,
request, claim and data of every fill. -/

namespace VerifiableCompute.Market

open Lib AssessorCommitment List

/-- Digests of the guest are arrays of 32 bytes. -/
structure Digest where
  bytes : Bytes
  length_eq : bytes.length = 32

namespace Digest

def ofWord (x : Bytes32) : Digest := ⟨wordBytes x, wordBytes_length x⟩

def toWord (d : Digest) : Bytes32 := BitVec.ofNat 256 (beNat d.bytes)

instance : Inhabited Digest := ⟨ofWord 0⟩

theorem toWord_ofWord (x : Bytes32) : (ofWord x).toWord = x := by
  apply BitVec.eq_of_toNat_eq
  have hlt : x.toNat < 256 ^ 32 := x.isLt
  have hbytes : beNat (ofWord x).bytes = x.toNat := by
    rw [← Nat.mod_eq_of_lt hlt]
    exact beNat_beBytes 32 x.toNat
  rw [toWord, hbytes, BitVec.ofNat_toNat, BitVec.setWidth_eq]

end Digest

section Tree

variable (keccak256 : Bytes → Bytes32)

/-- Hash of a pair sorted by its bytes. -/
def commutativeKeccak256 (a b : Digest) : Digest :=
  if a.bytes < b.bytes then .ofWord (keccak256 (a.bytes ++ b.bytes)) else .ofWord (keccak256 (b.bytes ++ a.bytes))

/-- The guest's tree; an empty input panics. -/
def assessorProcessTree (values : List Digest) : Option Digest :=
  if values.length = 0 then none
  else if values.length = 1 then some (values.getD 0 default)
  else some ((collapseInPlace (commutativeKeccak256 keccak256) values.length values).getD 0 default)

theorem commutativeKeccak256_ofWord (a b : Bytes32) :
    commutativeKeccak256 keccak256 (.ofWord a) (.ofWord b) = .ofWord (hashPair keccak256 a b) := by
  have hlt : (Digest.ofWord a).bytes < (Digest.ofWord b).bytes ↔ a < b :=
    beBytes_lt_iff 32 _ _ a.isLt b.isLt
  unfold commutativeKeccak256 hashPair
  by_cases hab : a < b
  · rw [if_pos (hlt.mpr hab), if_pos hab]
    rfl
  · rw [if_neg (mt hlt.mp hab), if_neg hab]
    rfl

/-- The contract's loop computes the reference root. -/
theorem processTree_eq (leaves : List Bytes32) (h : leaves ≠ []) :
    ∃ root, processTree keccak256 leaves = .ok root ∧ pairRoot (hashPair keccak256) leaves = some root := by
  have hpos : 0 < leaves.length := length_pos_iff.mpr h
  unfold processTree
  rw [if_neg (by omega)]
  split_ifs with hone
  · obtain ⟨a, rfl⟩ := length_eq_one_iff.mp hone
    exact ⟨a, rfl, by rw [pairRoot, if_pos (by simp)]; rfl⟩
  · refine ⟨_, rfl, ?_⟩
    rw [collapseInPlace_head _ _ _ hpos le_rfl, take_length]

theorem assessorProcessTree_eq (leaves : List Bytes32) (h : leaves ≠ []) :
    assessorProcessTree keccak256 (leaves.map .ofWord) =
      (pairRoot (hashPair keccak256) leaves).map Digest.ofWord := by
  have hpos : 0 < (leaves.map Digest.ofWord).length := by
    rw [length_map]
    exact length_pos_iff.mpr h
  have hmap := pairRoot_map (hashPair keccak256) (commutativeKeccak256 keccak256) Digest.ofWord
    (fun a b => (commutativeKeccak256_ofWord keccak256 a b).symm) leaves
  rw [← hmap, assessorProcessTree, if_neg (by omega)]
  split_ifs with hone
  · obtain ⟨d, hd⟩ := length_eq_one_iff.mp hone
    rw [hd, pairRoot, if_pos (by simp)]
    rfl
  · rw [collapseInPlace_head _ _ _ hpos le_rfl, take_length]

end Tree

inductive FulfillmentData where
  | none
  | imageIdAndJournal (imageId : Bytes32) (journal : Bytes)
  deriving DecidableEq

/-- A struct of a word and a byte string: the offset of the struct, the word, the
offset of the string, its length, and the string padded to whole words. -/
def abiEncodeImageIdAndJournal (imageId : Bytes32) (journal : Bytes) : Bytes :=
  encodeWords [0x20, imageId, 0x40, BitVec.ofNat 256 journal.length] ++ journal ++
    List.replicate ((32 - journal.length % 32) % 32) 0

def FulfillmentData.typeAndData : FulfillmentData → FulfillmentDataType × Bytes
  | .none => (.none, [])
  | .imageIdAndJournal imageId journal => (.imageIdAndJournal, abiEncodeImageIdAndJournal imageId journal)

def FulfillmentData.digest (keccak256 : Bytes → Bytes32) (d : FulfillmentData) : Bytes32 :=
  keccak256 (d.typeAndData.1.code :: d.typeAndData.2)

structure AssessorFill where
  request : ProofRequest
  signature : Bytes
  fulfillmentData : FulfillmentData

structure AssessorInput where
  fills : List AssessorFill
  proverAddress : Address

/-- What the guest calls: the hash, the domain of its input, the checks of request
identifiers and offers, signature recovery, and the evaluation of requirements. -/
structure Guest where
  keccak256 : Bytes → Bytes32
  domainSeparator : Bytes32
  validRequest : ProofRequest → Bool
  recover : Bytes32 → Bytes → Option Address
  evaluateRequirements : ProofRequest → FulfillmentData → Option Bytes32

def unspecifiedSelector : Bytes4 := 0

namespace Guest

variable (g : Guest)

/-- The signing hash. A signature by a contract is left for the contract to check. -/
def requestDigest (fill : AssessorFill) : Option Bytes32 :=
  let hash := hashTypedDataV4 g.keccak256 g.domainSeparator (fill.request.eip712Digest g.keccak256)
  if isSmartContractSigned fill.request.id then some hash
  else if g.recover hash fill.signature = some (client fill.request.id) then some hash
  else none

/-- The commitment to the fill at one position; a failed check panics. -/
def commitment (index : ℕ) (fill : AssessorFill) : Option AssessorCommitment :=
  if g.validRequest fill.request then do
    let requestDigest ← g.requestDigest fill
    let claimDigest ← g.evaluateRequirements fill.request fill.fulfillmentData
    return ⟨BitVec.ofNat 256 index, fill.request.id, requestDigest, claimDigest,
      fill.fulfillmentData.digest g.keccak256⟩
  else none

/-- The callback entry of a fill; a callback without data panics. -/
def callback (index : ℕ) (fill : AssessorFill) : Option (List AssessorCallback) :=
  let callback := fill.request.requirements.callback
  if callback.addr = 0 then some []
  else if fill.fulfillmentData = .none then none
  else some [⟨BitVec.ofNat 16 index, callback.addr, callback.gasLimit⟩]

def selector (index : ℕ) (fill : AssessorFill) : List Selector :=
  if fill.request.requirements.selector = unspecifiedSelector then []
  else [⟨BitVec.ofNat 16 index, fill.request.requirements.selector⟩]

/-- The loop over the fills from a position on. -/
def assessFrom : ℕ → List AssessorFill → Option (List AssessorCommitment × List AssessorCallback × List Selector)
  | _, [] => some ([], [], [])
  | index, fill :: rest => do
    let commitment ← g.commitment index fill
    let callbacks ← callback index fill
    let (commitments, moreCallbacks, selectors) ← assessFrom (index + 1) rest
    return (commitment :: commitments, callbacks ++ moreCallbacks, selector index fill ++ selectors)

/-- The guest program: the journal it commits, unless it panics. -/
def main (input : AssessorInput) : Option AssessorJournal :=
  if input.fills.length ≥ 2 ^ 16 - 1 then none
  else do
    let (commitments, callbacks, selectors) ← g.assessFrom 0 input.fills
    let root ← assessorProcessTree g.keccak256
      (commitments.map fun c => .ofWord (c.eip712Digest g.keccak256))
    return ⟨callbacks, selectors, root.toWord, input.proverAddress⟩

/-- The commitments of a batch that passes the checks. -/
def commitments (input : AssessorInput) : List AssessorCommitment :=
  match g.assessFrom 0 input.fills with
  | some (commitments, _, _) => commitments
  | none => []

end Guest

def batchCommitments (keccak256 : Bytes → Bytes32) (fills : List Fulfillment) : List AssessorCommitment :=
  fills.mapIdx fun i f => f.commitment keccak256 i

section Binding

variable (keccak256 : Bytes → Bytes32)

/-- The string hashed for an inner node. -/
def nodeBytes (p : Bytes32 × Bytes32) : Bytes :=
  if p.1 < p.2 then wordBytes p.1 ++ wordBytes p.2 else wordBytes p.2 ++ wordBytes p.1

theorem hashPair_eq (a b : Bytes32) : hashPair keccak256 a b = keccak256 (nodeBytes (a, b)) := by
  unfold hashPair nodeBytes efficientHash
  split_ifs <;> rfl

theorem nodeBytes_length (p : Bytes32 × Bytes32) : (nodeBytes p).length = 64 := by
  unfold nodeBytes
  split_ifs <;> simp

/-- The node string determines the pair up to order. -/
theorem nodeBytes_inj {p q : Bytes32 × Bytes32} (h : nodeBytes p = nodeBytes q) : p = q ∨ p = q.swap := by
  obtain ⟨a, b⟩ := p
  obtain ⟨c, d⟩ := q
  have hsplit (w x y z : Bytes32) (h : wordBytes w ++ wordBytes x = wordBytes y ++ wordBytes z) : w = y ∧ x = z := by
    obtain ⟨h1, h2⟩ := append_inj h (by simp)
    exact ⟨wordBytes_injective h1, wordBytes_injective h2⟩
  unfold nodeBytes at h
  split_ifs at h <;> obtain ⟨rfl, rfl⟩ := hsplit _ _ _ _ h <;> simp

/-- The strings hashed for the inner nodes of the tree over these leaves. -/
def hashedNodes (leaves : List Bytes32) : Set Bytes :=
  {b | ∃ t, pairRoot PairTree.node (leaves.map PairTree.leaf) = some t ∧
    ∃ p ∈ t.pairs (hashPair keccak256), b = nodeBytes p}

def hashedBatch (cs : List AssessorCommitment) : Set Bytes :=
  {b | ∃ c ∈ cs, b = c.encode keccak256} ∪ hashedNodes keccak256 (cs.map (AssessorCommitment.eip712Digest keccak256))

theorem AssessorCommitment.encode_length (c : AssessorCommitment) : (c.encode keccak256).length = 192 := by
  simp [encode]

theorem AssessorCommitment.encode_injective : Function.Injective (encode keccak256) := by
  rintro ⟨a1, a2, a3, a4, a5⟩ ⟨b1, b2, b3, b4, b5⟩ h
  have hw := encodeWords_injective h
  simp only [cons.injEq, and_true, true_and] at hw
  obtain ⟨rfl, rfl, rfl, rfl, rfl⟩ := hw
  rfl

variable {keccak256} {cs ds : List AssessorCommitment}

/-- Batches with the same root have the same leaves up to order: leaf strings and
node strings differ in length, and a node string names its two parts. -/
theorem leaves_perm_of_root_eq (hinj : Set.InjOn keccak256 (hashedBatch keccak256 cs ∪ hashedBatch keccak256 ds))
    (hcs : cs ≠ []) (hds : ds ≠ []) (hroot : pairRoot (hashPair keccak256) (cs.map (eip712Digest keccak256)) =
      pairRoot (hashPair keccak256) (ds.map (eip712Digest keccak256))) :
    (cs.map (eip712Digest keccak256)).Perm (ds.map (eip712Digest keccak256)) := by
  obtain ⟨t, ht, htl, htr⟩ := exists_pairTree (hashPair keccak256)
    (cs.map (eip712Digest keccak256)) (by simpa using hcs)
  obtain ⟨u, hu, hul, hur⟩ := exists_pairTree (hashPair keccak256)
    (ds.map (eip712Digest keccak256)) (by simpa using hds)
  rw [htr, hur, Option.some.injEq] at hroot
  have hnode : ∀ p, p ∈ t.pairs (hashPair keccak256) ∨ p ∈ u.pairs (hashPair keccak256) →
      nodeBytes p ∈ hashedBatch keccak256 cs ∪ hashedBatch keccak256 ds := by
    rintro p (hp | hp)
    · exact .inl (.inr ⟨t, ht, p, hp, rfl⟩)
    · exact .inr (.inr ⟨u, hu, p, hp, rfl⟩)
  have hperm := PairTree.leaves_perm (hashPair keccak256)
    {a | ∃ c, (c ∈ cs ∨ c ∈ ds) ∧ a = c.eip712Digest keccak256}
    {p | p ∈ t.pairs (hashPair keccak256) ∨ p ∈ u.pairs (hashPair keccak256)} ?_ ?_ t u ?_ ?_
    (fun p hp => .inl hp) (fun p hp => .inr hp) hroot
  · rwa [htl, hul] at hperm
  · intro p hp q hq h
    rw [hashPair_eq, hashPair_eq] at h
    exact nodeBytes_inj (hinj (hnode p hp) (hnode q hq) h)
  · rintro a ⟨c, hc, rfl⟩ p hp h
    rw [hashPair_eq] at h
    have hleaf : c.encode keccak256 ∈ hashedBatch keccak256 cs ∪ hashedBatch keccak256 ds := by
      rcases hc with hc | hc
      · exact .inl (.inl ⟨c, hc, rfl⟩)
      · exact .inr (.inl ⟨c, hc, rfl⟩)
    have hlen := congrArg length (hinj hleaf (hnode p hp) h)
    rw [encode_length, nodeBytes_length] at hlen
    omega
  · intro a ha
    rw [htl, mem_map] at ha
    obtain ⟨c, hc, rfl⟩ := ha
    exact ⟨c, .inl hc, rfl⟩
  · intro a ha
    rw [hul, mem_map] at ha
    obtain ⟨c, hc, rfl⟩ := ha
    exact ⟨c, .inr hc, rfl⟩

/-- Every commitment carries its own position. -/
def Positioned (cs : List AssessorCommitment) : Prop :=
  ∀ i (h : i < cs.length), (cs.get ⟨i, h⟩).index = BitVec.ofNat 256 i

/-- The positions inside the leaves turn the permutation into equality. -/
theorem commitments_eq_of_root_eq (hinj : Set.InjOn keccak256 (hashedBatch keccak256 cs ∪ hashedBatch keccak256 ds))
    (hcs : cs ≠ []) (hds : ds ≠ []) (hpc : Positioned cs) (hpd : Positioned ds) (hlc : cs.length < 2 ^ 256)
    (hroot : pairRoot (hashPair keccak256) (cs.map (eip712Digest keccak256)) =
      pairRoot (hashPair keccak256) (ds.map (eip712Digest keccak256))) : cs = ds := by
  have hperm := leaves_perm_of_root_eq hinj hcs hds hroot
  have hlen : cs.length = ds.length := by simpa using hperm.length_eq
  apply ext_getElem hlen
  intro i h1 h2
  -- the leaf at `i` occurs in the other batch, at the position that it names
  have hmem : (cs.get ⟨i, h1⟩).eip712Digest keccak256 ∈ ds.map (eip712Digest keccak256) :=
    hperm.subset (mem_map_of_mem (get_mem cs ⟨i, h1⟩))
  obtain ⟨d, hd, hdigest⟩ := mem_map.mp hmem
  have heq : d = cs.get ⟨i, h1⟩ := by
    refine encode_injective keccak256 (hinj ?_ ?_ hdigest)
    · exact .inr (.inl ⟨d, hd, rfl⟩)
    · exact .inl (.inl ⟨_, get_mem cs ⟨i, h1⟩, rfl⟩)
  obtain ⟨⟨j, hj⟩, hdj⟩ := mem_iff_get.mp hd
  have hindex : BitVec.ofNat 256 j = BitVec.ofNat 256 i := by
    rw [← hpd j hj, hdj, heq, hpc i h1]
  have hij : j = i := by
    have := congrArg BitVec.toNat hindex
    rw [BitVec.toNat_ofNat, BitVec.toNat_ofNat, Nat.mod_eq_of_lt (by omega), Nat.mod_eq_of_lt (by omega)] at this
    exact this
  subst hij
  exact (hdj.trans heq).symm

theorem batchCommitments_positioned (fills : List Fulfillment) : Positioned (batchCommitments keccak256 fills) := by
  intro i h
  simp [batchCommitments, Fulfillment.commitment]

theorem batchRoot_ok {fills : List Fulfillment} {root : Bytes32} (h : batchRoot keccak256 fills = .ok root) :
    fills ≠ [] ∧ fills.length ≤ 2 ^ 16 - 1 ∧
      pairRoot (hashPair keccak256)
        ((batchCommitments keccak256 fills).map (eip712Digest keccak256)) = some root := by
  simp only [batchRoot, bind_ok_iff, require_ok_iff] at h
  obtain ⟨_, hlen, h⟩ := h
  have hne : fills ≠ [] := by
    rintro rfl
    simp [processTree] at h
  have hmap : fills.mapIdx (fun i f => (f.commitment keccak256 i).eip712Digest keccak256) =
      (batchCommitments keccak256 fills).map (eip712Digest keccak256) := by
    apply ext_getElem <;> simp [batchCommitments]
  rw [hmap] at h
  obtain ⟨r, hr, href⟩ := processTree_eq keccak256
    ((batchCommitments keccak256 fills).map (eip712Digest keccak256))
    (by simpa [batchCommitments] using hne)
  cases hr.symm.trans h
  exact ⟨hne, hlen, href⟩

end Binding

namespace Guest

variable {g : Guest}

theorem assessFrom_commitments : ∀ (fills : List AssessorFill) (n : ℕ) {cs : List AssessorCommitment}
    {callbacks : List AssessorCallback} {selectors : List Selector},
    g.assessFrom n fills = some (cs, callbacks, selectors) →
    cs.length = fills.length ∧ ∀ i (h : i < fills.length) (h' : i < cs.length),
      g.commitment (n + i) (fills.get ⟨i, h⟩) = some (cs.get ⟨i, h'⟩)
  | [], n, cs, _, _, h => by
    cases h
    exact ⟨rfl, fun i h => absurd h (Nat.not_lt_zero i)⟩
  | fill :: rest, n, cs, _, _, h => by
    simp only [assessFrom, Option.bind_eq_bind, Option.bind_eq_some_iff, Prod.exists] at h
    obtain ⟨c, hc, cb, hcb, cs', cbs', sels', hrest, h⟩ := h
    cases h
    obtain ⟨hlen, hat⟩ := assessFrom_commitments rest (n + 1) hrest
    refine ⟨by rw [length_cons, length_cons, hlen], ?_⟩
    rintro (_ | i) h h'
    · exact hc
    · have := hat i (by simpa using h) (by simpa using h')
      rw [show n + (i + 1) = n + 1 + i by ring]
      exact this

theorem commitment_some {n : ℕ} {fill : AssessorFill} {c : AssessorCommitment} (h : g.commitment n fill = some c) :
    c.index = BitVec.ofNat 256 n ∧ c.id = fill.request.id ∧ g.requestDigest fill = some c.requestDigest ∧
      g.evaluateRequirements fill.request fill.fulfillmentData = some c.claimDigest ∧
      c.fulfillmentDataDigest = fill.fulfillmentData.digest g.keccak256 := by
  unfold commitment at h
  split_ifs at h
  simp only [Option.bind_eq_bind, Option.bind_eq_some_iff] at h
  obtain ⟨requestDigest, hr, claimDigest, hc, h⟩ := h
  cases h
  exact ⟨rfl, rfl, hr, hc, rfl⟩

theorem main_some {input : AssessorInput} {journal : AssessorJournal} (h : g.main input = some journal) :
    (g.commitments input).length = input.fills.length ∧ input.fills ≠ [] ∧
      (∀ i (h : i < input.fills.length) (h' : i < (g.commitments input).length),
        g.commitment i (input.fills.get ⟨i, h⟩) = some ((g.commitments input).get ⟨i, h'⟩)) ∧
      pairRoot (hashPair g.keccak256)
        ((g.commitments input).map (eip712Digest g.keccak256)) = some journal.root := by
  unfold main at h
  split_ifs at h with hlimit
  simp only [Option.bind_eq_bind, Option.bind_eq_some_iff, Prod.exists] at h
  obtain ⟨cs, callbacks, selectors, hfrom, root, hroot, h⟩ := h
  cases h
  have hcs : g.commitments input = cs := by simp [commitments, hfrom]
  obtain ⟨hlen, hat⟩ := assessFrom_commitments input.fills 0 hfrom
  have hne : cs ≠ [] := by
    rintro rfl
    simp [assessorProcessTree] at hroot
  have hmap : cs.map (fun c => Digest.ofWord (c.eip712Digest g.keccak256)) =
      (cs.map (eip712Digest g.keccak256)).map Digest.ofWord := by
    rw [map_map]
    rfl
  rw [hmap, assessorProcessTree_eq _ _ (by simpa using hne), Option.map_eq_some_iff] at hroot
  obtain ⟨r, hr, rfl⟩ := hroot
  rw [hcs]
  refine ⟨hlen, ?_, fun i h h' => by simpa using hat i h h', by rw [hr, Digest.toWord_ofWord]⟩
  intro h0
  rw [h0] at hlen
  exact hne (eq_nil_of_length_eq_zero hlen)

end Guest

theorem delivered_commitment {g : Guest} {fills : List Fulfillment} {input : AssessorInput} {root : Bytes32}
    {journal : AssessorJournal} (hchain : batchRoot g.keccak256 fills = .ok root)
    (hguest : g.main input = some journal) (hroot : root = journal.root)
    (hinj : Set.InjOn g.keccak256 (hashedBatch g.keccak256 (batchCommitments g.keccak256 fills) ∪
      hashedBatch g.keccak256 (g.commitments input))) :
    fills.length = input.fills.length ∧
    ∀ (i : ℕ) (fill : Fulfillment) (assessed : AssessorFill), fills[i]? = some fill → input.fills[i]? = some assessed →
      g.commitment i assessed = some (fill.commitment g.keccak256 i) := by
  obtain ⟨hne, hlimit, hchainRoot⟩ := batchRoot_ok hchain
  obtain ⟨hlen, hne', hat, hguestRoot⟩ := Guest.main_some hguest
  have hpositioned : Positioned (g.commitments input) := by
    intro i h
    exact (Guest.commitment_some (hat i (by rwa [← hlen]) h)).1
  have hclen : (batchCommitments g.keccak256 fills).length = fills.length := by simp [batchCommitments]
  have heq : batchCommitments g.keccak256 fills = g.commitments input := by
    refine commitments_eq_of_root_eq hinj ?_ ?_ (batchCommitments_positioned fills) hpositioned (by omega) ?_
    · intro h0
      rw [h0] at hclen
      exact hne (List.eq_nil_of_length_eq_zero hclen.symm)
    · intro h0
      rw [h0] at hlen
      exact hne' (List.eq_nil_of_length_eq_zero hlen.symm)
    · rw [hchainRoot, hguestRoot, hroot]
  rw [heq] at hclen
  refine ⟨hclen.symm.trans hlen, fun i fill assessed hfill hassessed => ?_⟩
  obtain ⟨hi, rfl⟩ := List.getElem?_eq_some_iff.mp hassessed
  obtain ⟨hi', rfl⟩ := List.getElem?_eq_some_iff.mp hfill
  have hsame : (g.commitments input).get ⟨i, by omega⟩ = (fills[i]).commitment g.keccak256 i := by
    simp only [← heq, batchCommitments, List.get_eq_getElem, List.getElem_mapIdx]
  rw [← hsame]
  exact hat i hi (by omega)

/-- Both loops compute the reference root of every non-empty list; and when the
contract and the guest arrive at the same root they agree fill by fill. -/
theorem assessor_root_binding (g : Guest) : (∀ leaves, leaves ≠ [] → ∃ r, processTree g.keccak256 leaves = .ok r ∧
      assessorProcessTree g.keccak256 (leaves.map .ofWord) = some (.ofWord r) ∧
      pairRoot (hashPair g.keccak256) leaves = some r) ∧
    ∀ (fills : List Fulfillment) (input : AssessorInput) (root : Bytes32) (journal : AssessorJournal),
      batchRoot g.keccak256 fills = .ok root → g.main input = some journal → root = journal.root →
      Set.InjOn g.keccak256 (hashedBatch g.keccak256 (batchCommitments g.keccak256 fills) ∪
        hashedBatch g.keccak256 (g.commitments input)) →
      fills.length = input.fills.length ∧
      ∀ (i : ℕ) (fill : Fulfillment) (assessed : AssessorFill), fills[i]? = some fill → input.fills[i]? = some assessed →
        fill.id = assessed.request.id ∧ g.requestDigest assessed = some fill.requestDigest ∧
        g.evaluateRequirements assessed.request assessed.fulfillmentData = some fill.claimDigest ∧
        fill.fulfillmentDataDigest g.keccak256 = assessed.fulfillmentData.digest g.keccak256 := by
  refine ⟨fun leaves hne => ?_, fun fills input root journal hchain hguest hroot hinj => ?_⟩
  · obtain ⟨r, hr, href⟩ := processTree_eq g.keccak256 leaves hne
    exact ⟨r, hr, by rw [assessorProcessTree_eq _ _ hne, href]; rfl, href⟩
  obtain ⟨hlength, hcommitment⟩ := delivered_commitment hchain hguest hroot hinj
  refine ⟨hlength, fun i fill assessed hfill hassessed => ?_⟩
  obtain ⟨-, hid, hdigest, hclaim, hdata⟩ := Guest.commitment_some (hcommitment i fill assessed hfill hassessed)
  exact ⟨hid, hdigest, hclaim, hdata⟩

/-- A hash that tells strings apart by their length and their 64th byte. -/
def sampleHash (bytes : Bytes) : Bytes32 := BitVec.ofNat 256 (bytes.length + 2 ^ 16 * (bytes.getD 63 0).toNat)

/-- A guest for which account 1 signed everything and every journal meets its requirements. -/
def sampleGuest : Guest where
  keccak256 := sampleHash
  domainSeparator := 0
  validRequest := fun _ => true
  recover := fun _ _ => some 1
  evaluateRequirements := fun _ _ => some 5

/-- Client 1, index 8. -/
def sampleNext : RequestId := 0x100000008

def sampleAssessed (id : RequestId) : AssessorFill := ⟨sampleRequest id, [], .none⟩

def sampleProven (id : RequestId) : Fulfillment :=
  ⟨id, hashTypedDataV4 sampleHash 0 ((sampleRequest id).eip712Digest sampleHash), 5, .none, [], []⟩

def sampleFills : List Fulfillment := [sampleProven sampleId, sampleProven sampleNext]

def sampleInput : AssessorInput := ⟨[sampleAssessed sampleId, sampleAssessed sampleNext], 2⟩

theorem pairRoot_pair {α : Type} (f : α → α → α) (a b : α) : pairRoot f [a, b] = some (f a b) := by
  rw [pairRoot, if_neg (by simp), pairLevel, pairLevel, pairRoot, if_pos (by simp)]
  rfl

/-- A batch of two hashes its leaves and one node. -/
theorem mem_hashedBatch_pair {keccak256 : Bytes → Bytes32} {c d : AssessorCommitment} {b : Bytes}
    (hb : b ∈ hashedBatch keccak256 [c, d]) : b ∈ [c.encode keccak256, d.encode keccak256,
      nodeBytes (c.eip712Digest keccak256, d.eip712Digest keccak256)] := by
  obtain ⟨x, hx, rfl⟩ | ⟨t, ht, p, hp, rfl⟩ := hb
  · obtain rfl | hx := mem_cons.mp hx
    · exact mem_cons_self
    · rw [mem_singleton.mp hx]
      simp
  · rw [map_cons, map_singleton, map_cons, map_singleton, pairRoot_pair, Option.some.injEq] at ht
    subst ht
    rw [PairTree.pairs, PairTree.pairs, PairTree.pairs, append_nil, mem_singleton] at hp
    rw [hp]
    simp [PairTree.fold]

/-- The contract and the guest commit to the same two fills. -/
theorem assessor_root_binding_sample :
    sampleFills.length = sampleInput.fills.length ∧ (sampleProven sampleNext).id = (sampleAssessed sampleNext).request.id ∧
      sampleGuest.requestDigest (sampleAssessed sampleNext) = some (sampleProven sampleNext).requestDigest := by
  have hchain : batchRoot sampleHash sampleFills = .ok 12582976 := by
    with_unfolding_all (set_option maxRecDepth 100000 in decide)
  have hguest : sampleGuest.main sampleInput = some ⟨[], [], 12582976, 2⟩ := by
    with_unfolding_all (set_option maxRecDepth 100000 in decide)
  have hsame : sampleGuest.commitments sampleInput = batchCommitments sampleHash sampleFills := rfl
  have hpair : batchCommitments sampleHash sampleFills =
      [(sampleProven sampleId).commitment sampleHash 0, (sampleProven sampleNext).commitment sampleHash 1] := rfl
  -- two leaf strings and a node string, with three different hashes
  have hinj : Set.InjOn sampleHash (hashedBatch sampleHash (batchCommitments sampleHash sampleFills) ∪
      hashedBatch sampleHash (sampleGuest.commitments sampleInput)) := by
    rw [hsame, Set.union_self, hpair]
    intro a ha b hb
    refine inj_on_of_nodup_map ?_ (mem_hashedBatch_pair ha) (mem_hashedBatch_pair hb)
    with_unfolding_all (set_option maxRecDepth 100000 in decide)
  obtain ⟨-, hbinding⟩ := assessor_root_binding sampleGuest
  obtain ⟨hlength, hfills⟩ := hbinding sampleFills sampleInput _ _ hchain hguest rfl hinj
  obtain ⟨hid, hdigest, -, -⟩ := hfills 1 (sampleProven sampleNext) (sampleAssessed sampleNext) rfl rfl
  exact ⟨hlength, hid, hdigest⟩

end VerifiableCompute.Market
