import VerifiableCompute.Claim.Types
import VerifiableCompute.Market.Assessor

/-! The requirements of a request, as the assessor evaluates them on the data of a fill. What comes out is
the digest of the claim that has to be proven. -/

namespace VerifiableCompute.Market

open Lib Claim List Option

def toDigest (x : Bytes32) : Binfmt.Digest := ⟨(wordBytes x).toArray, by simp⟩

def ofDigest (d : Binfmt.Digest) : Bytes32 := BitVec.ofNat 256 (beNat d.toList)

/-- Only 32 bytes are a digest. -/
def digestOfBytes (bytes : Bytes) : Option Binfmt.Digest :=
  if h : bytes.length = 32 then some ⟨bytes.toArray, by simpa using h⟩ else none

theorem digestOfBytes_some {bytes : Bytes} {d : Binfmt.Digest} (h : digestOfBytes bytes = some d) : bytes.length = 32 ∧ d.toList = bytes := by
  unfold digestOfBytes at h
  split_ifs at h with hlen
  cases h
  exact ⟨hlen, rfl⟩

/-- The digest of the claim that an execution of the image ended normally with the journal. -/
def okClaimDigest (S : Binfmt.Sha256) (imageId : Bytes32) (journal : Bytes) : Bytes32 :=
  ofDigest (digest S (ReceiptClaim.ok (toDigest imageId) (.value journal)))

namespace Guest

/-- A predicate with its data read. -/
inductive Predicate where
  | digestMatch (imageId journalDigest : Binfmt.Digest)
  | prefixMatch (imageId : Binfmt.Digest) (journalPrefix : Bytes)
  | claimDigestMatch (claimDigest : Binfmt.Digest)

namespace Predicate

/-- The image is the first 32 bytes of the data, unless all of it is a claim. -/
def tryFrom (value : Market.Predicate) : Option Predicate :=
  match value.predicateType with
  | .digestMatch =>
    if 32 ≤ value.data.length then do
      let imageId ← digestOfBytes (value.data.take 32)
      let journalDigest ← digestOfBytes (value.data.drop 32)
      return .digestMatch imageId journalDigest
    else none
  | .prefixMatch =>
    if 32 ≤ value.data.length then do
      let imageId ← digestOfBytes (value.data.take 32)
      return .prefixMatch imageId (value.data.drop 32)
    else none
  | .claimDigestMatch => do
    let claimDigest ← digestOfBytes value.data
    return .claimDigestMatch claimDigest

/-- The claim that the predicate asks for. A journal that has to match is required to be delivered. -/
def claimDigest (S : Binfmt.Sha256) (fulfillmentData : FulfillmentData) : Predicate → Option (Option Binfmt.Digest)
  | .digestMatch imageId journal =>
    match fulfillmentData with
    | .imageIdAndJournal _ _ => some (some (digest S (ReceiptClaim.ok imageId (.pruned journal))))
    | .none => none
  | .prefixMatch imageId journalPrefix =>
    match fulfillmentData with
    | .imageIdAndJournal fillImageId fillJournal =>
      if toDigest fillImageId = imageId ∧ journalPrefix <+: fillJournal then some none else none
    | .none => none
  | .claimDigestMatch claimDigest => some (some claimDigest)

def claimDigestData (S : Binfmt.Sha256) : FulfillmentData → Option Binfmt.Digest
  | .none => none
  | .imageIdAndJournal imageId journal => some (digest S (ReceiptClaim.ok (toDigest imageId) (.value journal)))

/-- Where both name a claim it has to be the same. -/
def eval (S : Binfmt.Sha256) (p : Predicate) (fulfillmentData : FulfillmentData) : Option Binfmt.Digest := do
  let claimDigestPredicate ← p.claimDigest S fulfillmentData
  match claimDigestPredicate, claimDigestData S fulfillmentData with
  | some predicate, some data => if predicate = data then some data else none
  | claimDigestPredicate, claimDigestData => claimDigestData.or claimDigestPredicate

variable {S : Binfmt.Sha256} {p : Predicate} {d : Binfmt.Digest}

theorem eval_imageIdAndJournal {imageId : Bytes32} {journal : Bytes} (h : p.eval S (.imageIdAndJournal imageId journal) = some d) :
    d = digest S (ReceiptClaim.ok (toDigest imageId) (.value journal)) := by
  obtain ⟨claim, -, h⟩ := bind_eq_some_iff.mp h
  cases claim with
  | none => exact (Option.some.inj h).symm
  | some predicate =>
    simp only [claimDigestData] at h
    split_ifs at h
    exact (Option.some.inj h).symm

theorem eval_none (h : p.eval S .none = some d) : p = .claimDigestMatch d := by
  obtain ⟨claim, hclaim, h⟩ := bind_eq_some_iff.mp h
  cases p with
  | digestMatch => cases hclaim
  | prefixMatch => cases hclaim
  | claimDigestMatch claimDigest =>
    cases hclaim
    exact congrArg claimDigestMatch (Option.some.inj h)

theorem tryFrom_claimDigestMatch {value : Market.Predicate} (h : tryFrom value = some (.claimDigestMatch d)) :
    value.predicateType = .claimDigestMatch ∧ value.data.length = 32 ∧ d.toList = value.data := by
  unfold tryFrom at h
  split at h
  next =>
    split_ifs at h
    obtain ⟨_, -, h⟩ := bind_eq_some_iff.mp h
    obtain ⟨_, -, h⟩ := bind_eq_some_iff.mp h
    cases Option.some.inj h
  next =>
    split_ifs at h
    obtain ⟨_, -, h⟩ := bind_eq_some_iff.mp h
    cases Option.some.inj h
  next htype =>
    obtain ⟨d', hd, h⟩ := bind_eq_some_iff.mp h
    cases Option.some.inj h
    exact ⟨htype, digestOfBytes_some hd⟩

end Predicate

end Guest

/-- Malformed data of a predicate meets nothing. -/
def evaluateRequirements (S : Binfmt.Sha256) (request : ProofRequest) (fulfillmentData : FulfillmentData) : Option Bytes32 := do
  let predicate ← Guest.Predicate.tryFrom request.requirements.predicate
  let claimDigest ← predicate.eval S fulfillmentData
  return ofDigest claimDigest

variable {S : Binfmt.Sha256} {request : ProofRequest} {claim : Bytes32}

theorem evaluateRequirements_imageIdAndJournal {imageId : Bytes32} {journal : Bytes}
    (h : evaluateRequirements S request (.imageIdAndJournal imageId journal) = some claim) : claim = okClaimDigest S imageId journal := by
  obtain ⟨p, -, h⟩ := bind_eq_some_iff.mp h
  obtain ⟨d, hd, h⟩ := bind_eq_some_iff.mp h
  rw [← Option.some.inj h, Guest.Predicate.eval_imageIdAndJournal hd]
  rfl

theorem evaluateRequirements_none (h : evaluateRequirements S request .none = some claim) :
    request.requirements.predicate.data.length = 32 ∧ claim = BitVec.ofNat 256 (beNat request.requirements.predicate.data) := by
  obtain ⟨p, hp, h⟩ := bind_eq_some_iff.mp h
  obtain ⟨d, hd, h⟩ := bind_eq_some_iff.mp h
  obtain rfl := Guest.Predicate.eval_none hd
  obtain ⟨-, hlen, hdata⟩ := Guest.Predicate.tryFrom_claimDigestMatch hp
  exact ⟨hlen, by rw [← Option.some.inj h, ofDigest, hdata]⟩

namespace Guest

variable {g : Guest} {input : AssessorInput} {journal : AssessorJournal}

theorem requestDigest_some {fill : AssessorFill} {digest : Bytes32} (h : g.requestDigest fill = some digest) :
    digest = hashTypedDataV4 g.keccak256 g.domainSeparator (fill.request.eip712Digest g.keccak256) := by
  unfold requestDigest at h
  dsimp only at h
  split_ifs at h
  · exact (Option.some.inj h).symm
  · exact (Option.some.inj h).symm

def callbackEntry (index : ℕ) (fill : AssessorFill) : List AssessorCallback :=
  let callback := fill.request.requirements.callback
  if callback.addr = 0 then [] else [⟨BitVec.ofNat 16 index, callback.addr, callback.gasLimit⟩]

theorem callback_some {n : ℕ} {fill : AssessorFill} {l : List AssessorCallback} (h : callback n fill = some l) :
    l = callbackEntry n fill ∧ (fill.request.requirements.callback.addr ≠ 0 → fill.fulfillmentData ≠ .none) := by
  unfold callback at h
  unfold callbackEntry
  dsimp only at h ⊢
  split_ifs at h ⊢ with haddr hdata
  · exact ⟨(Option.some.inj h).symm, fun hne => absurd haddr hne⟩
  · exact ⟨(Option.some.inj h).symm, fun _ => hdata⟩

theorem assessFrom_names : ∀ (fills : List AssessorFill) (n : ℕ) {cs : List AssessorCommitment} {callbacks : List AssessorCallback}
    {selectors : List Selector}, g.assessFrom n fills = some (cs, callbacks, selectors) →
    callbacks = (fills.mapIdx fun i fill => callbackEntry (n + i) fill).flatten ∧
      selectors = (fills.mapIdx fun i fill => selector (n + i) fill).flatten ∧
        ∀ fill ∈ fills, fill.request.requirements.callback.addr ≠ 0 → fill.fulfillmentData ≠ .none
  | [], n, _, _, _, h => by
    cases h
    exact ⟨rfl, rfl, fun _ hmem => absurd hmem not_mem_nil⟩
  | fill :: rest, n, _, _, _, h => by
    simp only [assessFrom, bind_eq_bind, bind_eq_some_iff, Prod.exists] at h
    obtain ⟨c, hc, l, hl, cs', callbacks', selectors', hrest, h⟩ := h
    cases h
    obtain ⟨hcallbacks, hselectors, hdata⟩ := assessFrom_names rest (n + 1) hrest
    obtain ⟨hentry, hfill⟩ := callback_some hl
    have hshift (i : ℕ) : n + 1 + i = n + (i + 1) := by ring
    refine ⟨?_, ?_, fun x hx => ?_⟩
    · rw [hcallbacks, hentry, mapIdx_cons, flatten_cons]
      simp only [hshift, Nat.add_zero]
    · rw [hselectors, mapIdx_cons, flatten_cons]
      simp only [hshift, Nat.add_zero]
    · obtain rfl | hx := mem_cons.mp hx
      · exact hfill
      · exact hdata x hx

variable (h : g.main input = some journal)

include h

theorem main_names : input.fills.length < 2 ^ 16 - 1 ∧ journal.callbacks = (input.fills.mapIdx callbackEntry).flatten ∧
      journal.selectors = (input.fills.mapIdx selector).flatten ∧
        ∀ fill ∈ input.fills, fill.request.requirements.callback.addr ≠ 0 → fill.fulfillmentData ≠ .none := by
  unfold main at h
  split_ifs at h with hlimit
  simp only [bind_eq_bind, bind_eq_some_iff, Prod.exists] at h
  obtain ⟨cs, callbacks, selectors, hfrom, root, hroot, h⟩ := h
  cases h
  obtain ⟨hcallbacks, hselectors, hdata⟩ := assessFrom_names input.fills 0 hfrom
  simp only [Nat.zero_add] at hcallbacks hselectors
  exact ⟨Nat.lt_of_not_le hlimit, hcallbacks, hselectors, hdata⟩

theorem main_callback {callback : AssessorCallback} (hmem : callback ∈ journal.callbacks) :
    ∃ fill, input.fills[callback.index.toNat]? = some fill ∧ callback.addr = fill.request.requirements.callback.addr ∧
      callback.gasLimit = fill.request.requirements.callback.gasLimit ∧ callback.addr ≠ 0 := by
  obtain ⟨hlimit, hcallbacks, -, -⟩ := main_names h
  rw [hcallbacks, mem_flatten] at hmem
  obtain ⟨l, hl, hmem⟩ := hmem
  obtain ⟨i, hi, rfl⟩ := mem_mapIdx.mp hl
  unfold callbackEntry at hmem
  dsimp only at hmem
  split_ifs at hmem with haddr
  · cases hmem
  · obtain rfl := mem_singleton.mp hmem
    have hindex : (BitVec.ofNat 16 i).toNat = i := by
      rw [BitVec.toNat_ofNat, Nat.mod_eq_of_lt (by omega)]
    exact ⟨input.fills[i], by rw [hindex, List.getElem?_eq_getElem hi], rfl, rfl, haddr⟩

theorem main_selector {sel : Selector} (hmem : sel ∈ journal.selectors) :
    ∃ fill, input.fills[sel.index.toNat]? = some fill ∧ sel.value = fill.request.requirements.selector := by
  obtain ⟨hlimit, -, hselectors, -⟩ := main_names h
  rw [hselectors, mem_flatten] at hmem
  obtain ⟨l, hl, hmem⟩ := hmem
  obtain ⟨i, hi, rfl⟩ := mem_mapIdx.mp hl
  unfold selector at hmem
  split_ifs at hmem with hspecified
  · cases hmem
  · obtain rfl := mem_singleton.mp hmem
    have hindex : (BitVec.ofNat 16 i).toNat = i := by
      rw [BitVec.toNat_ofNat, Nat.mod_eq_of_lt (by omega)]
    exact ⟨input.fills[i], by rw [hindex, List.getElem?_eq_getElem hi], rfl⟩

end Guest

/-- The assessor, with the checks of identifiers and offers and the recovery of signers given. -/
def assessorGuest (S : Binfmt.Sha256) (keccak256 : Bytes → Bytes32) (domainSeparator : Bytes32) (validRequest : ProofRequest → Bool)
    (recover : Bytes32 → Bytes → Option Address) : Guest where
  keccak256
  domainSeparator
  validRequest
  recover
  evaluateRequirements := evaluateRequirements S

end VerifiableCompute.Market
