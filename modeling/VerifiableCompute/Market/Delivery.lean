import VerifiableCompute.Lib.PairTree
import VerifiableCompute.Market.State

/-! Verification of a delivered batch: the leaves and the root that the contract
recomputes from the fills, the seals it checks, and the receipt of the assessor. -/

namespace VerifiableCompute.Market

open Lib

structure AssessorCallback where
  index : U16
  addr : Address
  gasLimit : U96
  deriving DecidableEq

structure Selector where
  index : U16
  value : Bytes4
  deriving DecidableEq

structure AssessorReceipt where
  sealData : Bytes
  callbacks : List AssessorCallback
  selectors : List Selector
  prover : Address

structure AssessorJournal where
  callbacks : List AssessorCallback
  selectors : List Selector
  root : Bytes32
  prover : Address
  deriving DecidableEq

/-- Answers of the contracts that a call of the market consults. The market only
reads them, and they may answer differently at every call. -/
structure External where
  /-- ERC-1271: whether the contract accepts the signature of the digest. -/
  isValidSignature : Address → Bytes32 → Bytes → Bool
  /-- The signer of a digest; none when the signature is malformed. -/
  recover : Bytes32 → Bytes → Option Address
  /-- Whether a seal verifies for an image and the digest of a journal. -/
  verify : Bytes → Bytes32 → AssessorJournal → Bool
  /-- Whether a seal verifies for a claim, with or without the default gas bound. -/
  verifyIntegrity : Bool → Bytes → Bytes32 → Bool

def efficientHash (keccak256 : Bytes → Bytes32) (a b : Bytes32) : Bytes32 :=
  keccak256 (wordBytes a ++ wordBytes b)

def hashPair (keccak256 : Bytes → Bytes32) (a b : Bytes32) : Bytes32 :=
  if a < b then efficientHash keccak256 a b else efficientHash keccak256 b a

def processTree (keccak256 : Bytes → Bytes32) (leaves : List Bytes32) : Except Revert Bytes32 :=
  if leaves.length = 0 then .error .invalidRequest
  else if leaves.length = 1 then .ok (leaves.getD 0 default)
  else .ok ((collapseInPlace (hashPair keccak256) leaves.length leaves).getD 0 default)

structure AssessorCommitment where
  index : U256
  id : RequestId
  requestDigest : Bytes32
  claimDigest : Bytes32
  fulfillmentDataDigest : Bytes32
  deriving DecidableEq

def assessorCommitmentType : String :=
  "AssessorCommitment(uint256 index,uint256 id,bytes32 requestDigest,bytes32 claimDigest," ++
    "bytes32 fulfillmentDataDigest)"

section

variable (keccak256 : Bytes → Bytes32)

def AssessorCommitment.encode (c : AssessorCommitment) : Bytes :=
  encodeWords [keccak256 (asciiBytes assessorCommitmentType), c.index, c.id, c.requestDigest,
    c.claimDigest, c.fulfillmentDataDigest]

def AssessorCommitment.eip712Digest (c : AssessorCommitment) : Bytes32 :=
  keccak256 (c.encode keccak256)

def FulfillmentDataType.code : FulfillmentDataType → U8
  | .none => 0
  | .imageIdAndJournal => 1

def Fulfillment.fulfillmentDataDigest (f : Fulfillment) : Bytes32 :=
  keccak256 (f.fulfillmentDataType.code :: f.fulfillmentData)

/-- The commitment of the fill at one position of the batch. -/
def Fulfillment.commitment (i : ℕ) (f : Fulfillment) : AssessorCommitment :=
  ⟨BitVec.ofNat 256 i, f.id, f.requestDigest, f.claimDigest, f.fulfillmentDataDigest keccak256⟩

/-- The first four bytes of a seal; slicing past the end reverts. -/
def sealSelector (f : Fulfillment) : Except Revert Bytes4 :=
  match f.sealData with
  | b0 :: b1 :: b2 :: b3 :: _ => .ok (b0 ++ b1 ++ b2 ++ b3)
  | _ => .error .indexOutOfBounds

/-- Every selector names a fill of the batch whose seal starts with it. -/
def checkSelectors (fills : List Fulfillment) : List Selector → Except Revert Unit
  | [] => .ok ()
  | selector :: rest => do
    match fills[selector.index.toNat]? with
    | none => .error .indexOutOfBounds
    | some fill => do
      let received ← sealSelector fill
      require (selector.value = received) (.selectorMismatch selector.value received)
      checkSelectors fills rest

/-- Seals of fills without a selector are verified within the default gas bound. -/
def verifySeals (x : External) (selectors : List Selector) : ℕ → List Fulfillment → Except Revert Unit
  | _, [] => .ok ()
  | i, fill :: rest => do
    let hasSelector := selectors.any fun s => s.index.toNat = i
    require (x.verifyIntegrity (!hasSelector) fill.sealData fill.claimDigest) .verificationFailed
    verifySeals x selectors (i + 1) rest

/-- The root of the commitments of a batch of at most 65535 fills. -/
def batchRoot (fills : List Fulfillment) : Except Revert Bytes32 := do
  require (fills.length ≤ 2 ^ 16 - 1) (.batchSizeExceedsLimit fills.length (2 ^ 16 - 1))
  processTree keccak256 (fills.mapIdx fun i f => (f.commitment keccak256 i).eip712Digest keccak256)

end

def verifyDelivery (cfg : Config) (x : External) (fills : List Fulfillment) (receipt : AssessorReceipt)
    (s : State) : Except Revert Unit := do
  require (fills.length ≤ 2 ^ 16 - 1) (.batchSizeExceedsLimit fills.length (2 ^ 16 - 1))
  checkSelectors fills receipt.selectors
  verifySeals x receipt.selectors 0 fills
  let root ← batchRoot cfg.keccak256 fills
  let journal : AssessorJournal := ⟨receipt.callbacks, receipt.selectors, root, receipt.prover⟩
  if x.verify receipt.sealData cfg.assessorId journal then .ok ()
  else do
    require (s.timestamp ≤ cfg.deprecatedAssessorExpiresAt.setWidth 256) .verificationFailed
    require (x.verify receipt.sealData cfg.deprecatedAssessorId journal) .verificationFailed

end VerifiableCompute.Market
