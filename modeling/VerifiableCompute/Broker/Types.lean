import VerifiableCompute.Lib.OrderedMap
import VerifiableCompute.Market.Assessor

/-! Orders and batches as a broker keeps them in its database. -/

namespace VerifiableCompute.Broker

open Lib

/-- Orders, proofs and batches are known by numbers. -/
abbrev OrderId := ℕ
abbrev ProofId := ℕ
abbrev BatchId := ℕ

abbrev Digest := BitVec 256

inductive OrderStatus
  | pendingProving
  | proving
  | pendingAgg
  | aggregating
  | skipAggregation
  | pendingSubmission
  | done
  | failed
  | skipped
  deriving DecidableEq

inductive CompressionType
  | none
  | groth16
  | blake3Groth16
  deriving DecidableEq

/-- The selectors of the verifiers that are known by name. -/
inductive SelectorExt
  | fakeReceipt
  | fakeBlake3Groth16
  | groth16V3_0
  | setVerifierV0_9
  | blake3Groth16V0_1
  deriving DecidableEq

def SelectorExt.fromBytes (selector : Market.Bytes4) : Option SelectorExt :=
  if selector = 0xFFFFFFFF then some .fakeReceipt
  else if selector = 0xFFFF0000 then some .fakeBlake3Groth16
  else if selector = 0x73c457ba then some .groth16V3_0
  else if selector = 0x242f9d5b then some .setVerifierV0_9
  else if selector = 0x62f049f6 then some .blake3Groth16V0_1
  else none

def isGroth16Selector (selector : Market.Bytes4) : Bool :=
  SelectorExt.fromBytes selector = some .fakeReceipt ∨ SelectorExt.fromBytes selector = some .groth16V3_0

def isBlake3Groth16Selector (selector : Market.Bytes4) : Bool :=
  SelectorExt.fromBytes selector = some .fakeBlake3Groth16 ∨ SelectorExt.fromBytes selector = some .blake3Groth16V0_1

inductive FulfillmentType
  | lockAndFulfill
  | fulfillAfterLockExpire
  | fulfillWithoutLocking
  deriving DecidableEq

structure OrderRequest where
  request : Market.ProofRequest
  clientSig : Market.Bytes
  fulfillmentType : FulfillmentType
  /-- In hexadecimal digits. -/
  imageId : Option (List Char)
  expireTimestamp : Option (BitVec 64)

structure Order where
  status : OrderStatus
  request : Market.ProofRequest
  clientSig : Market.Bytes
  fulfillmentType : FulfillmentType
  imageId : Option (List Char)
  proofId : Option ProofId
  compressedProofId : Option ProofId
  expireTimestamp : Option (BitVec 64)
  lockPrice : Option (BitVec 256)
  errorMsg : Option String

namespace OrderRequest

variable (r : OrderRequest)

def toOrder (status : OrderStatus) : Order :=
  ⟨status, r.request, r.clientSig, r.fulfillmentType, r.imageId, none, none, r.expireTimestamp, none, none⟩

def toSkippedOrder : Order := r.toOrder .skipped

def toProvingOrder (lockPrice : BitVec 256) : Order := { r.toOrder .pendingProving with lockPrice := some lockPrice }

end OrderRequest

def Order.compressionType (order : Order) : CompressionType :=
  if isGroth16Selector order.request.requirements.selector then .groth16
  else if isBlake3Groth16Selector order.request.requirements.selector then .blake3Groth16
  else .none

structure AggregationOrder where
  orderId : OrderId
  proofId : ProofId
  expiration : BitVec 64
  fee : BitVec 256

structure SubmissionOrder where
  request : Market.ProofRequest
  clientSig : Market.Bytes
  proofId : ProofId
  imageId : List Char
  lockPrice : BitVec 256
  fulfillmentType : FulfillmentType

inductive BatchStatus
  | aggregating
  | pendingCompression
  | complete
  | pendingSubmission
  | submitted
  | failed
  deriving DecidableEq

structure AggregationState where
  /-- The set builder has not seen a claim. -/
  isInitial : Bool
  proofId : ProofId
  /-- The claims that the set builder has seen, in order. -/
  claimDigests : List Digest
  groth16ProofId : Option ProofId
  deriving DecidableEq

structure Batch where
  status : BatchStatus
  orders : List OrderId
  assessorProofId : Option ProofId
  aggregationState : Option AggregationState
  /-- A number as the database keeps it. -/
  deadline : Option ℤ
  fees : BitVec 256
  errorMsg : Option String
  deriving DecidableEq

def Batch.default : Batch := ⟨.aggregating, [], none, none, none, 0, none⟩

inductive DbError
  | orderNotFound (id : OrderId)
  | batchNotFound (id : BatchId)
  | duplicateOrderId (id : OrderId)
  | invalidOrder (id : OrderId) (field : String)
  | batchAggregationStateIsNone (id : BatchId)
  | missingElm (field : String)
  /-- A deadline that is no unsigned number. -/
  | decode

/-- A batch is known by its place among all batches. -/
structure Db where
  orders : OrderedMap OrderId Order
  batches : List Batch

def Db.empty : Db := ⟨.empty, []⟩

end VerifiableCompute.Broker
