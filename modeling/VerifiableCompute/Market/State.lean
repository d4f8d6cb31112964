import VerifiableCompute.Market.Account
import VerifiableCompute.Market.Request

/-! The state of the market contract and the primitive writes its functions are
made of. Besides its own storage the state carries what the contract holds (ether
and collateral tokens), the transient storage of the current transaction, the
block timestamp and the event log. -/

namespace VerifiableCompute.Market

open Lib

/-- What a deployment fixes. -/
structure Config where
  this : Address
  keccak256 : Bytes → Bytes32
  domainSeparator : Bytes32
  assessorId : Bytes32
  deprecatedAssessorId : Bytes32
  deprecatedAssessorExpiresAt : U64

inductive FulfillmentDataType where
  | none | imageIdAndJournal
  deriving DecidableEq

structure Fulfillment where
  id : RequestId
  requestDigest : Bytes32
  claimDigest : Bytes32
  fulfillmentDataType : FulfillmentDataType
  fulfillmentData : Bytes
  sealData : Bytes
  deriving DecidableEq

inductive Event where
  | requestSubmitted (requestId : RequestId) (request : ProofRequest) (clientSignature : Bytes)
  | requestLocked (requestId : RequestId) (prover : Address) (request : ProofRequest) (clientSignature : Bytes)
  | requestFulfilled (requestId : RequestId) (prover : Address) (requestDigest : Bytes32)
  | proofDelivered (requestId : RequestId) (prover : Address) (fulfillment : Fulfillment)
  | proverSlashed (requestId : RequestId) (collateralBurned : U256) (collateralTransferred : U96)
      (collateralRecipient : Address)
  | deposit (account : Address) (value : U256)
  | withdrawal (account : Address) (value : U256)
  | collateralDeposit (account : Address) (value : U256)
  | collateralWithdrawal (account : Address) (value : U256)
  | paymentRequirementsFailed (error : Revert)
  | callbackFailed (requestId : RequestId) (callback : Address)

structure State where
  accounts : Address → Account
  requestLocks : RequestId → RequestLock
  transient : Bytes32 → U256
  /-- Ether held by the contract. -/
  eth : ℕ
  /-- Collateral tokens held by the contract. -/
  tokens : ℕ
  timestamp : U256
  /-- Events, oldest first. -/
  logs : List Event

/-- The storage right after deployment. -/
def State.initial : State where
  accounts _ := .empty
  requestLocks _ := .empty
  transient _ := 0
  eth := 0
  tokens := 0
  timestamp := 0
  logs := []

namespace State

variable (s : State)

def setAccount (a : Address) (account : Account) : State :=
  { s with accounts := Function.update s.accounts a account }

def setLock (id : RequestId) (lock : RequestLock) : State :=
  { s with requestLocks := Function.update s.requestLocks id lock }

def emit (e : Event) : State := { s with logs := s.logs ++ [e] }

section

variable (a : Address) (value : U96)

/-- `accounts[a].balance += value`. -/
def creditBalance : Except Revert State := do
  let balance ← checkedAdd .arithmeticPanic (s.accounts a).balance value
  return s.setAccount a { s.accounts a with balance := balance }

/-- `accounts[a].balance -= value` in an unchecked block. -/
def debitBalance : State :=
  s.setAccount a { s.accounts a with balance := (s.accounts a).balance - value }

/-- `accounts[a].collateralBalance += value`. -/
def creditCollateral : Except Revert State := do
  let balance ← checkedAdd .arithmeticPanic (s.accounts a).collateralBalance value
  return s.setAccount a { s.accounts a with collateralBalance := balance }

/-- `accounts[a].collateralBalance -= value` in an unchecked block. -/
def debitCollateral : State :=
  s.setAccount a { s.accounts a with collateralBalance := (s.accounts a).collateralBalance - value }

end

def setRequestLocked (client : Address) (idx : U32) : Except Revert State := do
  return s.setAccount client (← (s.accounts client).setRequestLocked idx)

def setRequestFulfilled (client : Address) (idx : U32) : Except Revert State := do
  return s.setAccount client (← (s.accounts client).setRequestFulfilled idx)

/-- `requestLocks[id].f()` for a library function that writes the stored lock. -/
def modifyLock (id : RequestId) (f : RequestLock → RequestLock) : State :=
  s.setLock id (f (s.requestLocks id))

/-- Tokens leave the contract; the token refuses more than the balance. -/
def transferTokens (value : U256) : Except Revert State := do
  require (value.toNat ≤ s.tokens) .tokenFailure
  return { s with tokens := s.tokens - value.toNat }

def storeContext (context : FulfillmentContext) (requestDigest : Bytes32) : State :=
  { s with transient := Function.update s.transient requestDigest context.pack }

def loadContext (requestDigest : Bytes32) : FulfillmentContext :=
  .unpack (s.transient requestDigest)

def flags (client : Address) (idx : U32) : Bool × Bool :=
  (s.accounts client).requestFlags idx

end State

end VerifiableCompute.Market
