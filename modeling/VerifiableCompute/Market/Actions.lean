import VerifiableCompute.Market.Delivery
import VerifiableCompute.Market.Fulfill

/-! The atomic actions of the market: the stretches of contract code that run
without handing control to another contract that could call back. Each either
reverts or returns the new state. -/

namespace VerifiableCompute.Market

open Lib

def requestHash (cfg : Config) (request : ProofRequest) : Bytes32 :=
  hashTypedDataV4 cfg.keccak256 cfg.domainSeparator (request.eip712Digest cfg.keccak256)

/-- The digest the client signed, and the digest of the request alone. -/
def verifyClientSignature (cfg : Config) (x : External) (request : ProofRequest) (addr : Address)
    (clientSignature : Bytes) : Except Revert (Bytes32 × Bytes32) := do
  let digest := request.eip712Digest cfg.keccak256
  let hash := hashTypedDataV4 cfg.keccak256 cfg.domainSeparator digest
  if isSmartContractSigned request.id then
    require (x.isValidSignature addr hash clientSignature) .invalidSignature
  else
    require (x.recover hash clientSignature = some addr) .invalidSignature
  return (hash, digest)

/-- Lock the request to the prover: the client pays the current price into the
lock and the prover its collateral. -/
def lockRequestFor (request : ProofRequest) (clientSignature : Bytes) (requestDigest : Bytes32)
    (client : Address) (idx : U32) (prover : Address) (lockDeadline deadline : U64) (s : State) :
    Except Revert State := do
  let (locked, fulfilled) := s.flags client idx
  require (locked = false) (.requestIsLocked request.id)
  require (fulfilled = false) (.requestIsFulfilled request.id)
  require (s.timestamp ≤ lockDeadline.setWidth 256) (.requestLockIsExpired request.id lockDeadline)
  let price ← toUint96 (← request.offer.priceAt (s.timestamp.setWidth 64))
  require (price ≤ (s.accounts client).balance) (.insufficientBalance client)
  require (request.offer.lockCollateral ≤ (s.accounts prover).collateralBalance.setWidth 256)
    (.insufficientBalance prover)
  let s := s.debitBalance client price
  let collateral ← toUint96 request.offer.lockCollateral
  let s := s.debitCollateral prover collateral
  let range ← checkedSub .arithmeticPanic deadline lockDeadline
  let deadlineDelta ← toUint24 (range.setWidth 256)
  let s := s.setLock request.id
    { prover := prover, price := price, requestLockFlags := 0, lockDeadline := lockDeadline,
      deadlineDelta := deadlineDelta, collateral := collateral, requestDigest := requestDigest }
  let s ← s.setRequestLocked client idx
  return s.emit (.requestLocked request.id prover request clientSignature)

def lockRequest (cfg : Config) (x : External) (sender : Address) (request : ProofRequest)
    (clientSignature : Bytes) (s : State) : Except Revert State := do
  let (client, idx) ← clientAndIndex request.id
  let (hash, _) ← verifyClientSignature cfg x request client clientSignature
  let (lockDeadline, deadline) ← request.validate
  lockRequestFor request clientSignature hash client idx sender lockDeadline deadline s

/-- Lock on behalf of the prover who signed the lock request. -/
def lockRequestWithSignature (cfg : Config) (x : External) (request : ProofRequest)
    (clientSignature proverSignature : Bytes) (s : State) : Except Revert State := do
  let (client, idx) ← clientAndIndex request.id
  let (hash, digest) ← verifyClientSignature cfg x request client clientSignature
  let lockHash := hashTypedDataV4 cfg.keccak256 cfg.domainSeparator (lockRequestDigest cfg.keccak256 digest)
  match x.recover lockHash proverSignature with
  | none => .error .invalidSignature
  | some prover => do
    let (lockDeadline, deadline) ← request.validate
    lockRequestFor request clientSignature hash client idx prover lockDeadline deadline s

/-- Validate the request and keep its price for the rest of the transaction. -/
def priceRequest (cfg : Config) (x : External) (request : ProofRequest) (clientSignature : Bytes)
    (s : State) : Except Revert State := do
  let (hash, _) ← verifyClientSignature cfg x request (client request.id) clientSignature
  let (_, deadline) ← request.validate
  let price ← toUint96 (← request.offer.priceAt (s.timestamp.setWidth 64))
  return s.storeContext ⟨true, decide (deadline.setWidth 256 < s.timestamp), price⟩ hash

/-- The burned and the transferred part of a slashed collateral. -/
def slashShares (collateral : U96) : Except Revert (U256 × U96) := do
  let product ← checkedMul .arithmeticPanic (collateral.setWidth 256) slashingBurnBps
  let burnValue := product / 10000
  let rest ← checkedSub .arithmeticPanic (collateral.setWidth 256) burnValue
  let transferValue ← toUint96 rest
  return (burnValue, transferValue)

/-- A prover that fulfilled late is rewarded; otherwise the market keeps the share
and the client is refunded. The recipient of the share is returned. -/
def creditShare (cfg : Config) (lock : RequestLock) (client : Address) (transferValue : U96) (s : State) :
    Except Revert (State × Address) :=
  if lock.isProverPaidAfterLockDeadline then do
    let s ← s.creditCollateral lock.prover transferValue
    return (s, lock.prover)
  else do
    let s ← s.creditCollateral cfg.this transferValue
    let s ← s.creditBalance client lock.price
    return (s, cfg.this)

def slash (cfg : Config) (requestId : RequestId) (s : State) : Except Revert State := do
  let (client, idx) ← clientAndIndex requestId
  let (locked, _) := s.flags client idx
  require (locked = true) (.requestIsNotLocked requestId)
  let lock := s.requestLocks requestId
  require (lock.isSlashed = false) (.requestIsSlashed requestId)
  require (lock.isProverPaidBeforeLockDeadline = false) (.requestIsFulfilled requestId)
  let deadline ← lock.deadline
  require (deadline.setWidth 256 < s.timestamp) (.requestIsNotExpired requestId deadline)
  let s := s.modifyLock requestId RequestLock.setSlashed
  let (burnValue, transferValue) ← slashShares lock.collateral
  let (s, recipient) ← creditShare cfg lock client transferValue s
  let s ← s.transferTokens burnValue
  return s.emit (.proverSlashed requestId burnValue transferValue recipient)

def depositTo (account : Address) (value : U256) (s : State) : Except Revert State := do
  let amount ← toUint96 value
  let s ← { s with eth := s.eth + value.toNat }.creditBalance account amount
  return s.emit (.deposit account value)

/-- `submitRequest` is payable: a value sent with it is deposited. -/
def submitRequest (sender : Address) (value : U256) (request : ProofRequest) (clientSignature : Bytes)
    (s : State) : Except Revert State := do
  let s ← if 0 < value then depositTo sender value s else .ok s
  return s.emit (.requestSubmitted request.id request clientSignature)

/-- The part of a withdrawal up to the transfer of the ether. -/
def payOut (cfg : Config) (account : Address) (value : U256) (s : State) : Except Revert State := do
  let amount ← toUint96 value
  require (amount ≤ (s.accounts account).balance) (.insufficientBalance account)
  let s := s.debitBalance account amount
  -- the market has no receive function, so a transfer to itself fails
  require (account ≠ cfg.this ∧ value.toNat ≤ s.eth) .transferFailed
  return { s with eth := s.eth - value.toNat }

/-- `transferred` is whether the token moved the value from the sender. -/
def depositCollateral (sender : Address) (value : U256) (transferred : Bool) (s : State) : Except Revert State := do
  require (transferred = true) .tokenFailure
  let amount ← toUint96 value
  let s ← { s with tokens := s.tokens + value.toNat }.creditCollateral sender amount
  return s.emit (.collateralDeposit sender value)

def withdrawCollateral (sender : Address) (value : U256) (s : State) : Except Revert State := do
  let amount ← toUint96 value
  require (amount ≤ (s.accounts sender).collateralBalance) (.insufficientBalance sender)
  let s := s.debitCollateral sender amount
  let s ← s.transferTokens value
  return s.emit (.collateralWithdrawal sender value)

inductive Action where
  /-- A transaction starts at this time: transient storage is empty again. -/
  | begin (timestamp : U256)
  | deposit (sender : Address) (value : U256)
  | depositTo (sender account : Address) (value : U256)
  | submitRequest (sender : Address) (value : U256) (request : ProofRequest) (clientSignature : Bytes)
  | lockRequest (sender : Address) (request : ProofRequest) (clientSignature : Bytes) (x : External)
  | lockRequestWithSignature (request : ProofRequest) (clientSignature proverSignature : Bytes) (x : External)
  | priceRequest (request : ProofRequest) (clientSignature : Bytes) (x : External)
  | fulfillAndPay (fill : Fulfillment) (prover : Address)
  | slash (requestId : RequestId)
  | payOut (account : Address) (value : U256)
  | logWithdrawal (account : Address) (value : U256)
  | logCallbackFailed (requestId : RequestId) (callback : Address)
  | depositCollateral (sender : Address) (value : U256) (transferred : Bool)
  | withdrawCollateral (sender : Address) (value : U256)

/-- What an action returns besides the state. -/
inductive Outcome where
  | done
  | delivered (delivery : Delivery)

/-- A new transaction is never earlier than the last one. -/
def beginTransaction (timestamp : U256) (s : State) : Except Revert State := do
  require (s.timestamp ≤ timestamp) .timeTravel
  return { s with timestamp := timestamp, transient := fun _ => 0 }

/-- The market never calls itself, so it is never the sender. -/
def fromOutside (cfg : Config) (sender : Address) (s : Except Revert State) : Except Revert State := do
  require (sender ≠ cfg.this) .transferFailed
  s

def done (r : Except Revert State) : Except Revert (State × Outcome) := do
  return (← r, .done)

def act (cfg : Config) (a : Action) (s : State) : Except Revert (State × Outcome) :=
  match a with
  | .begin timestamp => done (beginTransaction timestamp s)
  | .deposit sender value => done (fromOutside cfg sender (depositTo sender value s))
  | .depositTo sender account value => done (fromOutside cfg sender (depositTo account value s))
  | .submitRequest sender value request clientSignature =>
    done (fromOutside cfg sender (submitRequest sender value request clientSignature s))
  | .lockRequest sender request clientSignature x =>
    done (fromOutside cfg sender (lockRequest cfg x sender request clientSignature s))
  | .lockRequestWithSignature request clientSignature proverSignature x =>
    done (lockRequestWithSignature cfg x request clientSignature proverSignature s)
  | .priceRequest request clientSignature x => done (priceRequest cfg x request clientSignature s)
  | .fulfillAndPay fill prover => do
    let (s, delivery) ← fulfillAndPay cfg fill prover s
    return (s, .delivered delivery)
  | .slash requestId => done (slash cfg requestId s)
  | .payOut account value => done (payOut cfg account value s)
  | .logWithdrawal account value => done (.ok (s.emit (.withdrawal account value)))
  | .logCallbackFailed requestId callback => done (.ok (s.emit (.callbackFailed requestId callback)))
  | .depositCollateral sender value transferred =>
    done (fromOutside cfg sender (depositCollateral sender value transferred s))
  | .withdrawCollateral sender value => done (fromOutside cfg sender (withdrawCollateral sender value s))

end VerifiableCompute.Market
