import VerifiableCompute.Market.State

/-! Fulfilment and payment of one fill, after the application and assessor
receipts of its batch were verified. Three payment paths: while the request is
locked, after the lock expired, and for a request that was never locked. -/

namespace VerifiableCompute.Market

open Lib

def marketFeeBps : U96 := 0

def slashingBurnBps : U256 := 5000

def applyMarketFee (cfg : Config) (proverPayment : U96) (s : State) : Except Revert (U96 × State) := do
  let product ← checkedMul .arithmeticPanic proverPayment marketFeeBps
  let fee := product / 10000
  let s ← s.creditBalance cfg.this fee
  let rest ← checkedSub .arithmeticPanic proverPayment fee
  return (rest, s)

/-- What the prover receives of a price once the market took its fee. -/
def payout (cfg : Config) (price : U96) (s : State) : Except Revert (U96 × State) :=
  if 0 < marketFeeBps then applyMarketFee cfg price s else .ok (price, s)

/-- Set the fulfilled flag and log it, unless it was set before. -/
def markFulfilled (id : RequestId) (client : Address) (idx : U32) (fill : Fulfillment) (fulfilled : Bool)
    (assessorProver : Address) (s : State) : Except Revert State :=
  if fulfilled then .ok s
  else do
    let s ← s.setRequestFulfilled client idx
    return s.emit (.requestFulfilled id assessorProver fill.requestDigest)

/-- While the lock lasts only the locker is paid, and only for the request it locked. -/
def fulfillAndPayLocked (cfg : Config) (lock : RequestLock) (id : RequestId) (client : Address) (idx : U32)
    (fill : Fulfillment) (fulfilled : Bool) (assessorProver : Address) (s : State) :
    Except Revert (State × Option Revert) :=
  if lock.isProverPaid then .ok (s, some (.requestIsFulfilled id))
  else do
    let s ← markFulfilled id client idx fill fulfilled assessorProver s
    if lock.prover ≠ assessorProver ∨ lock.requestDigest ≠ fill.requestDigest then
      return (s, some (.requestIsLocked id))
    else
      let s := s.modifyLock id RequestLock.setProverPaidBeforeLockDeadline
      let (price, s) ← payout cfg lock.price s
      let s ← s.creditBalance assessorProver price
      let s ← s.creditCollateral assessorProver lock.collateral
      return (s, none)

/-- The part of the price that the lock did not cover, charged to the client or
given back; the price finally paid, and whether it was cut to what the client had. -/
def settleClient (lockPrice price : U96) (client : Address) (s : State) : Except Revert (State × U96 × Bool) :=
  if lockPrice < price then do
    let clientOwes ← checkedSub .arithmeticPanic price lockPrice
    if (s.accounts client).balance < clientOwes then
      let clientOwes := (s.accounts client).balance
      let finalPrice ← checkedAdd .arithmeticPanic lockPrice clientOwes
      return (s.debitBalance client clientOwes, finalPrice, true)
    else
      return (s.debitBalance client clientOwes, price, false)
  else do
    let clientOwed ← checkedSub .arithmeticPanic lockPrice price
    let s ← s.creditBalance client clientOwed
    return (s, price, false)

/-- After the lock expired anyone is paid the price of the fulfilled request,
which may differ from the locked one; the client is charged the difference. -/
def fulfillAndPayWasLocked (cfg : Config) (lock : RequestLock) (id : RequestId) (client : Address) (idx : U32)
    (price : U96) (fill : Fulfillment) (fulfilled : Bool) (assessorProver : Address) (s : State) :
    Except Revert (State × Option Revert) :=
  if lock.isProverPaid then .ok (s, some (.requestIsFulfilled id))
  else do
    let s ← markFulfilled id client idx fill fulfilled assessorProver s
    let (s, finalPrice, partialPayment) ← settleClient lock.price price client s
    let s := s.modifyLock id (RequestLock.setProverPaidAfterLockDeadline assessorProver)
    let (finalPrice, s) ← payout cfg finalPrice s
    let s ← s.creditBalance assessorProver finalPrice
    return (s, if partialPayment then some (.partialPayment price finalPrice) else none)

/-- A request that was never locked is paid once, if the client can pay. -/
def fulfillAndPayNeverLocked (cfg : Config) (id : RequestId) (client : Address) (idx : U32) (price : U96)
    (fill : Fulfillment) (fulfilled : Bool) (assessorProver : Address) (s : State) :
    Except Revert (State × Option Revert) :=
  if fulfilled then .ok (s, some (.requestIsFulfilled id))
  else do
    let s ← markFulfilled id client idx fill false assessorProver s
    if (s.accounts client).balance < price then
      return (s, some (.insufficientBalance client))
    else
      let s := s.debitBalance client price
      let (price, s) ← payout cfg price s
      let s ← s.creditBalance assessorProver price
      return (s, none)

/-- What one fulfilment did: the payment error, and whether the request had expired. -/
structure Delivery where
  paymentError : Option Revert
  expired : Bool

def reportExpired (id : RequestId) (s : State) : State × Delivery :=
  (s.emit (.paymentRequirementsFailed (.requestIsExpired id)), ⟨some (.requestIsExpired id), true⟩)

/-- Log the payment error, if any, and the delivered proof. -/
def deliver (fill : Fulfillment) (prover : Address) (paymentError : Option Revert) (s : State) : State × Delivery :=
  let s := match paymentError with
    | none => s
    | some e => s.emit (.paymentRequirementsFailed e)
  (s.emit (.proofDelivered fill.id prover fill), ⟨paymentError, false⟩)

/-- A request is authenticated by its price or by its lock; the result is whether
it has expired. -/
def authenticate (fill : Fulfillment) (locked : Bool) (lock : RequestLock) (s : State) : Except Revert Bool :=
  if (s.loadContext fill.requestDigest).valid then .ok (s.loadContext fill.requestDigest).expired
  else if locked ∧ lock.requestDigest = fill.requestDigest then do
    let deadline ← lock.deadline
    return decide (deadline.setWidth 256 < s.timestamp)
  else .error (.requestIsNotLockedOrPriced fill.id)

/-- The payment path of a request that has not expired. -/
def pay (cfg : Config) (fill : Fulfillment) (client : Address) (idx : U32) (locked fulfilled : Bool)
    (lock : RequestLock) (prover : Address) (s : State) : Except Revert (State × Option Revert) :=
  let context := s.loadContext fill.requestDigest
  if locked then
    if s.timestamp ≤ lock.lockDeadline.setWidth 256 then
      fulfillAndPayLocked cfg lock fill.id client idx fill fulfilled prover s
    else
      fulfillAndPayWasLocked cfg lock fill.id client idx context.price fill fulfilled prover s
  else
    fulfillAndPayNeverLocked cfg fill.id client idx context.price fill fulfilled prover s

def fulfillAndPay (cfg : Config) (fill : Fulfillment) (prover : Address) (s : State) :
    Except Revert (State × Delivery) := do
  let (client, idx) ← clientAndIndex fill.id
  let (locked, fulfilled) := s.flags client idx
  let lock := if locked then s.requestLocks fill.id else .empty
  let expired ← authenticate fill locked lock s
  if expired then return reportExpired fill.id s
  else
    let (s, paymentError) ← pay cfg fill client idx locked fulfilled lock prover s
    return deliver fill prover paymentError s

end VerifiableCompute.Market
