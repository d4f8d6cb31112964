import VerifiableCompute.Broker.Types

/-! The calls of the database. Each of them is one atomic step; where a query has no order of its
own, the order of the rows is a parameter. -/

namespace VerifiableCompute.Broker

open Lib

namespace Db

variable (db : Db)

/-- The orders that a query finds, in some order. -/
def Finds (p : Order → Bool) (ids : List OrderId) : Prop := ids.Perm ((db.orders.entries.filter fun e => p e.2).map Prod.fst)

instance (p : Order → Bool) (ids : List OrderId) : Decidable (db.Finds p ids) := inferInstanceAs (Decidable (List.Perm _ _))

section

variable (id : OrderId)

def updateOrder (f : Order → Order) : Except DbError Db :=
  match db.orders.get? id with
  | none => .error (.orderNotFound id)
  | some order => .ok { db with orders := db.orders.insert id (f order) }

/-- The rows of a query with one more status. -/
def setStatuses (status : OrderStatus) (ids : List OrderId) : Except DbError Db :=
  ids.foldlM (fun db id => db.updateOrder id fun order => { order with status }) db

/-- An accepted order takes the place of a skipped one only. -/
def insertAcceptedRequest (request : OrderRequest) (lockPrice : BitVec 256) : Except DbError Db := do
  let order := request.toProvingOrder lockPrice
  match db.orders.get? id with
  | none => return { db with orders := db.orders.insert id order }
  | some old =>
    require (old.status = .skipped) (.duplicateOrderId id)
    return { db with orders := db.orders.insert id order }

def insertSkippedRequest (request : OrderRequest) : Db :=
  match db.orders.get? id with
  | none => { db with orders := db.orders.insert id request.toSkippedOrder }
  | some _ => db

def setOrderFailure (failure : String) : Except DbError Db :=
  db.updateOrder id fun order => { order with status := .failed, errorMsg := some failure }

def setOrderComplete : Except DbError Db := db.updateOrder id fun order => { order with status := .done }

def setOrderProofId (proofId : ProofId) : Except DbError Db :=
  db.updateOrder id fun order => { order with proofId := some proofId }

def setOrderCompressedProofId (proofId : ProofId) : Except DbError Db :=
  db.updateOrder id fun order => { order with compressedProofId := some proofId }

def setAggregationStatus (status : OrderStatus) : Except DbError Db :=
  db.updateOrder id fun order => { order with status }

def aggregationOrder : Except DbError AggregationOrder :=
  match db.orders.get? id with
  | none => .error (.orderNotFound id)
  | some order =>
    match order.proofId, order.expireTimestamp, order.lockPrice with
    | some proofId, some expiration, some fee => .ok ⟨id, proofId, expiration, fee⟩
    | none, _, _ => .error (.invalidOrder id "proof_id")
    | _, none, _ => .error (.invalidOrder id "expire_timestamp")
    | _, _, none => .error (.invalidOrder id "lock_price")

/-- The orders are marked whether or not each of them can be given out. -/
def getAggregationProofs (ids : List OrderId) : Except DbError (Db × Except DbError (List AggregationOrder)) := do
  let db ← db.setStatuses .aggregating ids
  return (db, ids.mapM db.aggregationOrder)

def getGroth16Proofs (ids : List OrderId) : Except DbError (Db × Except DbError (List AggregationOrder)) := do
  let db ← db.setStatuses .skipAggregation ids
  return (db, ids.mapM db.aggregationOrder)

def getSubmissionOrder : Except DbError SubmissionOrder :=
  match db.orders.get? id with
  | none => .error (.orderNotFound id)
  | some order =>
    match order.proofId, order.imageId, order.lockPrice with
    | some proofId, some imageId, some lockPrice => .ok ⟨order.request, order.clientSig, proofId, imageId, lockPrice, order.fulfillmentType⟩
    | none, _, _ => .error (.missingElm "proof_id")
    | _, none, _ => .error (.missingElm "image_id")
    | _, _, none => .error (.missingElm "lock_price")

def getOrderCompressedProofId : Except DbError ProofId :=
  match db.orders.get? id with
  | none => .error (.orderNotFound id)
  | some order =>
    match order.compressedProofId with
    | some proofId => .ok proofId
    | none => .error (.missingElm "compressed_proof_id")

end

/-- The rows of these orders, each of them once. -/
def getOrders (ids : List OrderId) : List (OrderId × Order) :=
  ids.dedup.filterMap fun id => (db.orders.get? id).map fun order => (id, order)

def updateBatchRow (id : BatchId) (f : Batch → Batch) : Except DbError Db :=
  match db.batches[id]? with
  | none => .error (.batchNotFound id)
  | some batch => .ok { db with batches := db.batches.set id (f batch) }

/-- A batch whose deadline is negative cannot be read. -/
def getBatch (id : BatchId) : Except DbError Batch :=
  match db.batches[id]? with
  | none => .error (.batchNotFound id)
  | some batch => do
    require (0 ≤ batch.deadline.getD 0) .decode
    return batch

def newBatch : Db × BatchId := ({ db with batches := db.batches ++ [.default] }, db.batches.length)

def active (batch : Batch) : Bool := batch.status = .aggregating ∨ batch.status = .pendingCompression

/-- The batch that is worked on, or a new one. -/
def getCurrentBatch : Except DbError (Db × BatchId) :=
  match db.batches.findIdx? active with
  | some id => do
    let _ ← db.getBatch id
    return (db, id)
  | none => .ok db.newBatch

/-- A complete batch is given out. It is marked whether or not it can be read. -/
def getCompleteBatch (id : BatchId) : Except DbError (Db × Except DbError Batch) := do
  let db ← db.updateBatchRow id fun batch => { batch with status := .pendingSubmission }
  return (db, db.getBatch id)

def completeBatch (id : BatchId) (g16ProofId : ProofId) : Except DbError Db := do
  let batch ← db.getBatch id
  require batch.aggregationState.isSome (.batchAggregationStateIsNone id)
  db.updateBatchRow id fun batch =>
    { batch with
      status := .complete
      aggregationState := batch.aggregationState.map fun state => { state with groth16ProofId := some g16ProofId } }

def setBatchSubmitted (id : BatchId) : Except DbError Db := db.updateBatchRow id fun batch => { batch with status := .submitted }

def setBatchFailure (id : BatchId) (err : String) : Except DbError Db :=
  db.updateBatchRow id fun batch => { batch with status := .failed, errorMsg := some err }

def i64Max : ℤ := 2 ^ 63 - 1

/-- The earliest of the expirations, as signed numbers. -/
def newDeadline (deadline : Option ℤ) (orders : List AggregationOrder) : ℤ :=
  (orders.foldl (fun earliest order => some (min (earliest.getD i64Max) order.expiration.toInt)) deadline).getD i64Max

/-- One of the orders of an update. -/
def addOrder (id : BatchId) (db : Db) (order : AggregationOrder) : Except DbError Db := do
  let db ← db.updateBatchRow id fun batch => { batch with orders := batch.orders ++ [order.orderId] }
  db.updateOrder order.orderId fun row => { row with status := .pendingSubmission }

/-- An update is done as a whole or not at all. -/
def updateBatch (id : BatchId) (aggregationState : AggregationState) (orders : List AggregationOrder) (assessorProofId : Option ProofId) :
    Except DbError Db := do
  let db ← db.updateBatchRow id fun batch =>
    { batch with
      deadline := some (newDeadline batch.deadline orders)
      fees := orders.foldl (fun sum order => sum + order.fee) batch.fees
      aggregationState := some aggregationState }
  let db ← orders.foldlM (addOrder id) db
  match assessorProofId with
  | none => return db
  | some proofId => db.updateBatchRow id fun batch => { batch with status := .pendingCompression, assessorProofId := some proofId }

end Db

end VerifiableCompute.Broker
