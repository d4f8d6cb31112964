import VerifiableCompute.Broker.Db

/-! The services of a broker: one that proves orders, an aggregator, a submitter and a reaper. Each of
them goes on by single calls of the database, in any order with the calls of the others. What they
learn from provers and clocks is a parameter of the step. -/

namespace VerifiableCompute.Broker

open Lib

/-- A call whose error is only logged. -/
def Db.attempt (db : Db) : Except DbError Db → Db
  | .ok db' => db'
  | .error _ => db

structure Proofs where
  claimDigest : ProofId → Digest
  journal : ProofId → Market.Bytes

def hexDigit (c : Char) : Option ℕ :=
  if '0' ≤ c ∧ c ≤ '9' then some (c.toNat - 48)
  else if 'a' ≤ c ∧ c ≤ 'f' then some (c.toNat - 87)
  else if 'A' ≤ c ∧ c ≤ 'F' then some (c.toNat - 55)
  else none

/-- A digest is written with 64 digits. -/
def fromHex (digits : List Char) : Option Digest :=
  if digits.length = 64 then (digits.mapM hexDigit).map fun ds => BitVec.ofNat 256 (ds.foldl (fun n d => 16 * n + d) 0) else none

/-- A request for a claim is given no data. -/
def Order.fulfillmentData (proofs : Proofs) (order : Order) (proofId : ProofId) : Option Market.FulfillmentData :=
  if order.request.requirements.predicate.predicateType = .claimDigestMatch then some .none
  else (order.imageId.bind fromHex).map fun imageId => .imageIdAndJournal imageId (proofs.journal proofId)

def Order.fill (proofs : Proofs) (order : Order) : Option Market.AssessorFill := do
  let proofId ← order.proofId
  let fulfillmentData ← order.fulfillmentData proofs proofId
  return ⟨order.request, order.clientSig, fulfillmentData⟩

def Db.fill (db : Db) (proofs : Proofs) (id : OrderId) : Option (OrderId × Market.AssessorFill) :=
  ((db.orders.get? id).bind fun order => order.fill proofs).map fun fill => (id, fill)

/-- A task that watches the proof of an order, with its copy of the order. -/
structure Monitor where
  orderId : OrderId
  order : Order
  /-- The compressed proof of this attempt is recorded. -/
  compressed : Bool

inductive Proving
  /-- The orders that were found in proving are taken up again. -/
  | recovering (orders : List (OrderId × Order))
  | starting
  | running

structure Work where
  batchId : BatchId
  batch : Batch
  newProofs : List AggregationOrder
  newGroth16Proofs : List AggregationOrder

namespace Work

variable (work : Work)

def pending : List AggregationOrder := work.newProofs ++ work.newGroth16Proofs

def allOrders : List OrderId := work.batch.orders ++ work.pending.map AggregationOrder.orderId

end Work

inductive Aggregator
  | idle
  | reading (batchId : BatchId)
  | collecting (work : Work) (now : BitVec 64)
  | collectingGroth16 (work : Work) (now : BitVec 64)
  /-- The orders that are not looked at yet; those that are still valid are in the work. -/
  | filtering (work : Work) (now : BitVec 64) (newProofs newGroth16Proofs : List AggregationOrder)
  | checking (work : Work)
  | assessing (work : Work)
  | building (work : Work) (assessorProofId : Option ProofId)
  | updating (work : Work) (assessorProofId : Option ProofId) (state : AggregationState)
  | compressing (batchId : BatchId)

inductive Submitter
  | idle
  | submitting (batchId : BatchId) (batch : Batch)
  deriving DecidableEq

structure System where
  db : Db
  proving : Proving
  monitors : List Monitor
  aggregator : Aggregator
  /-- The assessor's proofs, with the fills that each of them is about and the orders of these. -/
  assessors : List (ProofId × List (OrderId × Market.AssessorFill))
  submitter : Submitter
  reaper : List OrderId

namespace System

def start : System := ⟨.empty, .starting, [], .idle, [], .idle, []⟩

variable (s : System)

def accept (id : OrderId) (request : OrderRequest) (lockPrice : BitVec 256) : System :=
  { s with db := s.db.attempt (s.db.insertAcceptedRequest id request lockPrice) }

def skip (id : OrderId) (request : OrderRequest) : System := { s with db := s.db.insertSkippedRequest id request }

def failOrder (id : OrderId) (failure : String) : System := { s with db := s.db.attempt (s.db.setOrderFailure id failure) }

/-- The orders that are in proving, when the service starts. -/
def findActiveProofs (ids : List OrderId) : Option System :=
  match s.proving with
  | .starting =>
    if s.db.Finds (fun order => order.status = .proving) ids then
      some { s with proving := .recovering (ids.filterMap fun id => (s.db.orders.get? id).map fun order => (id, order)) }
    else none
  | _ => none

def monitor (id : OrderId) (order : Order) : System := { s with monitors := s.monitors ++ [⟨id, order, false⟩] }

def recoverNext : Option System :=
  match s.proving with
  | .recovering [] => some { s with proving := .running }
  | .recovering ((id, order) :: orders) =>
    let s := { s with proving := .recovering orders }
    match order.proofId with
    | none => some (s.failOrder id "Proving status missing proof_id")
    | some _ => some (s.monitor id order)
  | _ => none

/-- A pending order is marked and watched. -/
def takeProvingOrder (id : OrderId) : Option System :=
  match s.proving, s.db.orders.get? id with
  | .running, some order =>
    if order.status = .pendingProving then
      let order := { order with status := .proving }
      some ({ s with db := { s.db with orders := s.db.orders.insert id order } }.monitor id order)
    else none
  | _, _ => none

/-- After a fault the supervisor starts the service again; the monitors go on. -/
def restartProving : Option System :=
  match s.proving with
  | .running => some { s with proving := .starting }
  | _ => none

def createStarkSession (i : ℕ) (proofId : ProofId) : Option System :=
  match s.monitors[i]? with
  | none => none
  | some m =>
    if m.order.proofId.isSome then none
    else
      match s.db.setOrderProofId m.orderId proofId with
      | .ok db => some { s with db, monitors := s.monitors.set i { m with order := { m.order with proofId := some proofId } } }
      | .error _ => some s

def Compresses (order : Order) : Prop := order.compressionType ≠ .none

instance (order : Order) : Decidable (Compresses order) := inferInstanceAs (Decidable (_ ≠ _))

def compress (i : ℕ) (proofId : ProofId) : Option System :=
  match s.monitors[i]? with
  | none => none
  | some m =>
    if m.order.proofId.isSome ∧ Compresses m.order ∧ m.order.compressedProofId = none then
      match s.db.setOrderCompressedProofId m.orderId proofId with
      | .ok db => some { s with db, monitors := s.monitors.set i { m with compressed := true } }
      | .error _ => some s
    else none

def provenStatus (order : Order) : OrderStatus := if Compresses order then .skipAggregation else .pendingAgg

/-- The proof is there, and the aggregator is told so. -/
def finishProof (i : ℕ) : Option System :=
  match s.monitors[i]? with
  | none => none
  | some m =>
    if m.order.proofId.isSome ∧ (Compresses m.order → m.order.compressedProofId.isSome ∨ m.compressed) then
      some
        { s with
          db := s.db.attempt (s.db.setAggregationStatus m.orderId (provenStatus m.order))
          monitors := s.monitors.eraseIdx i }
    else none

def failProof (i : ℕ) (failure : String) : Option System :=
  match s.monitors[i]? with
  | none => none
  | some m => some ({ s with monitors := s.monitors.eraseIdx i }.failOrder m.orderId failure)

/-- A task that panics leaves nothing. -/
def abortProof (i : ℕ) : System := { s with monitors := s.monitors.eraseIdx i }

/-- Every fault of the aggregator lets it start anew. -/
def restartAggregator : System := { s with aggregator := .idle }

def currentBatch : Option System :=
  match s.aggregator with
  | .idle =>
    match s.db.getCurrentBatch with
    | .ok (db, batchId) => some { s with db, aggregator := .reading batchId }
    | .error _ => some s
  | _ => none

def readBatch (now : BitVec 64) : Option System :=
  match s.aggregator with
  | .reading batchId =>
    match s.db.getBatch batchId with
    | .error _ => some s.restartAggregator
    | .ok batch =>
      match batch.status, batch.aggregationState with
      | .aggregating, _ => some { s with aggregator := .collecting ⟨batchId, batch, [], []⟩ now }
      | .pendingCompression, some _ => some { s with aggregator := .compressing batchId }
      | _, _ => some s.restartAggregator
  | _ => none

def collectProofs (ids : List OrderId) : Option System :=
  match s.aggregator with
  | .collecting work now =>
    if s.db.Finds (fun order => order.status = .pendingAgg ∨ order.status = .aggregating) ids then
      match s.db.getAggregationProofs ids with
      | .ok (db, .ok proofs) => some { s with db, aggregator := .collectingGroth16 { work with newProofs := proofs } now }
      | .ok (db, .error _) => some { s with db, aggregator := .idle }
      | .error _ => some s.restartAggregator
    else none
  | _ => none

def collectGroth16Proofs (ids : List OrderId) : Option System :=
  match s.aggregator with
  | .collectingGroth16 work now =>
    if s.db.Finds (fun order => order.status = .skipAggregation) ids then
      match s.db.getGroth16Proofs ids with
      | .ok (db, .ok proofs) =>
        some { s with db, aggregator := .filtering { work with newProofs := [] } now work.newProofs proofs }
      | .ok (db, .error _) => some { s with db, aggregator := .idle }
      | .error _ => some s.restartAggregator
    else none
  | _ => none

/-- The next order is kept, or marked as failed. -/
def filterExpired : Option System :=
  match s.aggregator with
  | .filtering work now (order :: newProofs) newGroth16Proofs =>
    if order.expiration < now then
      some ({ s with aggregator := .filtering work now newProofs newGroth16Proofs }.failOrder order.orderId "Expired before aggregation")
    else
      some { s with aggregator := .filtering { work with newProofs := work.newProofs ++ [order] } now newProofs newGroth16Proofs }
  | .filtering work now [] (order :: newGroth16Proofs) =>
    if order.expiration < now then
      some ({ s with aggregator := .filtering work now [] newGroth16Proofs }.failOrder order.orderId "Expired before aggregation")
    else
      some { s with aggregator := .filtering { work with newGroth16Proofs := work.newGroth16Proofs ++ [order] } now [] newGroth16Proofs }
  | .filtering work _ [] [] => some { s with aggregator := .checking work }
  | _ => none

/-- A batch that has seen no claim is not closed while nothing waits for it. What else counts is configured. -/
def checkFinalize (finalize : Bool) : Option System :=
  match s.aggregator with
  | .checking work =>
    let isInitialState := (work.batch.aggregationState.map AggregationState.isInitial).getD true
    if finalize ∧ ¬(isInitialState ∧ work.pending = []) then some { s with aggregator := .assessing work }
    else if work.newProofs = [] then some s.restartAggregator
    else some { s with aggregator := .building work none }
  | _ => none

/-- The fills are those of all orders, in order. Every proof has a name of its own. -/
def proveAssessor (proofs : Proofs) (proofId : ProofId) : Option System :=
  match s.aggregator with
  | .assessing work =>
    if proofId ∈ s.assessors.map Prod.fst then none
    else
      match work.allOrders.mapM (s.db.fill proofs) with
      | none => some s.restartAggregator
      | some fills => some { s with aggregator := .building work (some proofId), assessors := s.assessors ++ [(proofId, fills)] }
  | _ => none

/-- The proofs whose receipts do not verify are left out. -/
def proveSetBuilder (proofs : Proofs) (valid : ProofId → Bool) (proofId : ProofId) (isInitial : Bool) : Option System :=
  match s.aggregator with
  | .building work assessorProofId =>
    let proofIds := work.newProofs.map AggregationOrder.proofId ++ assessorProofId.toList
    let validProofIds := proofIds.filter valid
    if validProofIds = [] then some s.restartAggregator
    else
      let claimDigests := (work.batch.aggregationState.map AggregationState.claimDigests).getD [] ++ validProofIds.map proofs.claimDigest
      some { s with aggregator := .updating work assessorProofId ⟨isInitial, proofId, claimDigests, none⟩ }
  | _ => none

def updateBatch : Option System :=
  match s.aggregator with
  | .updating work assessorProofId state =>
    match s.db.updateBatch work.batchId state work.pending assessorProofId with
    | .ok db => some { s with db, aggregator := if assessorProofId.isSome then .compressing work.batchId else .idle }
    | .error _ => some s.restartAggregator
  | _ => none

def completeBatch (g16ProofId : ProofId) : Option System :=
  match s.aggregator with
  | .compressing batchId => some { s with db := s.db.attempt (s.db.completeBatch batchId g16ProofId), aggregator := .idle }
  | _ => none

def failCompression (err : String) : Option System :=
  match s.aggregator with
  | .compressing batchId => some { s with db := s.db.attempt (s.db.setBatchFailure batchId err), aggregator := .idle }
  | _ => none

def restartSubmitter : System := { s with submitter := .idle }

def takeCompleteBatch (batchId : BatchId) : Option System :=
  match s.submitter, s.db.batches[batchId]? with
  | .idle, some batch =>
    if batch.status = .complete then
      match s.db.getCompleteBatch batchId with
      | .ok (db, .ok batch) => some { s with db, submitter := .submitting batchId batch }
      | .ok (db, .error _) => some { s with db }
      | .error _ => some s
    else none
  | _, _ => none

def failSubmittedOrder (id : OrderId) (failure : String) : Option System :=
  match s.submitter with
  | .submitting _ batch => if id ∈ batch.orders then some (s.failOrder id failure) else none
  | .idle => none

def completeOrder (id : OrderId) : Option System :=
  match s.submitter with
  | .submitting _ batch => if id ∈ batch.orders then some { s with db := s.db.attempt (s.db.setOrderComplete id) } else none
  | .idle => none

def finishSubmission : Option System :=
  match s.submitter with
  | .submitting batchId _ => some { s with db := s.db.attempt (s.db.setBatchSubmitted batchId), submitter := .idle }
  | .idle => none

def failSubmission (err : String) : Option System :=
  match s.submitter with
  | .submitting batchId _ => some { s with db := s.db.attempt (s.db.setBatchFailure batchId err), submitter := .idle }
  | .idle => none

def Committed (status : OrderStatus) : Prop :=
  status ∈ [OrderStatus.pendingProving, .proving, .pendingAgg, .skipAggregation, .pendingSubmission]

instance (status : OrderStatus) : Decidable (Committed status) := inferInstanceAs (Decidable (_ ∈ _))

def findExpired (cutoff : ℤ) (ids : List OrderId) : Option System :=
  if s.reaper = [] ∧ s.db.Finds (fun order => Committed order.status ∧ order.expireTimestamp.any fun t => (t.toNat : ℤ) < cutoff) ids then
    some { s with reaper := ids }
  else none

def reapNext : Option System :=
  match s.reaper with
  | [] => none
  | id :: ids => some ({ s with reaper := ids }.failOrder id "Order expired in reaper")

end System

inductive Event
  | accept (id : OrderId) (request : OrderRequest) (lockPrice : BitVec 256)
  | skip (id : OrderId) (request : OrderRequest)
  | findActiveProofs (ids : List OrderId)
  | recoverNext
  | takeProvingOrder (id : OrderId)
  | restartProving
  | createStarkSession (i : ℕ) (proofId : ProofId)
  | compress (i : ℕ) (proofId : ProofId)
  | finishProof (i : ℕ)
  | failProof (i : ℕ) (failure : String)
  | abortProof (i : ℕ)
  | restartAggregator
  | currentBatch
  | readBatch (now : BitVec 64)
  | collectProofs (ids : List OrderId)
  | collectGroth16Proofs (ids : List OrderId)
  | filterExpired
  | checkFinalize (finalize : Bool)
  | proveAssessor (proofId : ProofId)
  | proveSetBuilder (valid : ProofId → Bool) (proofId : ProofId) (isInitial : Bool)
  | updateBatch
  | completeBatch (g16ProofId : ProofId)
  | failCompression (err : String)
  | restartSubmitter
  | takeCompleteBatch (batchId : BatchId)
  | failSubmittedOrder (id : OrderId) (failure : String)
  | completeOrder (id : OrderId)
  | finishSubmission
  | failSubmission (err : String)
  | findExpired (cutoff : ℤ) (ids : List OrderId)
  | reapNext

/-- A step of one of the services, when it can be taken. -/
def System.step (proofs : Proofs) (s : System) : Event → Option System
  | .accept id request lockPrice => some (s.accept id request lockPrice)
  | .skip id request => some (s.skip id request)
  | .findActiveProofs ids => s.findActiveProofs ids
  | .recoverNext => s.recoverNext
  | .takeProvingOrder id => s.takeProvingOrder id
  | .restartProving => s.restartProving
  | .createStarkSession i proofId => s.createStarkSession i proofId
  | .compress i proofId => s.compress i proofId
  | .finishProof i => s.finishProof i
  | .failProof i failure => s.failProof i failure
  | .abortProof i => some (s.abortProof i)
  | .restartAggregator => some s.restartAggregator
  | .currentBatch => s.currentBatch
  | .readBatch now => s.readBatch now
  | .collectProofs ids => s.collectProofs ids
  | .collectGroth16Proofs ids => s.collectGroth16Proofs ids
  | .filterExpired => s.filterExpired
  | .checkFinalize finalize => s.checkFinalize finalize
  | .proveAssessor proofId => s.proveAssessor proofs proofId
  | .proveSetBuilder valid proofId isInitial => s.proveSetBuilder proofs valid proofId isInitial
  | .updateBatch => s.updateBatch
  | .completeBatch g16ProofId => s.completeBatch g16ProofId
  | .failCompression err => s.failCompression err
  | .restartSubmitter => some s.restartSubmitter
  | .takeCompleteBatch batchId => s.takeCompleteBatch batchId
  | .failSubmittedOrder id failure => s.failSubmittedOrder id failure
  | .completeOrder id => s.completeOrder id
  | .finishSubmission => s.finishSubmission
  | .failSubmission err => s.failSubmission err
  | .findExpired cutoff ids => s.findExpired cutoff ids
  | .reapNext => s.reapNext

/-- The runs whose steps meet a condition. -/
inductive System.Run (proofs : Proofs) (allowed : System → Event → Prop) : System → Prop
  | start : Run proofs allowed .start
  | step {s s' : System} {event : Event} (hrun : Run proofs allowed s) (hallowed : allowed s event)
      (hstep : s.step proofs event = some s') : Run proofs allowed s'

/-- A run given by its steps. -/
def System.follow (proofs : Proofs) (allowed : System → Event → Prop) [∀ s event, Decidable (allowed s event)] (s : System)
    (events : List Event) : Option System :=
  events.foldlM (fun s event => if allowed s event then s.step proofs event else none) s

theorem System.Run.follow {proofs : Proofs} {allowed : System → Event → Prop} [∀ s event, Decidable (allowed s event)]
    {s s' : System} {events : List Event} (hrun : Run proofs allowed s) (h : s.follow proofs allowed events = some s') :
    Run proofs allowed s' := by
  unfold System.follow at h
  induction events generalizing s with
  | nil =>
    cases h
    exact hrun
  | cons event events ih =>
    rw [List.foldlM_cons] at h
    obtain ⟨mid, hone, hrest⟩ := Option.bind_eq_some_iff.mp h
    split_ifs at hone with hallowed
    exact ih (.step hrun hallowed hone) hrest

end VerifiableCompute.Broker
