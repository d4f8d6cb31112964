import VerifiableCompute.Broker.Submission

/-! What becomes of the orders of a batch that is submitted. An order that cannot be prepared is recorded as a failure on
the way; the others are recorded as done at the end, each fill through a map from request ids back to orders. -/

namespace VerifiableCompute.Broker

open Lib Market List Option

/-- A part of a call: what it returns, and the database that it leaves. -/
abbrev Settling (α : Type) := ExceptT SubmitterErr (StateM Db) α

namespace Settling

variable {α β : Type}

def reading (x : Db → Except SubmitterErr α) : Settling α := fun db => (x db, db)

def fallible (x : Except SubmitterErr α) : Settling α := reading fun _ => x

def writing (write : Db → Db) : Settling Unit := fun db => (.ok (), write db)

variable {db db' : Db} {a : α}

theorem bind_ok {x : Settling α} {k : α → Settling β} {b : β} :
    (x >>= k) db = (.ok b, db') ↔ ∃ a mid, x db = (.ok a, mid) ∧ k a mid = (.ok b, db') := by
  change ExceptT.bindCont k (x db).1 (x db).2 = _ ↔ _
  constructor
  · intro h
    cases hx : x db with
    | mk r mid =>
      rw [hx] at h
      cases r with
      | error err => cases h
      | ok a => exact ⟨a, mid, rfl, h⟩
  · rintro ⟨a, mid, hx, hk⟩
    rw [hx]
    exact hk

@[simp] theorem reading_ok {x : Db → Except SubmitterErr α} :
    reading x db = (.ok a, db') ↔ x db = .ok a ∧ db' = db := by
  rw [reading, Prod.mk.injEq, eq_comm (a := db)]

@[simp] theorem fallible_ok {x : Except SubmitterErr α} :
    fallible x db = (.ok a, db') ↔ x = .ok a ∧ db' = db := reading_ok

@[simp] theorem writing_ok {write : Db → Db} {u : Unit} : writing write db = (.ok u, db') ↔ db' = write db := by
  rw [writing, Prod.mk.injEq, and_iff_right rfl, eq_comm]

theorem pure_ok {b : α} : (pure a : Settling α) db = (.ok b, db') ↔ a = b ∧ db' = db := by
  change (Except.ok a, db) = (.ok b, db') ↔ _
  rw [Prod.mk.injEq, Except.ok.injEq, eq_comm (a := db)]

end Settling

open Settling

/-- What is told to a call that settles its orders: next to what its transaction needs, which of its writes to the database
go through, and what comes of the transaction. -/
structure Settlement where
  call : Call
  /-- For the orders that are left out, by their positions. -/
  failureWritten : ℕ → Bool
  /-- For the orders of a batch that is given up. -/
  givenUpWritten : ℕ → Bool
  /-- For the fills that were sent. -/
  completeWritten : ℕ → Bool
  fulfill : Except SubmitterErr Unit
  /-- The decimals of the collateral token, asked for after each fill and then printed with. -/
  collateralTokenDecimals : ℕ → Except SubmitterErr Unit

/-- A write that does not go through is logged. -/
def tried (written : Bool) (write : Db → Except DbError Db) (db : Db) : Option Db :=
  if written then (write db).toOption else none

/-- The failure of some orders, one after the other. -/
def setOrderFailures (written : ℕ → Bool) (failure : String) : ℕ → List OrderId → Db → Db
  | _, [], db => db
  | i, id :: rest, db =>
    setOrderFailures written failure (i + 1) rest ((tried (written i) (·.setOrderFailure id failure) db).getD db)

/-- What the orders of a batch are gathered into. -/
structure Gathered where
  requestsToPrice : List UnlockedRequest
  fulfillments : List Fulfillment
  fulfillmentToOrderId : RequestId → Option OrderId

def Gathered.new : Gathered := ⟨[], [], fun _ => none⟩

namespace Submitting

variable (e : Submitting)

/-- The orders from a position on. -/
def gather (c : Settlement) (claimDigests : List Digest) : ℕ → List OrderId → Gathered → Settling Gathered
  | _, [], g => pure g
  | i, id :: rest, g => do
    let (requests, fill) ← reading fun db => e.submitOrder { c.call.answers i with db } claimDigests id
    match fill with
    | some fill =>
      gather c claimDigests (i + 1) rest
        ⟨g.requestsToPrice ++ requests, g.fulfillments ++ [fill], Function.update g.fulfillmentToOrderId fill.id (some id)⟩
    | none => do
      writing fun db => (tried (c.failureWritten i) (·.setOrderFailure id "Failed to submit") db).getD db
      gather c claimDigests (i + 1) rest { g with requestsToPrice := g.requestsToPrice ++ requests }

/-- Where all orders are expired, they fail with the call. -/
def handleExpiredRequests (c : Settlement) (batch : Batch) : Settling Unit := fun db =>
  match checkExpired { c.call with db } batch with
  | .ok () => (.ok (), db)
  | .error (.allRequestsExpiredBeforeSubmission orders) =>
    (.error (.allRequestsExpiredBeforeSubmission orders),
      setOrderFailures c.givenUpWritten "Failed to submit batch" 0 orders db)
  | .error err => (.error err, db)

/-- A call to the chain; where it fails, the orders of the fills fail with it. -/
def handleFulfillmentError (c : Settlement) (g : Gathered) (x : Except SubmitterErr Unit) : Settling Unit := fun db =>
  match x, g.fulfillments.mapM fun fill => g.fulfillmentToOrderId fill.id with
  | .ok (), _ => (.ok (), db)
  | .error _, none => (.error .panicked, db)
  | .error err, some orders => (.error err, setOrderFailures c.givenUpWritten "Failed to submit batch" 0 orders db)

/-- The root, where it goes with the fills. -/
def sendRoot (c : Settlement) (g : Gathered) (root : Digest) (batchSeal : Bytes) : Settling (Option (Digest × Bytes)) :=
  if c.call.singleTxnFulfill then pure (some (root, batchSeal))
  else do
    handleFulfillmentError c g c.call.submitMerkleRoot
    return none

/-- The fills from a position on are recorded as done. -/
def complete (c : Settlement) (g : Gathered) : ℕ → List Fulfillment → Settling Unit
  | _, [] => pure ()
  | k, fill :: rest => fun db =>
    match g.fulfillmentToOrderId fill.id with
    | none => (.error .panicked, db)
    | some id =>
      match tried (c.completeWritten k) (·.setOrderComplete id) db with
      | none => complete c g (k + 1) rest db
      | some db =>
        match c.collateralTokenDecimals k with
        | .error err => (.error err, db)
        | .ok () => complete c g (k + 1) rest db

/-- The transaction that was sent for a batch. -/
def settleBatch (c : Settlement) (batch : Batch) : Settling FulfillmentTx := do
  let state ← fallible (orUnexpected batch.aggregationState "Cannot submit batch with no recorded aggregation state")
  let _ ← fallible (orUnexpected state.groth16ProofId "Cannot submit batch with no recorded Groth16 proof ID")
  fallible (require (state.claimDigests ≠ []) (.unexpectedErr "Cannot submit batch with no claim digests"))
  let assessorProofId ← fallible (orUnexpected batch.assessorProofId "Cannot submit batch with no assessor receipt")
  let finalizedRoot ← fallible (orUnexpected c.call.finalizedRoot "Cannot submit guest state that is not finalized")
  handleExpiredRequests c batch
  let batchSeal ← fallible (orUnexpected c.call.batchSeal "Failed to fetch g16 receipt")
  let root := e.merkleRoot state.claimDigests
  fallible (require (finalizedRoot = root) (.unexpectedErr "Guest state finalized root is inconsistent with claim digests"))
  let assessorJournal ← fallible (orUnexpected c.call.assessorJournal "Failed to get assessor receipt")
  let g ← e.gather c state.claimDigests 0 batch.orders .new
  fallible (require (e.proofs.claimDigest assessorProofId ∈ state.claimDigests)
    (.unexpectedErr "Failed to find order claim assessor claim in aggregated claims"))
  let assessorSeal ← fallible (orUnexpected c.call.assessorSeal "ABI encode assessor set inclusion receipt")
  let assessorReceipt : AssessorReceipt :=
    ⟨assessorSeal, assessorJournal.callbacks, assessorJournal.selectors, e.proverAddress⟩
  let root ← sendRoot c g root batchSeal
  let tx : FulfillmentTx := ⟨root, g.requestsToPrice, g.fulfillments, assessorReceipt, c.call.withdraw⟩
  handleFulfillmentError c g c.fulfill
  complete c g 0 g.fulfillments
  return tx

/-- The fill of an order is the one that its row asks for. -/
def Fulfils (order : Order) (fill : Fulfillment) : Prop :=
  ∃ proofId imageId, order.proofId = some proofId ∧ order.imageId.bind fromHex = some imageId ∧
    e.FillOf order imageId (e.proofs.journal proofId) fill

/-- Each order is done, and its fill was sent, or it failed. -/
def Settled (db : Db) (tx : FulfillmentTx) (ids : List OrderId) : Prop :=
  ∀ id ∈ ids, ∃ order, db.orders.get? id = some order ∧
    (order.status = .done ∧ (∃ fill ∈ tx.fulfillments, e.Fulfils order fill) ∨ order.status = .failed)

def answersOn (c : Settlement) (db : Db) (i : ℕ) : Answers := { c.call.answers i with db }

/-- The order at a position is prepared, with the database that the call finds. -/
def PreparedAt (c : Settlement) (db : Db) (batch : Batch) (i : ℕ) (id : OrderId) : Prop :=
  e.Prepared (answersOn c db i) batch.claimDigests id

/-- Each order has a row. It is done or failed already, or it is not prepared, or no order after it is prepared for the
same request id. -/
def Settleable (c : Settlement) (db : Db) (batch : Batch) : Prop :=
  ∀ id ∈ batch.orders, ∃ order, db.orders.get? id = some order ∧
    (order.status = .done ∨ order.status = .failed ∨ ∃ i, batch.orders[i]? = some id ∧
      (e.PreparedAt c db batch i id → ∀ j id' order', i < j → batch.orders[j]? = some id' →
        e.PreparedAt c db batch j id' → db.orders.get? id' = some order' → order'.request.id = order.request.id → id' = id))

/-- The writes of a call that sends a transaction go through: those for the orders that are left out, and those for its fills. -/
def Written (c : Settlement) (db : Db) (batch : Batch) (tx : FulfillmentTx) : Prop :=
  (∀ i id, batch.orders[i]? = some id → ¬e.PreparedAt c db batch i id → c.failureWritten i = true) ∧
    ∀ k < tx.fulfillments.length, c.completeWritten k = true

end Submitting

/-- An order without what a call of the submitter may change. -/
def Order.unsettled (order : Order) : Order := { order with status := .pendingSubmission, errorMsg := none }

variable {order : Order} {db db₀ : Db} {id : OrderId} {written : Bool} {f : Order → Order} {outs : List (OrderId × Option Fulfillment)}
  {requestId : RequestId}

theorem Order.eq_of_unsettled {row : Order} (h : order.unsettled = row.unsettled) :
    order.request = row.request ∧ order.proofId = row.proofId ∧ order.imageId = row.imageId := by
  cases order
  cases row
  simp only [Order.unsettled, Order.mk.injEq] at h
  exact ⟨h.2.1, h.2.2.2.2.2.1, h.2.2.2.2.1⟩

/-- The rows are the same up to status and error. -/
def Db.SettledFrom (db db₀ : Db) : Prop :=
  ∀ id, (db.orders.get? id).map Order.unsettled = (db₀.orders.get? id).map Order.unsettled

def Db.status (db : Db) (id : OrderId) : Option OrderStatus := (db.orders.get? id).map Order.status

theorem Db.SettledFrom.refl (db : Db) : db.SettledFrom db := fun _ => rfl

theorem Db.SettledFrom.trans {db₁ : Db} (h : db.SettledFrom db₁) (h1 : db₁.SettledFrom db₀) : db.SettledFrom db₀ :=
  fun id => (h id).trans (h1 id)

theorem Db.SettledFrom.row (h : db.SettledFrom db₀)
    (hget : db₀.orders.get? id = some order) : ∃ order', db.orders.get? id = some order' ∧ order'.unsettled = order.unsettled := by
  have hrow := h id
  rw [hget, map_some] at hrow
  exact map_eq_some_iff.mp hrow

theorem Db.SettledFrom.symm (h : db.SettledFrom db₀) : db₀.SettledFrom db := fun id => (h id).symm

def Order.submission (order : Order) : Option SubmissionOrder := do
  let proofId ← order.proofId
  let imageId ← order.imageId
  let lockPrice ← order.lockPrice
  return ⟨order.request, order.clientSig, proofId, imageId, lockPrice, order.fulfillmentType⟩

theorem getSubmissionOrder_eq (db : Db) (id : OrderId) :
    (db.getSubmissionOrder id).toOption = ((db.orders.get? id).map Order.unsettled).bind Order.submission := by
  unfold Db.getSubmissionOrder
  cases db.orders.get? id with
  | none => rfl
  | some order =>
    obtain ⟨status, request, clientSig, fulfillmentType, _ | imageId, _ | proofId, compressed, expire, _ | lockPrice, msg⟩ := order <;>
      rfl

theorem getOrderCompressedProofId_eq (db : Db) (id : OrderId) :
    (db.getOrderCompressedProofId id).toOption = ((db.orders.get? id).map Order.unsettled).bind Order.compressedProofId := by
  unfold Db.getOrderCompressedProofId
  cases db.orders.get? id with
  | none => rfl
  | some order =>
    obtain ⟨status, request, clientSig, fulfillmentType, imageId, proofId, _ | compressed, expire, lockPrice, msg⟩ := order <;> rfl

namespace Submitting

variable {e : Submitting} {c : Settlement} {claimDigests : List Digest}

theorem submitOrder_congr {db db₀ : Db} (h : db.SettledFrom db₀) (i : ℕ) (id : OrderId) :
    e.submitOrder (answersOn c db i) claimDigests id = e.submitOrder (answersOn c db₀ i) claimDigests id := by
  have hread : readOrder (answersOn c db i) id = readOrder (answersOn c db₀ i) id := by
    simp only [readOrder, answersOn, getSubmissionOrder_eq, h id]
    rfl
  have hseal (order : SubmissionOrder) (digest : Digest) :
      orderSeal (answersOn c db i) claimDigests id order digest = orderSeal (answersOn c db₀ i) claimDigests id order digest := by
    simp only [orderSeal, answersOn, getOrderCompressedProofId_eq, h id]
  have hfill (order : SubmissionOrder) (imageId : Digest) :
      e.prepareFill (answersOn c db i) claimDigests id order imageId = e.prepareFill (answersOn c db₀ i) claimDigests id order imageId := by
    simp only [prepareFill, hseal]
    rfl
  simp only [submitOrder, hread, hfill]

end Submitting

theorem tried_marks {status : OrderStatus} {db' : Db}
    (hf : ∀ order, (f order).unsettled = order.unsettled ∧ (f order).status = status)
    (h : tried written (·.updateOrder id f) db = some db') :
    db'.SettledFrom db ∧ ∀ id', db'.status id' = if id' = id then some status else db.status id' := by
  unfold tried at h
  split_ifs at h
  change (db.updateOrder id f).toOption = some db' at h
  unfold Db.updateOrder at h
  cases hget : db.orders.get? id with
  | none =>
    rw [hget] at h
    cases h
  | some order =>
    rw [hget] at h
    cases h
    refine ⟨fun id' => ?_, fun id' => ?_⟩
    · rw [OrderedMap.get?_insert]
      split_ifs with heq
      · rw [heq, hget, map_some, map_some, (hf order).1]
      · rfl
    · unfold Db.status
      rw [OrderedMap.get?_insert]
      split_ifs with heq
      · rw [map_some, (hf order).2]
      · rfl

theorem tried_isSome (hwritten : written = true)
    (hrow : db.status id ≠ none) : ∃ db', tried written (·.updateOrder id f) db = some db' := by
  unfold Db.status at hrow
  obtain ⟨order, hget⟩ := ne_none_iff_exists'.mp fun hnone : db.orders.get? id = none => hrow (by rw [hnone]; rfl)
  refine ⟨{ db with orders := db.orders.insert id (f order) }, ?_⟩
  rw [tried, if_pos hwritten]
  rw [Db.updateOrder, hget]
  rfl

/-- An order that is prepared takes the place of its request id. -/
def recordFill (m : RequestId → Option OrderId) (out : OrderId × Option Fulfillment) : RequestId → Option OrderId :=
  match out.2 with
  | some fill => Function.update m fill.id (some out.1)
  | none => m

theorem recordFill_some (m : RequestId → Option OrderId) (id : OrderId) (fill : Fulfillment) (requestId : RequestId) :
    recordFill m (id, some fill) requestId = if requestId = fill.id then some id else m requestId := by
  unfold recordFill
  split_ifs with h
  · rw [h]
    exact Function.update_self ..
  · exact Function.update_of_ne h ..

theorem recordFill_last (h : outs.foldl recordFill (fun _ => none) requestId = some id) :
    ∃ (k : ℕ) (fill : Fulfillment), outs[k]? = some (id, some fill) ∧ fill.id = requestId ∧
      ∀ (j : ℕ) (id' : OrderId) (fill' : Fulfillment), k < j → outs[j]? = some (id', some fill') → fill'.id ≠ requestId := by
  induction outs using reverseRecOn with
  | nil => cases h
  | append_singleton outs out ih =>
    rw [foldl_append, foldl_cons, foldl_nil] at h
    have hbefore {k : ℕ} {x : OrderId × Option Fulfillment} (hk : outs[k]? = some x) : k < outs.length :=
      (List.getElem?_eq_some_iff.mp hk).1
    have hlast {j : ℕ} {x : OrderId × Option Fulfillment} (hj : (outs ++ [out])[j]? = some x) :
        outs[j]? = some x ∨ j = outs.length ∧ x = out := by
      rw [getElem?_append] at hj
      split_ifs at hj with hlt
      · exact .inl hj
      · obtain ⟨hzero, hx⟩ := List.getElem?_eq_some_iff.mp hj
        rw [length_singleton] at hzero
        have heq : j - outs.length = 0 := by omega
        refine .inr ⟨by omega, hx.symm.trans ?_⟩
        simp only [heq, getElem_cons_zero]
    obtain ⟨id₁, fill₁⟩ := out
    have hearlier (hother : ∀ fill : Fulfillment, fill₁ = some fill → fill.id ≠ requestId)
        (h : outs.foldl recordFill (fun _ => none) requestId = some id) :
        ∃ (k : ℕ) (fill : Fulfillment), (outs ++ [(id₁, fill₁)])[k]? = some (id, some fill) ∧ fill.id = requestId ∧
          ∀ (j : ℕ) (id' : OrderId) (fill' : Fulfillment), k < j → (outs ++ [(id₁, fill₁)])[j]? = some (id', some fill') → fill'.id ≠ requestId := by
      obtain ⟨k, fill, hk, hid, hafter⟩ := ih h
      refine ⟨k, fill, by rw [getElem?_append_left (hbefore hk)]; exact hk, hid, fun j id' fill' hj hget => ?_⟩
      obtain hget | ⟨-, hget⟩ := hlast hget
      · exact hafter j id' fill' hj hget
      · exact hother fill' (Prod.mk.inj hget).2.symm
    cases fill₁ with
    | none => exact hearlier (fun fill hfill => by cases hfill) h
    | some fill₁ =>
      rw [recordFill_some] at h
      split_ifs at h with hid
      · refine ⟨outs.length, fill₁, ?_, hid.symm, fun j id' fill' hj hget => ?_⟩
        · rw [getElem?_append_right le_rfl, Nat.sub_self, ← Option.some.inj h]
          rfl
        · have hlt := (List.getElem?_eq_some_iff.mp hget).1
          rw [length_append, length_singleton] at hlt
          omega
      · refine hearlier (fun fill hfill heq => hid ?_) h
        rw [Option.some.inj hfill, heq]

theorem recordFill_ne_none {m : RequestId → Option OrderId}
    (h : m requestId ≠ none ∨ ∃ (id : OrderId) (fill : Fulfillment), (id, some fill) ∈ outs ∧ fill.id = requestId) :
    outs.foldl recordFill m requestId ≠ none := by
  induction outs generalizing m with
  | nil => exact h.elim id fun ⟨id, fill, hmem, _⟩ => by cases hmem
  | cons out outs ih =>
    refine ih ?_
    obtain ⟨id₁, fill₁⟩ := out
    obtain hm | ⟨id, fill, hmem, hid⟩ := h
    · refine .inl ?_
      cases fill₁ with
      | none => exact hm
      | some fill₁ =>
        rw [recordFill_some]
        split_ifs with heq
        · exact some_ne_none _
        · exact hm
    · obtain heq | hmem := mem_cons.mp hmem
      · cases heq
        refine .inl ?_
        rw [recordFill_some, if_pos hid.symm]
        exact some_ne_none _
      · exact .inr ⟨id, fill, hmem, hid⟩

namespace Submitting

variable {e : Submitting} {c : Settlement} {claimDigests : List Digest}

/-- What the loop over the orders of a batch has done, by what came of each order. -/
structure Gathers (e : Submitting) (c : Settlement) (claimDigests : List Digest) (db₀ : Db) (i : ℕ) (ids : List OrderId)
    (g : Gathered) (db : Db) (outs : List (OrderId × Option Fulfillment)) (g' : Gathered) (db' : Db) : Prop where
  outs_ids : outs.map Prod.fst = ids
  transaction : ∃ requests, e.submitOrders (answersOn c db₀) claimDigests i ids = .ok (requests, outs.filterMap Prod.snd) ∧
    g'.requestsToPrice = g.requestsToPrice ++ requests
  fulfillments : g'.fulfillments = g.fulfillments ++ outs.filterMap Prod.snd
  orders : g'.fulfillmentToOrderId = outs.foldl recordFill g.fulfillmentToOrderId
  rows : db'.SettledFrom db
  prepared : ∀ k id out, outs[k]? = some (id, out) → (out.isSome ↔ e.Prepared (answersOn c db₀ (i + k)) claimDigests id) ∧
    ∀ fill, out = some fill → ∃ order proofId imageId,
      e.Prepares (answersOn c db₀ (i + k)) claimDigests id order proofId imageId ∧
        e.FillOf order imageId (e.proofs.journal proofId) fill
  statuses : ∀ id, db'.status id = db.status id ∨ db'.status id = some .failed ∧ (id, none) ∈ outs
  failures : (∀ k id, outs[k]? = some (id, none) → c.failureWritten (i + k) = true) →
    ∀ id, (id, none) ∈ outs → db.status id ≠ none → db'.status id = some .failed

theorem marks_failure (written : Bool) (id : OrderId) (failure : String) (db : Db) :
    ((tried written (·.setOrderFailure id failure) db).getD db).SettledFrom db ∧
      (∀ id', ((tried written (·.setOrderFailure id failure) db).getD db).status id' = db.status id' ∨
        ((tried written (·.setOrderFailure id failure) db).getD db).status id' = some .failed ∧ id' = id) ∧
      (written = true → db.status id ≠ none →
        ((tried written (·.setOrderFailure id failure) db).getD db).status id = some .failed) := by
  have hmarks {db' : Db} (h : tried written (·.setOrderFailure id failure) db = some db') :
      db'.SettledFrom db ∧ ∀ id', db'.status id' = if id' = id then some .failed else db.status id' :=
    tried_marks (f := fun order => { order with status := .failed, errorMsg := some failure }) (fun _ => ⟨rfl, rfl⟩) h
  cases htried : tried written (·.setOrderFailure id failure) db with
  | none =>
    refine ⟨.refl db, fun _ => .inl rfl, fun hwritten hrow => ?_⟩
    obtain ⟨db', hdb'⟩ := tried_isSome (f := fun order => { order with status := .failed, errorMsg := some failure }) hwritten hrow
    cases htried.symm.trans hdb'
  | some db' =>
    obtain ⟨hrows, hstatus⟩ := hmarks htried
    refine ⟨hrows, fun id' => ?_, fun _ _ => ?_⟩
    · rw [getD_some, hstatus]
      split_ifs with heq
      · exact .inr ⟨rfl, heq⟩
      · exact .inl rfl
    · rw [getD_some, hstatus, if_pos rfl]

variable {db db₀ db' : Db} {g : Gathered} {u : Unit} {batch : Batch}

theorem status_ne_none (h : db.SettledFrom db₀) {id : OrderId} (hrow : db₀.status id ≠ none) : db.status id ≠ none := by
  obtain ⟨order, hget, -⟩ := map_eq_some_iff.mp (ne_none_iff_exists'.mp hrow).choose_spec
  obtain ⟨order', hget', -⟩ := h.row hget
  rw [Db.status, hget']
  exact some_ne_none _

theorem gather_ok {i : ℕ} {ids : List OrderId} {g' : Gathered} (hrows : db.SettledFrom db₀)
    (h : e.gather c claimDigests i ids g db = (.ok g', db')) : ∃ outs, Gathers e c claimDigests db₀ i ids g db outs g' db' := by
  induction ids generalizing i g db with
  | nil =>
    obtain ⟨rfl, rfl⟩ := pure_ok.mp h
    exact ⟨[], rfl, ⟨[], rfl, (append_nil _).symm⟩, (append_nil _).symm, rfl, .refl _, fun _ _ _ hget => (by cases hget),
      fun _ => .inl rfl, fun _ _ hmem => (by cases hmem)⟩
  | cons id rest ih =>
    unfold gather at h
    obtain ⟨⟨requests, out⟩, mid, hone, h⟩ := bind_ok.mp h
    obtain ⟨hone, rfl⟩ := reading_ok.mp hone
    have hfresh : e.submitOrder (answersOn c db₀ i) claimDigests id = .ok (requests, out) :=
      (submitOrder_congr hrows i id).symm.trans hone
    obtain ⟨hprepared, hfill⟩ := submitOrder_ok hfresh
    -- the order itself stands at the front, what the rest has done after it
    have hcons {outs : List (OrderId × Option Fulfillment)}
        (hrest : ∀ k id out, outs[k]? = some (id, out) → (out.isSome ↔ e.Prepared (answersOn c db₀ (i + 1 + k)) claimDigests id) ∧
          ∀ fill, out = some fill → ∃ order proofId imageId,
            e.Prepares (answersOn c db₀ (i + 1 + k)) claimDigests id order proofId imageId ∧
              e.FillOf order imageId (e.proofs.journal proofId) fill) :
        ∀ k id' out', ((id, out) :: outs)[k]? = some (id', out') →
          (out'.isSome ↔ e.Prepared (answersOn c db₀ (i + k)) claimDigests id') ∧
          ∀ fill, out' = some fill → ∃ order proofId imageId,
            e.Prepares (answersOn c db₀ (i + k)) claimDigests id' order proofId imageId ∧
              e.FillOf order imageId (e.proofs.journal proofId) fill := by
      rintro (_ | k) id' out' hget
      · obtain ⟨rfl, rfl⟩ := Prod.mk.inj (Option.some.inj hget)
        exact ⟨hprepared, hfill⟩
      · rw [show i + (k + 1) = i + 1 + k by ring]
        exact hrest k id' out' hget
    have hlater {outs : List (OrderId × Option Fulfillment)}
        (hwritten : ∀ k id', ((id, out) :: outs)[k]? = some (id', none) → c.failureWritten (i + k) = true) :
        ∀ k id', outs[k]? = some (id', none) → c.failureWritten (i + 1 + k) = true := by
      intro k id' hget
      rw [show i + 1 + k = i + (k + 1) by ring]
      exact hwritten (k + 1) id' hget
    cases out with
    | some fill =>
      obtain ⟨outs, hgathers⟩ := ih hrows h
      obtain ⟨requests', hsubmit, hprice⟩ := hgathers.transaction
      refine ⟨(id, some fill) :: outs, ⟨by rw [map_cons, hgathers.outs_ids], ⟨requests ++ requests', ?_, ?_⟩, ?_, ?_,
        hgathers.rows, hcons hgathers.prepared, fun id' => ?_, fun hwritten id' hmem => ?_⟩⟩
      · rw [submitOrders, hfresh]
        simp only [hsubmit]
        rfl
      · rw [hprice, append_assoc]
      · rw [hgathers.fulfillments]
        exact append_assoc g.fulfillments [fill] _
      · exact hgathers.orders
      · exact (hgathers.statuses id').imp_right (And.imp_right (mem_cons_of_mem _))
      · obtain heq | hmem := mem_cons.mp hmem
        · cases heq
        · exact hgathers.failures (hlater hwritten) id' hmem
    | none =>
      obtain ⟨⟨⟩, failed, hwrite, h⟩ := bind_ok.mp h
      obtain rfl := writing_ok.mp hwrite
      obtain ⟨hmarked, hstatus, hfailed⟩ := marks_failure (c.failureWritten i) id "Failed to submit" mid
      obtain ⟨outs, hgathers⟩ := ih (hmarked.trans hrows) h
      obtain ⟨requests', hsubmit, hprice⟩ := hgathers.transaction
      refine ⟨(id, none) :: outs, ⟨by rw [map_cons, hgathers.outs_ids], ⟨requests ++ requests', ?_, ?_⟩, ?_, ?_,
        hgathers.rows.trans hmarked, hcons hgathers.prepared, fun id' => ?_, fun hwritten id' hmem hrow => ?_⟩⟩
      · rw [submitOrders, hfresh]
        simp only [hsubmit]
        rfl
      · rw [hprice, append_assoc]
      · rw [hgathers.fulfillments]
        rfl
      · exact hgathers.orders
      · obtain hsame | ⟨hlast, hmem⟩ := hgathers.statuses id'
        · rw [hsame]
          obtain hkept | ⟨hlast, heq⟩ := hstatus id'
          · exact .inl hkept
          · exact .inr ⟨hlast, heq ▸ mem_cons_self⟩
        · exact .inr ⟨hlast, mem_cons_of_mem _ hmem⟩
      · obtain heq | hmem := mem_cons.mp hmem
        · obtain rfl := (Prod.mk.inj heq).1
          obtain hsame | ⟨hlast, -⟩ := hgathers.statuses id'
          · rw [hsame, hfailed (hwritten 0 _ rfl) hrow]
          · exact hlast
        · exact hgathers.failures (hlater hwritten) id' hmem (status_ne_none hmarked hrow)

theorem complete_ok {k : ℕ} {fills : List Fulfillment} (h : complete c g k fills db = (.ok u, db')) :
    db'.SettledFrom db ∧
      (∀ id, db'.status id = db.status id ∨
        db'.status id = some .done ∧ ∃ fill ∈ fills, g.fulfillmentToOrderId fill.id = some id) ∧
      ((∀ j < fills.length, c.completeWritten (k + j) = true) → ∀ fill ∈ fills, ∀ id,
        g.fulfillmentToOrderId fill.id = some id → db.status id ≠ none → db'.status id = some .done) := by
  induction fills generalizing k db with
  | nil =>
    obtain ⟨-, rfl⟩ := pure_ok.mp h
    exact ⟨.refl _, fun _ => .inl rfl, fun _ _ hmem => by cases hmem⟩
  | cons fill rest ih =>
    unfold complete at h
    cases hid : g.fulfillmentToOrderId fill.id with
    | none =>
      rw [hid] at h
      cases h
    | some id =>
      simp only [hid] at h
      have hlater (hwritten : ∀ j < (fill :: rest).length, c.completeWritten (k + j) = true) :
          ∀ j < rest.length, c.completeWritten (k + 1 + j) = true := by
        intro j hj
        rw [show k + 1 + j = k + (j + 1) by ring]
        exact hwritten (j + 1) (Nat.succ_lt_succ hj)
      cases htried : tried (c.completeWritten k) (·.setOrderComplete id) db with
      | none =>
        simp only [htried] at h
        obtain ⟨hrows, hstatus, hdone⟩ := ih h
        refine ⟨hrows, fun id' => (hstatus id').imp_right (And.imp_right fun ⟨fill', hmem, heq⟩ =>
          ⟨fill', mem_cons_of_mem _ hmem, heq⟩), fun hwritten fill' hmem id' hid' hrow => ?_⟩
        obtain rfl | hmem := mem_cons.mp hmem
        · obtain rfl := Option.some.inj (hid.symm.trans hid')
          obtain ⟨db₁, hdb1⟩ := tried_isSome (f := fun order => { order with status := .done }) (hwritten 0 (Nat.succ_pos _)) hrow
          cases htried.symm.trans hdb1
        · exact hdone (hlater hwritten) fill' hmem id' hid' hrow
      | some mid =>
        simp only [htried] at h
        cases hdecimals : c.collateralTokenDecimals k with
        | error err =>
          simp only [hdecimals] at h
          cases h
        | ok u =>
          simp only [hdecimals] at h
          obtain ⟨hmarked, hmark⟩ : mid.SettledFrom db ∧ ∀ id', mid.status id' = if id' = id then some .done else db.status id' :=
            tried_marks (f := fun order => { order with status := .done }) (fun _ => ⟨rfl, rfl⟩) htried
          obtain ⟨hrows, hstatus, hdone⟩ := ih h
          refine ⟨hrows.trans hmarked, fun id' => ?_, fun hwritten fill' hmem id' hid' hrow => ?_⟩
          · obtain hsame | ⟨hlast, fill', hmem, heq⟩ := hstatus id'
            · rw [hsame, hmark]
              split_ifs with heq
              · exact .inr ⟨rfl, fill, mem_cons_self, heq ▸ hid⟩
              · exact .inl rfl
            · exact .inr ⟨hlast, fill', mem_cons_of_mem _ hmem, heq⟩
          · obtain rfl | hmem := mem_cons.mp hmem
            · obtain rfl := Option.some.inj (hid.symm.trans hid')
              obtain hsame | ⟨hlast, -⟩ := hstatus id
              · rw [hsame, hmark, if_pos rfl]
              · exact hlast
            · exact hdone (hlater hwritten) fill' hmem id' hid' (status_ne_none hmarked hrow)

theorem handleExpiredRequests_ok (h : handleExpiredRequests c batch db = (.ok u, db')) :
    checkExpired { c.call with db } batch = .ok () ∧ db' = db := by
  unfold handleExpiredRequests at h
  split at h
  next hcheck => exact ⟨hcheck, (Prod.mk.inj h).2.symm⟩
  all_goals cases h

theorem handleFulfillmentError_ok {x : Except SubmitterErr Unit}
    (h : handleFulfillmentError c g x db = (.ok u, db')) : x = .ok () ∧ db' = db := by
  unfold handleFulfillmentError at h
  split at h
  next => exact ⟨rfl, (Prod.mk.inj h).2.symm⟩
  all_goals cases h

theorem sendRoot_ok {root : Digest} {batchSeal : Bytes} {sent : Option (Digest × Bytes)}
    (h : sendRoot c g root batchSeal db = (.ok sent, db')) : db' = db ∧
      (c.call.singleTxnFulfill = true ∧ sent = some (root, batchSeal) ∨
        c.call.singleTxnFulfill = false ∧ c.call.submitMerkleRoot = .ok () ∧ sent = none) := by
  unfold sendRoot at h
  split_ifs at h with hsingle
  · obtain ⟨rfl, rfl⟩ := pure_ok.mp h
    exact ⟨rfl, .inl ⟨hsingle, rfl⟩⟩
  · obtain ⟨u, mid, herror, hnone⟩ := bind_ok.mp h
    obtain ⟨hroot, rfl⟩ := handleFulfillmentError_ok herror
    obtain ⟨rfl, rfl⟩ := pure_ok.mp hnone
    exact ⟨rfl, .inr ⟨Bool.eq_false_of_not_eq_true hsingle, hroot, rfl⟩⟩

/-- A call that returns has gathered its orders, sent the transaction for them, and then recorded its fills. -/
theorem settleBatch_ok {tx : FulfillmentTx} (h : e.settleBatch c batch db = (.ok tx, db')) :
    e.submitBatch { c.call with db, answers := answersOn c db } batch = .ok tx ∧
      ∃ outs g mid u, Gathers e c batch.claimDigests db 0 batch.orders .new db outs g mid ∧
        tx.fulfillments = outs.filterMap Prod.snd ∧ complete c g 0 tx.fulfillments mid = (.ok u, db') := by
  simp only [settleBatch, bind_ok, fallible_ok, pure_ok] at h
  obtain ⟨state, _, ⟨hstate, rfl⟩, proofId, _, ⟨hproof, rfl⟩, _, _, ⟨hdigests, rfl⟩, assessorProofId, _, ⟨hassessor, rfl⟩,
    finalizedRoot, _, ⟨hroot, rfl⟩, _, _, hexpired, batchSeal, _, ⟨hseal, rfl⟩, _, _, ⟨hconsistent, rfl⟩, journal, _,
    ⟨hjournal, rfl⟩, g, mid, hgather, _, _, ⟨hclaim, rfl⟩, assessorSeal, _, ⟨hassessorSeal, rfl⟩, sent, _, hsent, _, _, hfulfill,
    u, _, hcomplete, rfl, rfl⟩ := h
  obtain ⟨hcheck, rfl⟩ := handleExpiredRequests_ok hexpired
  obtain ⟨rfl, hsend⟩ := sendRoot_ok hsent
  obtain ⟨-, rfl⟩ := handleFulfillmentError_ok hfulfill
  have hsame : batch.claimDigests = state.claimDigests := by
    rw [Batch.claimDigests, (orUnexpected_ok_iff _ _ _).mp hstate]
    rfl
  obtain ⟨outs, hgathers⟩ := gather_ok (.refl _) hgather
  obtain ⟨requests, hsubmit, hprice⟩ := hgathers.transaction
  refine ⟨?_, outs, g, _, u, hsame ▸ hgathers, hgathers.fulfillments, hcomplete⟩
  have hfills : g.fulfillments = outs.filterMap Prod.snd := hgathers.fulfillments
  have hrequests : g.requestsToPrice = requests := hprice
  simp only [submitBatch, bind_ok_iff, Prod.exists]
  refine ⟨state, hstate, proofId, hproof, _, hdigests, assessorProofId, hassessor, finalizedRoot, hroot, _, hcheck, batchSeal,
    hseal, _, hconsistent, journal, hjournal, _, _, hsubmit, _, hclaim, assessorSeal, hassessorSeal, ?_⟩
  rw [hfills, hrequests]
  obtain ⟨hsingle, rfl⟩ | ⟨hsingle, hmerkle, rfl⟩ := hsend
  · rw [if_pos hsingle]
    rfl
  · rw [if_neg (by rw [hsingle]; exact Bool.false_ne_true), bind_ok_iff]
    exact ⟨(), hmerkle, rfl⟩

theorem FillOf.congr {order order' : Order} {imageId : Digest} {journal : Bytes} {fill : Fulfillment}
    (hrequest : order'.request = order.request) (h : e.FillOf order imageId journal fill) : e.FillOf order' imageId journal fill := by
  refine ⟨?_, ?_, ?_, ?_⟩
  all_goals rw [hrequest]
  · exact h.id
  · exact h.requestDigest
  · exact h.claim
  · exact h.data

section Ends

variable {batch : Batch} {db mid db' : Db} {outs : List (OrderId × Option Fulfillment)} {g : Gathered}
variable {id : OrderId}

variable (h : Gathers e c batch.claimDigests db 0 batch.orders .new db outs g mid)

include h

theorem Gathers.position {i : ℕ} : batch.orders[i]? = some id ↔ ∃ out, outs[i]? = some (id, out) := by
  rw [← h.outs_ids, getElem?_map, map_eq_some_iff]
  constructor
  · rintro ⟨⟨id', out⟩, hget, rfl⟩
    exact ⟨out, hget⟩
  · rintro ⟨out, hget⟩
    exact ⟨(id, out), hget, rfl⟩

/-- A fill that was gathered is the one that the row of its order asks for, then and later. -/
theorem Gathers.fulfils (hrows : db'.SettledFrom db)
    {k : ℕ} {fill : Fulfillment} (hget : outs[k]? = some (id, some fill)) {order : Order}
    (horder : db'.orders.get? id = some order) : e.Fulfils order fill ∧ fill.id = order.request.id := by
  obtain ⟨-, hfill⟩ := h.prepared k id (some fill) hget
  obtain ⟨row, proofId, imageId, hprepares, hof⟩ := hfill fill rfl
  obtain ⟨order', horder', hsame⟩ := hrows.row hprepares.row
  obtain rfl := Option.some.inj (horder.symm.trans horder')
  obtain ⟨hrequest, hproof, himage⟩ := Order.eq_of_unsettled hsame
  exact ⟨⟨proofId, imageId, hproof.trans hprepares.proven, by rw [himage]; exact hprepares.image, hof.congr hrequest⟩,
    hof.id.trans (congrArg ProofRequest.id hrequest.symm)⟩

/-- The order that a request id stands for is the last one that was prepared for it. -/
theorem Gathers.last {requestId : RequestId}
    (hmap : g.fulfillmentToOrderId requestId = some id) : ∃ (k : ℕ) (fill : Fulfillment), outs[k]? = some (id, some fill) ∧
      fill.id = requestId ∧ ∀ (j : ℕ) (id' : OrderId) (fill' : Fulfillment), k < j → outs[j]? = some (id', some fill') → fill'.id ≠ requestId := by
  rw [h.orders] at hmap
  exact recordFill_last hmap

theorem Gathers.preparedAt_iff {k : ℕ} {out : Option Fulfillment} (hget : outs[k]? = some (id, out)) :
    out.isSome ↔ e.PreparedAt c db batch k id := by
  have hiff := (h.prepared k id out hget).1
  rwa [Nat.zero_add] at hiff

/-- An order that no later one takes the place of stands for its request id. -/
theorem Gathers.last_lone {i : ℕ} {fill : Fulfillment} {order : Order} (hfill : outs[i]? = some (id, some fill))
    (hget : db.orders.get? id = some order)
    (hlone : e.PreparedAt c db batch i id → ∀ j id' order', i < j → batch.orders[j]? = some id' → e.PreparedAt c db batch j id' →
      db.orders.get? id' = some order' → order'.request.id = order.request.id → id' = id) :
    g.fulfillmentToOrderId fill.id = some id := by
  have hmapped : g.fulfillmentToOrderId fill.id ≠ none := by
    rw [h.orders]
    exact recordFill_ne_none (.inr ⟨id, fill, List.mem_of_getElem? hfill, rfl⟩)
  obtain ⟨id', hmap⟩ := Option.ne_none_iff_exists'.mp hmapped
  obtain ⟨k, fill', hk, hsameId, hafter⟩ := h.last hmap
  obtain hlt | rfl | hgt := lt_trichotomy k i
  · exact (hafter i id fill hlt hfill rfl).elim
  · obtain rfl := (Prod.mk.inj (Option.some.inj (hk.symm.trans hfill))).1
    exact hmap
  · obtain ⟨order', proofId, imageId, hprepares, -⟩ := (h.prepared k id' _ hk).2 fill' rfl
    have hid := (h.fulfils (.refl db) hfill hget).2
    have hid' := (h.fulfils (.refl db) hk hprepares.row).2
    have hself : id' = id := hlone ((h.preparedAt_iff hfill).mp rfl) k id' order' hgt (h.position.mpr ⟨_, hk⟩)
      ((h.preparedAt_iff hk).mp rfl) hprepares.row (hid'.symm.trans (hsameId.trans hid))
    rw [← hself]
    exact hmap

end Ends

/-- After a call that returns, each order is done or failed if the writes went through, each order has a row, and no order
that waits was prepared before another one of the same request id; and it is so only if the latter two hold. -/
theorem settleBatch_settles_iff (e : Submitting) (c : Settlement) (batch : Batch) (db db' : Db) (tx : FulfillmentTx)
    (h : e.settleBatch c batch db = (.ok tx, db')) :
    (e.Written c db batch tx → e.Settleable c db batch → e.Settled db' tx batch.orders) ∧
      (e.Settled db' tx batch.orders → e.Settleable c db batch) := by
  obtain ⟨-, outs, g, mid, u, hgathers, hfills, hcomplete⟩ := settleBatch_ok h
  obtain ⟨hlater, hstatus, hdone⟩ := complete_ok hcomplete
  have hrows := hlater.trans hgathers.rows
  have hsent {k : ℕ} {id : OrderId} {fill : Fulfillment} (hget : outs[k]? = some (id, some fill)) : fill ∈ tx.fulfillments := by
    rw [hfills]
    exact List.mem_filterMap.mpr ⟨_, List.mem_of_getElem? hget, rfl⟩
  have hstatusOf {db : Db} {id : OrderId} {order : Order} (hget : db.orders.get? id = some order) : db.status id = some order.status := by
    rw [Db.status, hget]
    rfl
  constructor
  · rintro ⟨hfailures, hcompletes⟩ hsettleable id hmem
    obtain ⟨order₀, hget₀, hwaits⟩ := hsettleable id hmem
    obtain ⟨order, hget, hsame⟩ := hrows.row hget₀
    refine ⟨order, hget, ?_⟩
    have hnow := hstatusOf hget
    have hbefore := hstatusOf hget₀
    by_cases hout : (id, none) ∈ outs
    · -- its failure is recorded, unless another occurrence of it was sent
      have hlost (k : ℕ) (id' : OrderId) (hget' : outs[k]? = some (id', none)) : c.failureWritten (0 + k) = true := by
        rw [Nat.zero_add]
        exact hfailures k id' (hgathers.position.mpr ⟨none, hget'⟩)
          fun hprepared => absurd ((hgathers.preparedAt_iff hget').mpr hprepared) Bool.false_ne_true
      have hfailed := hgathers.failures hlost id hout (by rw [hbefore]; exact Option.some_ne_none _)
      obtain hkept | ⟨hlast, fill, hmem, hmap⟩ := hstatus id
      · rw [hkept, hfailed] at hnow
        exact .inr (Option.some.inj hnow).symm
      · obtain ⟨k, fill', hget', -⟩ := hgathers.last hmap
        rw [hlast] at hnow
        exact .inl ⟨(Option.some.inj hnow).symm, fill', hsent hget', (hgathers.fulfils hrows hget' hget).1⟩
    · have hprepared {i : ℕ} (hi : batch.orders[i]? = some id) : ∃ fill, outs[i]? = some (id, some fill) := by
        obtain ⟨out, hout'⟩ := hgathers.position.mp hi
        cases out with
        | none => exact (hout (List.mem_of_getElem? hout')).elim
        | some fill => exact ⟨fill, hout'⟩
      obtain ⟨i, hi⟩ := List.mem_iff_getElem?.mp hmem
      obtain ⟨fill, hfill⟩ := hprepared hi
      have hfulfils := (hgathers.fulfils hrows hfill hget).1
      have hkept : mid.status id = db.status id := (hgathers.statuses id).resolve_right fun hfailed => hout hfailed.2
      have hends : order.status = order₀.status ∨ order.status = .done := by
        obtain hsame | ⟨hlast, -⟩ := hstatus id
        · rw [hsame, hkept, hbefore] at hnow
          exact .inl (Option.some.inj hnow).symm
        · rw [hlast] at hnow
          exact .inr (Option.some.inj hnow).symm
      obtain hwas | hwas | ⟨i', hi', hlone⟩ := hwaits
      · exact .inl ⟨hends.elim (·.trans hwas) (·), fill, hsent hfill, hfulfils⟩
      · obtain hsame | hlast := hends
        · exact .inr (hsame.trans hwas)
        · exact .inl ⟨hlast, fill, hsent hfill, hfulfils⟩
      · obtain ⟨fill', hfill'⟩ := hprepared hi'
        have hmap := hgathers.last_lone hfill' hget₀ hlone
        have hlast := hdone (fun j hj => hcompletes (0 + j) ((Nat.zero_add j).symm ▸ hj)) fill' (hsent hfill') id hmap (by rw [hkept, hbefore]; exact Option.some_ne_none _)
        rw [hlast] at hnow
        exact .inl ⟨(Option.some.inj hnow).symm, fill', hsent hfill', (hgathers.fulfils hrows hfill' hget).1⟩
  · intro hsettled id hmem
    obtain ⟨order, hget, hends⟩ := hsettled id hmem
    obtain ⟨order₀, hget₀, -⟩ := hrows.symm.row hget
    refine ⟨order₀, hget₀, ?_⟩
    have hnow := hstatusOf hget
    have hbefore := hstatusOf hget₀
    obtain hkept | ⟨-, fill, -, hmap⟩ := hstatus id
    · obtain hkept' | ⟨-, hout⟩ := hgathers.statuses id
      · -- nobody wrote to it
        rw [hkept, hkept', hbefore] at hnow
        rw [Option.some.inj hnow]
        exact hends.imp (·.1) .inl
      · obtain ⟨i, hi⟩ := List.mem_iff_getElem?.mp hout
        refine .inr (.inr ⟨i, hgathers.position.mpr ⟨none, hi⟩, fun hprepared => ?_⟩)
        exact absurd ((hgathers.preparedAt_iff hi).mpr hprepared) Bool.false_ne_true
    · obtain ⟨k, fill', hk, hsameId, hafter⟩ := hgathers.last hmap
      refine .inr (.inr ⟨k, hgathers.position.mpr ⟨_, hk⟩, fun _ j id' order' hj hid' hprepared horder' hrequest => ?_⟩)
      obtain ⟨out, hout⟩ := hgathers.position.mp hid'
      obtain ⟨fill'', rfl⟩ := Option.isSome_iff_exists.mp ((hgathers.preparedAt_iff hout).mpr hprepared)
      have hid := (hgathers.fulfils (.refl db) hk hget₀).2
      have hid'' := (hgathers.fulfils (.refl db) hout horder').2
      exact (hafter j id' fill'' hj hout (hid''.trans (hrequest.trans (hid.symm.trans hsameId)))).elim

end Submitting

section Sample

open Submitting

/-- Both journals are there, every write goes through, and the transaction is confirmed. -/
def sampleSettlement : Settlement where
  call := sampleCall fun _ => true
  failureWritten := fun _ => true
  givenUpWritten := fun _ => true
  completeWritten := fun _ => true
  fulfill := .ok ()
  collateralTokenDecimals := fun _ => .ok ()

theorem settleBatch_settles_two : ∃ tx db',
    sampleSubmitting.settleBatch sampleSettlement submittedBatch submittedSystem.db = (.ok tx, db') ∧
      sampleSubmitting.Settled db' tx [0, 1] := by
  cases hrun : sampleSubmitting.settleBatch sampleSettlement submittedBatch submittedSystem.db with
  | mk result db' =>
    have hok : (sampleSubmitting.settleBatch sampleSettlement submittedBatch submittedSystem.db).1.toBool = true := by decide
    rw [hrun] at hok
    cases result with
    | error => cases hok
    | ok tx =>
      refine ⟨tx, db', rfl, (settleBatch_settles_iff _ _ _ _ _ _ hrun).1 ⟨fun _ _ _ _ => rfl, fun _ _ => rfl⟩ ?_⟩
      have hrow (id : OrderId) (hid : id = 0 ∨ id = 1) : ∃ order, submittedSystem.db.orders.get? id = some order ∧
          order.request.id = sampleOrder.request.id + BitVec.ofNat 256 id := by
        have hrequest : (submittedSystem.db.orders.get? id).map (fun order => order.request.id) =
            some (sampleOrder.request.id + BitVec.ofNat 256 id) := by
          obtain rfl | rfl := hid <;> decide
        exact Option.map_eq_some_iff.mp hrequest
      have hposition {i : ℕ} {id : OrderId} (h : submittedBatch.orders[i]? = some id) : id = i ∧ (id = 0 ∨ id = 1) := by
        rcases i with _ | _ | i
        · exact ⟨(Option.some.inj h).symm, .inl (Option.some.inj h).symm⟩
        · exact ⟨(Option.some.inj h).symm, .inr (Option.some.inj h).symm⟩
        · cases h
      intro id hmem
      obtain ⟨i, hi⟩ := List.mem_iff_getElem?.mp hmem
      obtain ⟨order, hget, hid⟩ := hrow id (hposition hi).2
      refine ⟨order, hget, .inr (.inr ⟨i, hi, fun _ j id' order' hj hid' _ horder' hsame => ?_⟩)⟩
      obtain ⟨order'', hget'', hid''⟩ := hrow id' (hposition hid').2
      obtain rfl := Option.some.inj (horder'.symm.trans hget'')
      rw [hid, hid''] at hsame
      obtain rfl | rfl := (hposition hi).2 <;> obtain rfl | rfl := (hposition hid').2
      · rfl
      · exact absurd hsame (by decide)
      · exact absurd hsame (by decide)
      · rfl

/-- The same request by another way of fulfilment. -/
def twinOrder : OrderRequest := { sampleOrder with fulfillmentType := .fulfillAfterLockExpire }

/-- Both orders of the one request are batched together. -/
def twinEvents : List Broker.Event := [.accept 0 sampleOrder 1, .accept 1 twinOrder 1] ++ submittingEvents.drop 2

/-- The database when their batch is handed out. -/
def twinSystem : System := (System.start.follow sampleSubmitting.proofs (fun _ _ => True) twinEvents).getD .start

theorem twinSystem_run : System.Run sampleSubmitting.proofs (fun _ _ => True) twinSystem := by
  have hsome : (System.start.follow sampleSubmitting.proofs (fun _ _ => True) twinEvents).isSome = true := by decide
  obtain ⟨s, hs⟩ := isSome_iff_exists.mp hsome
  rw [twinSystem, hs, getD_some]
  exact System.Run.start.follow hs

/-- Only the later one of the two orders is recorded as done, and the other one waits on. -/
theorem not_settled_twins : ¬ ∀ (e : Submitting) (s : System), System.Run e.proofs (fun _ _ => True) s →
    ∀ (batchId : BatchId) (batch : Batch), s.submitter = .submitting batchId batch → ∀ (c : Settlement) (tx : FulfillmentTx) (db : Db),
      e.Written c s.db batch tx → e.settleBatch c batch s.db = (.ok tx, db) → e.Settled db tx batch.orders := by
  intro hall
  have hok : (sampleSubmitting.settleBatch sampleSettlement submittedBatch twinSystem.db).1.toBool = true := by decide
  have hstatus : (sampleSubmitting.settleBatch sampleSettlement submittedBatch twinSystem.db).2.status 0 =
      some .pendingSubmission := by decide
  cases hrun : sampleSubmitting.settleBatch sampleSettlement submittedBatch twinSystem.db with
  | mk result db =>
    rw [hrun] at hok hstatus
    cases result with
    | error => cases hok
    | ok tx =>
      have hsettled := hall sampleSubmitting twinSystem twinSystem_run 0 submittedBatch (by decide) sampleSettlement tx db
        ⟨fun _ _ _ _ => rfl, fun _ _ => rfl⟩ hrun
      obtain ⟨order, hget, hends⟩ := hsettled 0 List.mem_cons_self
      have hpending : some order.status = some .pendingSubmission := by
        rw [← hstatus, Db.status, hget]
        rfl
      rw [Option.some.inj hpending] at hends
      obtain ⟨hdone, -⟩ | hfailed := hends
      · cases hdone
      · cases hfailed

end Sample

end VerifiableCompute.Broker
