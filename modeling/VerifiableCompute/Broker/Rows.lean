import VerifiableCompute.Broker.Services

/-! What the calls of the database leave of the rows. An order that was accepted keeps its terms and its
proof, whatever is written over its status; the status alone says little. -/

namespace VerifiableCompute.Broker

open Lib OrderRequest List OrderedMap

def OrderStatus.Settled (status : OrderStatus) : Prop := status = .pendingSubmission ∨ status = .done ∨ status = .failed

/-- An order waits for the aggregator in the way of its kind. -/
structure OrderStatus.Fits (status : OrderStatus) (compressionType : CompressionType) : Prop where
  plain : status = .pendingAgg ∨ status = .aggregating → compressionType = .none
  compressed : status = .skipAggregation → compressionType ≠ .none

theorem OrderStatus.Settled.fits {status : OrderStatus} (h : status.Settled) (compressionType : CompressionType) : status.Fits compressionType := by
  obtain rfl | rfl | rfl := h <;> exact ⟨by simp, by simp⟩

def Order.origin (order : Order) : OrderRequest := ⟨order.request, order.clientSig, order.fulfillmentType, order.imageId, order.expireTimestamp⟩

/-- What an accepted order keeps. -/
structure Order.Follows (order' order : Order) : Prop where
  origin : order'.origin = order.origin
  lockPrice : order'.lockPrice = order.lockPrice
  proofId : ∀ proofId, order.proofId = some proofId → order'.proofId = some proofId
  accepted : order.status ≠ .skipped → order'.status ≠ .skipped
  taken : order.status ≠ .pendingProving → order'.status ≠ .pendingProving

theorem Order.Follows.refl (order : Order) : order.Follows order := ⟨rfl, rfl, fun _ => id, id, id⟩

section Follows

variable {order order' : Order}

theorem Order.Follows.request (h : order'.Follows order) : order'.request = order.request := congrArg OrderRequest.request h.origin

theorem Order.Follows.expireTimestamp (h : order'.Follows order) : order'.expireTimestamp = order.expireTimestamp :=
  congrArg OrderRequest.expireTimestamp h.origin

theorem Order.Follows.compressionType (h : order'.Follows order) : order'.compressionType = order.compressionType := by
  rw [Order.compressionType, h.request, Order.compressionType]

end Follows

variable {a b c : Order}

theorem Order.Follows.trans (hab : a.Follows b) (hbc : b.Follows c) : a.Follows c where
  origin := hab.origin.trans hbc.origin
  lockPrice := hab.lockPrice.trans hbc.lockPrice
  proofId p h := hab.proofId p (hbc.proofId p h)
  accepted h := hab.accepted (hbc.accepted h)
  taken h := hab.taken (hbc.taken h)

theorem Order.follows_of_status (order : Order) (status : OrderStatus) (hskipped : status ≠ .skipped) (hpending : status ≠ .pendingProving)
    (errorMsg : Option String) : { order with status, errorMsg }.Follows order :=
  ⟨rfl, rfl, fun _ => id, fun _ => hskipped, fun _ => hpending⟩

/-- What a call may do to one order beyond the usual. -/
inductive Touched
  | nothing
  | status (id : OrderId)
  | proof (id : OrderId)
  deriving DecidableEq

structure Order.FollowsBut (touched : Touched) (id : OrderId) (order' order : Order) : Prop extends order'.Follows order where
  settled : touched ≠ .status id → order.status.Settled → order'.status.Settled
  sameProof : touched ≠ .proof id → order'.proofId = order.proofId

theorem Order.FollowsBut.refl (touched : Touched) (id : OrderId) (order : Order) : order.FollowsBut touched id order :=
  ⟨.refl order, fun _ h => h, fun _ => rfl⟩

theorem Order.FollowsBut.trans {touched : Touched} {id : OrderId} (hab : a.FollowsBut touched id b)
    (hbc : b.FollowsBut touched id c) : a.FollowsBut touched id c where
  toFollows := hab.toFollows.trans hbc.toFollows
  settled h hs := hab.settled h (hbc.settled h hs)
  sameProof h := (hab.sameProof h).trans (hbc.sameProof h)

namespace Db

def Fits (db : Db) : Prop := ∀ id order, db.orders.get? id = some order → order.status.Fits order.compressionType

/-- Every accepted order is kept, settled if it is, and with the proof that it has or lacks, but for what is touched. -/
def RowsFollow (touched : Touched) (db' db : Db) : Prop :=
  ∀ id order, db.orders.get? id = some order → order.status ≠ .skipped →
    ∃ order', db'.orders.get? id = some order' ∧ order'.FollowsBut touched id order

variable {touched : Touched} {db db' db'' : Db} {id : OrderId} {f : Order → Order}

theorem RowsFollow.of_orders_eq (h : db'.orders = db.orders) : db'.RowsFollow touched db := by
  intro id order hget _
  exact ⟨order, h ▸ hget, .refl touched id order⟩

theorem RowsFollow.refl (touched : Touched) (db : Db) : db.RowsFollow touched db := .of_orders_eq rfl

theorem RowsFollow.trans (h' : db''.RowsFollow touched db') (h : db'.RowsFollow touched db) : db''.RowsFollow touched db := by
  intro id order hget hne
  obtain ⟨order', hget', hfollows⟩ := h id order hget hne
  obtain ⟨order'', hget'', hfollows'⟩ := h' id order' hget' (hfollows.accepted hne)
  exact ⟨order'', hget'', hfollows'.trans hfollows⟩

theorem updateOrder_ok (h : db.updateOrder id f = .ok db') :
    ∃ order, db.orders.get? id = some order ∧ db' = { db with orders := db.orders.insert id (f order) } := by
  unfold updateOrder at h
  split at h
  · cases h
  next order hget => exact ⟨order, hget, (Except.ok.inj h).symm⟩

variable {order order' : Order} {status : OrderStatus} {proofId : ProofId} {p : Order → Bool} {ids : List OrderId} {o : AggregationOrder}

theorem rowsFollow_insert (hget : db.orders.get? id = some order)
    (hfollows : order.status ≠ .skipped → order'.FollowsBut touched id order) :
    { db with orders := db.orders.insert id order' }.RowsFollow touched db := by
  intro id' row hget' hne
  by_cases hid : id' = id
  · subst hid
    obtain rfl : order = row := Option.some.inj (hget.symm.trans hget')
    exact ⟨order', by rw [get?_insert, if_pos rfl], hfollows hne⟩
  · exact ⟨row, by rw [get?_insert, if_neg hid]; exact hget', .refl touched id' row⟩

theorem Fits.insert (hfits : db.Fits) (h : order.status.Fits order.compressionType) :
    { db with orders := db.orders.insert id order }.Fits := by
  intro id' row hget
  rw [get?_insert] at hget
  split_ifs at hget with hid
  · cases hget
    exact h
  · exact hfits id' row hget

structure Writes (touched : Touched) (db' db : Db) : Prop where
  batches : db'.batches = db.batches
  rows : db'.RowsFollow touched db
  fits : db.Fits → db'.Fits

theorem Writes.refl (touched : Touched) (db : Db) : db.Writes touched db := ⟨rfl, .refl touched db, fun h => h⟩

theorem Writes.trans (h' : db''.Writes touched db') (h : db'.Writes touched db) : db''.Writes touched db :=
  ⟨h'.batches.trans h.batches, h'.rows.trans h.rows, fun hfits => h'.fits (h.fits hfits)⟩

theorem Writes.attempt {r : Except DbError Db} (h : ∀ db', r = .ok db' → db'.Writes touched db) : (db.attempt r).Writes touched db := by
  unfold Db.attempt
  split
  next db' => exact h db' rfl
  next => exact .refl touched db

theorem writes_insert (hget : db.orders.get? id = some order)
    (hfollows : order.status ≠ .skipped → order'.FollowsBut touched id order)
    (hfits : order.status.Fits order.compressionType → order'.status.Fits order'.compressionType) :
    { db with orders := db.orders.insert id order' }.Writes touched db :=
  ⟨rfl, rowsFollow_insert hget hfollows, fun h => h.insert (hfits (h id order hget))⟩

theorem writes_updateOrder (h : db.updateOrder id f = .ok db') (hf : ∀ order, db.orders.get? id = some order →
      (order.status ≠ .skipped → (f order).FollowsBut touched id order) ∧
        (order.status.Fits order.compressionType → (f order).status.Fits (f order).compressionType)) : db'.Writes touched db := by
  obtain ⟨order, hget, rfl⟩ := updateOrder_ok h
  exact writes_insert hget (hf order hget).1 (hf order hget).2

theorem writes_settle (touched : Touched) (hsettled : status.Settled) (hf : ∀ order, ∃ errorMsg, f order = { order with status, errorMsg })
    (h : db.updateOrder id f = .ok db') : db'.Writes touched db := by
  refine writes_updateOrder h fun order _ => ?_
  obtain ⟨errorMsg, heq⟩ := hf order
  rw [heq]
  refine ⟨fun _ => ⟨order.follows_of_status status ?_ ?_ errorMsg, fun _ _ => hsettled, fun _ => rfl⟩, fun _ => hsettled.fits _⟩
  · obtain rfl | rfl | rfl := hsettled <;> decide
  · obtain rfl | rfl | rfl := hsettled <;> decide

theorem writes_setOrderFailure (touched : Touched) {failure : String} (h : db.setOrderFailure id failure = .ok db') : db'.Writes touched db :=
  writes_settle touched (.inr (.inr rfl)) (fun _ => ⟨some failure, rfl⟩) h

theorem writes_setOrderComplete (touched : Touched) (h : db.setOrderComplete id = .ok db') : db'.Writes touched db :=
  writes_settle touched (.inr (.inl rfl)) (fun order => ⟨order.errorMsg, rfl⟩) h

theorem writes_setOrderCompressedProofId (touched : Touched) (h : db.setOrderCompressedProofId id proofId = .ok db') :
    db'.Writes touched db :=
  writes_updateOrder h fun _ _ => ⟨fun _ => ⟨⟨rfl, rfl, fun _ h => h, fun h => h, fun h => h⟩, fun _ h => h, fun _ => rfl⟩, fun h => h⟩

theorem writes_setOrderProofId (h : db.setOrderProofId id proofId = .ok db')
    (hnone : ∀ order, db.orders.get? id = some order → order.status ≠ .skipped → order.proofId = none) : db'.Writes (.proof id) db := by
  refine writes_updateOrder h fun order hget =>
    ⟨fun hne => ⟨⟨rfl, rfl, fun p hp => ?_, fun h => h, fun h => h⟩, fun _ h => h, fun h => absurd rfl h⟩, fun h => h⟩
  rw [hnone order hget hne] at hp
  cases hp

/-- A status that fits its row may be written where the row need not stay settled. -/
theorem writes_setAggregationStatus (h : db.setAggregationStatus id status = .ok db')
    (hskipped : status ≠ .skipped) (hpending : status ≠ .pendingProving)
    (hfits : ∀ order, db.orders.get? id = some order → status.Fits order.compressionType)
    (htouched : touched = .status id ∨ ∀ order, db.orders.get? id = some order → ¬order.status.Settled) : db'.Writes touched db := by
  refine writes_updateOrder h fun order hget =>
    ⟨fun _ => ⟨order.follows_of_status status hskipped hpending order.errorMsg, fun hnot hsettled => ?_, fun _ => rfl⟩, fun _ => hfits order hget⟩
  obtain htouched | hunsettled := htouched
  · exact absurd htouched hnot
  · exact absurd hsettled (hunsettled order hget)

variable (db) in
theorem writes_insertSkippedRequest (touched : Touched) (id : OrderId) (request : OrderRequest) :
    (db.insertSkippedRequest id request).Writes touched db := by
  unfold insertSkippedRequest
  split
  next hnone =>
    refine ⟨rfl, fun id' order hget _ => ?_, fun hfits => hfits.insert ⟨by simp [toSkippedOrder, toOrder], by simp [toSkippedOrder, toOrder]⟩⟩
    have hid : id' ≠ id := fun h => by rw [h, hnone] at hget; cases hget
    exact ⟨order, by rw [get?_insert, if_neg hid]; exact hget, .refl touched id' order⟩
  next => exact .refl touched db

theorem writes_insertAcceptedRequest (touched : Touched) {request : OrderRequest} {lockPrice : BitVec 256}
    (h : db.insertAcceptedRequest id request lockPrice = .ok db') : db'.Writes touched db := by
  unfold insertAcceptedRequest at h
  have hfits (hfits : db.Fits) : { db with orders := db.orders.insert id (request.toProvingOrder lockPrice) }.Fits :=
    hfits.insert ⟨by simp [toProvingOrder, toOrder], by simp [toProvingOrder, toOrder]⟩
  split at h
  next hnone =>
    cases h
    refine ⟨rfl, fun id' order hget _ => ?_, hfits⟩
    have hid : id' ≠ id := fun h => by rw [h, hnone] at hget; cases hget
    exact ⟨order, by rw [get?_insert, if_neg hid]; exact hget, .refl touched id' order⟩
  next old hold =>
    obtain ⟨_, hskipped, h⟩ := bind_ok_iff.mp h
    rw [require_ok_iff] at hskipped
    cases h
    refine ⟨rfl, fun id' order hget hne => ?_, hfits⟩
    have hid : id' ≠ id := fun h => by
      rw [h, hold] at hget
      exact hne (Option.some.inj hget ▸ hskipped)
    exact ⟨order, by rw [get?_insert, if_neg hid]; exact hget, .refl touched id' order⟩

theorem mem_finds (h : db.Finds p ids) : id ∈ ids ↔ ∃ order, db.orders.get? id = some order ∧ p order = true := by
  rw [h.mem_iff, mem_map]
  constructor
  · rintro ⟨⟨_, order⟩, he, rfl⟩
    obtain ⟨hmem, hp⟩ := mem_filter.mp he
    exact ⟨order, mem_entries_iff.mp hmem, hp⟩
  · rintro ⟨order, hget, hp⟩
    exact ⟨(id, order), mem_filter.mpr ⟨mem_entries_iff.mpr hget, hp⟩, rfl⟩

theorem finds_nodup (h : db.Finds p ids) : ids.Nodup :=
  h.nodup_iff.mpr (db.orders.nodup_keys.sublist (filter_sublist.map Prod.fst))

/-- The rows that are written keep the property, so that a second write of one of them does no harm either. -/
theorem writes_setStatuses (hskipped : status ≠ .skipped) (hpending : status ≠ .pendingProving)
    (hsettled : ¬status.Settled) (h : db.setStatuses status ids = .ok db')
    (hids : ∀ id ∈ ids, ∀ order, db.orders.get? id = some order → status.Fits order.compressionType ∧ ¬order.status.Settled) :
    db'.Writes touched db := by
  unfold setStatuses at h
  induction ids generalizing db with
  | nil =>
    obtain rfl := Except.ok.inj h
    exact .refl touched db
  | cons id ids ih =>
    rw [foldlM_cons] at h
    obtain ⟨mid, hone, hrest⟩ := bind_ok_iff.mp h
    have hwrite : mid.Writes touched db := writes_setAggregationStatus hone hskipped hpending
      (fun order hget => (hids id mem_cons_self order hget).1) (.inr fun order hget => (hids id mem_cons_self order hget).2)
    refine (ih hrest fun id' hmem order hget => ?_).trans hwrite
    obtain ⟨row, hrow, rfl⟩ := updateOrder_ok hone
    rw [get?_insert] at hget
    split_ifs at hget with hid
    · cases hget
      exact ⟨(hids id mem_cons_self row hrow).1, hsettled⟩
    · exact hids id' (mem_cons_of_mem id hmem) order hget

structure Holds (db : Db) (o : AggregationOrder) (order : Order) : Prop where
  row : db.orders.get? o.orderId = some order
  accepted : order.status ≠ .skipped
  proofId : order.proofId = some o.proofId
  expireTimestamp : order.expireTimestamp = some o.expiration
  lockPrice : order.lockPrice = some o.fee

theorem Holds.follows (h : db.Holds o order) (hrows : db'.RowsFollow touched db) :
    ∃ order', db'.Holds o order' ∧ order'.compressionType = order.compressionType := by
  obtain ⟨order', hget, hfollows⟩ := hrows _ order h.row h.accepted
  exact ⟨order', ⟨hget, hfollows.accepted h.accepted, hfollows.proofId _ h.proofId, hfollows.expireTimestamp.trans h.expireTimestamp,
    hfollows.lockPrice.trans h.lockPrice⟩, hfollows.compressionType⟩

theorem aggregationOrder_ok (h : db.aggregationOrder id = .ok o) : o.orderId = id ∧ ∃ order,
    db.orders.get? id = some order ∧ order.proofId = some o.proofId ∧ order.expireTimestamp = some o.expiration ∧
      order.lockPrice = some o.fee := by
  unfold aggregationOrder at h
  split at h
  · cases h
  next order hget =>
    split at h
    next proofId expiration fee hproof hexpiration hfee =>
      cases h
      exact ⟨rfl, order, hget, hproof, hexpiration, hfee⟩
    all_goals cases h

end Db

end VerifiableCompute.Broker
